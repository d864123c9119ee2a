import LsmStore.Proofs.Arena.Containment

/-!
# Regions do not overlap

An arena never hands out a byte twice.  A region that it has lent out has no byte in
common with what is unused of the current block, and every later region comes out of
that or out of a block that did not exist before.  So a region stays apart from all
later ones, and what lies in it changes by nothing but a write into it.
-/

namespace LsmStore

namespace Region

/-- The end of a region, the first position behind it. -/
def stop (region : Region) : Nat :=
  region.start + region.length

/-- Whether two regions have no byte in common: in one block the later one starts no earlier
than the other one ends. -/
def Apart (region other : Region) : Prop :=
  region.block = other.block → min region.stop other.stop ≤ max region.start other.start

variable {region other : Region} {size : Nat}

theorem Apart.symm
    (h : region.Apart other) :
    other.Apart region := by
  intro hblock
  rw [Nat.min_comm, Nat.max_comm]
  exact h hblock.symm

theorem apart_of_block_ne
    (h : region.block ≠ other.block) :
    region.Apart other := by
  intro hblock
  exact absurd hblock h

theorem apart_front_behind
    (region : Region) (size : Nat) :
    (region.front size).Apart (region.behind size) := by
  intro _
  simp only [stop, front, behind]
  omega

theorem Apart.front
    (h : other.Apart region) (hfits : size ≤ region.length) :
    other.Apart (region.front size) := by
  intro hsame
  have hbounds := h hsame
  simp only [stop, Region.front] at hbounds ⊢
  omega

theorem Apart.behind
    (h : other.Apart region) (hfits : size ≤ region.length) :
    other.Apart (region.behind size) := by
  intro hsame
  have hbounds := h hsame
  simp only [stop, Region.behind] at hbounds ⊢
  omega

end Region

namespace Arena

/-- Whether a region has been handed out: it lies in a block, apart from what is unused of the
current block. -/
structure Lent (arena : Arena) (region : Region) : Prop where
  contains : arena.Contains region
  apart_spare : region.Apart arena.spare

variable {arena next : Arena} {region other : Region} {size : Nat}

/-- A request that is served is not empty, and it is served in one of three ways. -/
theorem allocate_cases
    (h : arena.allocate size = .ok (region, next)) :
    0 < size ∧
      ((size ≤ arena.spare.length ∧ (region, next) = arena.carve size) ∨
        (arena.spare.length < size ∧ arena.blockSize / 4 < size ∧
          (region, next) = arena.addBlock size) ∨
        (arena.spare.length < size ∧ size ≤ arena.blockSize / 4 ∧
          (region, next) = ((arena.addBlock arena.blockSize).2.withSpare
            (arena.addBlock arena.blockSize).1).carve size)) := by
  rw [allocate] at h
  by_cases hzero : size = 0
  · rw [if_pos hzero] at h
    cases h
  · rw [if_neg hzero, service] at h
    refine ⟨Nat.pos_of_ne_zero hzero, ?_⟩
    by_cases hfits : size ≤ arena.spare.length
    · rw [if_pos hfits] at h
      exact Or.inl ⟨hfits, (Except.ok.inj h).symm⟩
    · rw [if_neg hfits] at h
      have hshort : arena.spare.length < size := Nat.lt_of_not_le hfits
      by_cases hlarge : arena.blockSize / 4 < size
      · rw [if_pos hlarge] at h
        exact Or.inr (Or.inl ⟨hshort, hlarge, (Except.ok.inj h).symm⟩)
      · rw [if_neg hlarge] at h
        exact Or.inr (Or.inr ⟨hshort, Nat.le_of_not_lt hlarge, (Except.ok.inj h).symm⟩)

/-! ## Regions and blocks -/

theorem Contains.block_lt
    (h : arena.Contains region) :
    region.block < arena.blocks.size := by
  obtain ⟨chunk, hchunk, -⟩ := h
  exact (Array.getElem?_eq_some_iff.mp hchunk).1

theorem Contains.apart_addBlock
    (h : arena.Contains region) (size : Nat) :
    region.Apart (arena.addBlock size).1 :=
  Region.apart_of_block_ne (Nat.ne_of_lt h.block_lt)

theorem Contains.read_addBlock
    (h : arena.Contains region) (size : Nat) :
    (arena.addBlock size).2.read region = arena.read region := by
  obtain ⟨chunk, hchunk, -⟩ := h
  rw [read, read, hchunk, getElem?_blocks_addBlock hchunk size]

theorem Sound.apart_spare_addBlock
    (h : arena.Sound) (size : Nat) :
    (arena.addBlock size).1.Apart arena.spare := by
  rcases h with hempty | hspare
  · intro _
    simp only [Region.stop, hempty]
    omega
  · exact (hspare.apart_addBlock size).symm

/-! ## Requests -/

/-- A request leaves a region that was handed out before as it is, and the new region is apart
from it. -/
theorem Lent.allocate
    (h : arena.Lent other) (hallocate : arena.allocate size = .ok (region, next)) :
    next.Lent other ∧ other.Apart region ∧ next.read other = arena.read other := by
  rcases (allocate_cases hallocate).2 with
    ⟨hfits, hcarve⟩ | ⟨-, -, hblock⟩ | ⟨-, hquarter, hcarve⟩
  · -- The spare part is cut in two, and both pieces are apart from the region.
    cases hcarve
    exact ⟨⟨h.contains, h.apart_spare.behind hfits⟩, h.apart_spare.front hfits, rfl⟩
  · cases hblock
    exact ⟨⟨h.contains.addBlock size, h.apart_spare⟩, h.contains.apart_addBlock size,
      h.contains.read_addBlock size⟩
  · -- Both pieces are parts of a block that did not exist before.
    cases hcarve
    have hwhole := h.contains.apart_addBlock arena.blockSize
    have hfits : size ≤ (arena.addBlock arena.blockSize).1.length :=
      Nat.le_trans hquarter (Nat.div_le_self _ _)
    exact ⟨⟨h.contains.addBlock arena.blockSize, hwhole.behind hfits⟩, hwhole.front hfits,
      h.contains.read_addBlock arena.blockSize⟩

/-- What a request is served with has been handed out. -/
theorem Sound.lent_of_allocate
    (h : arena.Sound) (hallocate : arena.allocate size = .ok (region, next)) :
    next.Lent region := by
  obtain ⟨hpos, hserved⟩ := allocate_cases hallocate
  obtain ⟨region', next', hallocate', -, hcontains, -⟩ := h.allocate hpos
  cases hallocate.symm.trans hallocate'
  refine ⟨hcontains, ?_⟩
  rcases hserved with ⟨-, hcarve⟩ | ⟨-, -, hblock⟩ | ⟨-, -, hcarve⟩
  · cases hcarve
    exact Region.apart_front_behind _ _
  · cases hblock
    exact h.apart_spare_addBlock size
  · cases hcarve
    exact Region.apart_front_behind _ _

/-! ## Writes -/

theorem take_drop_replace
    {whole bytes : Bytes} {start first count : Nat}
    (hfits : start + bytes.length ≤ whole.length)
    (hapart : min (start + bytes.length) (first + count) ≤ max start first) :
    ((whole.take start ++ bytes ++ whole.drop (start + bytes.length)).drop first).take count =
      (whole.drop first).take count := by
  -- At each position in question there is a byte in front of the replaced ones or behind them.
  apply List.ext_getElem?
  intro index
  have hfront : (whole.take start).length = start := by
    rw [List.length_take]
    omega
  rw [List.getElem?_take, List.getElem?_take]
  by_cases hindex : index < count
  · rw [if_pos hindex, if_pos hindex, List.getElem?_drop, List.getElem?_drop]
    by_cases hbefore : first + index < start
    · rw [List.append_assoc, List.getElem?_append_left (by omega),
        List.getElem?_take_of_lt hbefore]
    · have hbehind : start + bytes.length ≤ first + index := by omega
      rw [List.getElem?_append_right (by rw [List.length_append]; omega), List.getElem?_drop]
      congr 1
      rw [List.length_append, hfront]
      omega
  · rw [if_neg hindex, if_neg hindex]

/-- What is written into a region is not seen in a region that is apart from it. -/
theorem read_write_of_apart
    {bytes : Bytes} (hcontains : arena.Contains region) (hlength : bytes.length ≤ region.length)
    (hapart : other.Apart region) :
    (arena.write region bytes).read other = arena.read other := by
  obtain ⟨chunk, hchunk, hbound⟩ := hcontains
  by_cases hblock : other.block = region.block
  · have hfits : region.start + bytes.length ≤ chunk.size := by omega
    have hbounds := hapart hblock
    simp only [Region.stop] at hbounds
    have hnext : (arena.write region bytes).blocks[other.block]? =
        some (chunk.write region.start region.length bytes) := by
      simp [write, Array.getElem?_modify, hblock, hchunk]
    rw [read, read, hnext, hblock, hchunk]
    simp only [Chunk.read_eq, Chunk.toList_write hlength hfits]
    refine take_drop_replace ?_ ?_
    · rwa [Chunk.length_toList]
    · omega
  · have hnext : (arena.write region bytes).blocks[other.block]? = arena.blocks[other.block]? := by
      rw [write]
      simp [Array.getElem?_modify, Ne.symm hblock]
    rw [read, read, hnext]

theorem Lent.write
    (h : arena.Lent other) (region : Region) (bytes : Bytes) :
    (arena.write region bytes).Lent other :=
  ⟨(contains_write_iff bytes other).mpr h.contains, h.apart_spare⟩

end Arena

end LsmStore
