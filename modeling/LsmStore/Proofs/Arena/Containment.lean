import Mathlib.Tactic.ByContra
import LsmStore.Arena.Basic

/-!
# Regions lie inside their blocks

What an arena has left of its current block lies inside that block, and so does
every region that it hands out.  So what is written into a region, as many bytes
as it has, is read back from it.
-/

namespace LsmStore.Arena

/-- Whether all bytes of a region belong to a block. -/
def Contains (arena : Arena) (region : Region) : Prop :=
  ∃ chunk, arena.blocks[region.block]? = some chunk ∧ region.start + region.length ≤ chunk.size

/-- Whether the unused part of the current block, if there is one, lies inside it. -/
def Sound (arena : Arena) : Prop :=
  arena.spare.length = 0 ∨ arena.Contains arena.spare

theorem sound_ofBlockSize
    (blockSize : Nat) (hpos : 0 < blockSize) :
    (ofBlockSize blockSize hpos).Sound :=
  Or.inl rfl

@[simp]
theorem Chunk.size_write
    (chunk : Chunk) (start length : Nat) (bytes : Bytes) :
    (chunk.write start length bytes).size = chunk.size := by
  unfold Chunk.write
  split <;> rfl

theorem Contains.length_read
    {arena : Arena} {region : Region} (h : arena.Contains region) :
    (arena.read region).length = region.length := by
  obtain ⟨chunk, hchunk, hbound⟩ := h
  rw [read, hchunk]
  simp only [Chunk.read_eq, List.length_take, List.length_drop, Chunk.length_toList]
  omega

section Blocks

variable {arena : Arena} {region : Region}

theorem getElem?_blocks_addBlock
    {index : Nat} {chunk : Chunk} (hchunk : arena.blocks[index]? = some chunk) (size : Nat) :
    (arena.addBlock size).2.blocks[index]? = some chunk := by
  obtain ⟨hindex, -⟩ := Array.getElem?_eq_some_iff.mp hchunk
  rw [blocks_addBlock, Array.getElem?_push, if_neg (Nat.ne_of_lt hindex), hchunk]

theorem Contains.addBlock
    (h : arena.Contains region) (size : Nat) :
    (arena.addBlock size).2.Contains region := by
  obtain ⟨chunk, hchunk, hbound⟩ := h
  exact ⟨chunk, getElem?_blocks_addBlock hchunk size, hbound⟩

theorem contains_addBlock
    (arena : Arena) (size : Nat) :
    (arena.addBlock size).2.Contains (arena.addBlock size).1 :=
  ⟨Chunk.zeroed size, by simp, by simp [Chunk.zeroed]⟩

theorem contains_carve
    (h : arena.Sound) {size : Nat} (hpos : 0 < size) (hfits : size ≤ arena.spare.length) :
    (arena.carve size).2.Contains (arena.carve size).1 ∧ (arena.carve size).2.Sound := by
  rcases h with hempty | ⟨chunk, hchunk, hbound⟩
  · omega
  · exact ⟨⟨chunk, hchunk, by simp only [carve, Region.front]; omega⟩,
      Or.inr ⟨chunk, hchunk, by simp only [carve, Region.behind]; omega⟩⟩

theorem contains_write_iff
    (bytes : Bytes) (other : Region) :
    (arena.write region bytes).Contains other ↔ arena.Contains other := by
  unfold Contains write
  simp only [Array.getElem?_modify]
  by_cases hsame : region.block = other.block
  · simp [hsame]
  · simp [hsame]

theorem Sound.write
    (h : arena.Sound) (region : Region) (bytes : Bytes) :
    (arena.write region bytes).Sound :=
  h.imp id (contains_write_iff bytes _).mpr

end Blocks

/-- A request for at least one byte is served by a region of that size inside a block. -/
theorem Sound.allocate
    {arena : Arena} (h : arena.Sound) {size : Nat} (hpos : 0 < size) :
    ∃ region next, arena.allocate size = .ok (region, next) ∧ region.length = size ∧
      next.Contains region ∧ next.Sound := by
  rw [Arena.allocate, if_neg (Nat.ne_of_gt hpos)]
  cases hservice : arena.service size with
  | carved =>
    have hfits : size ≤ arena.spare.length := by
      by_contra hlarge
      simp only [service, hlarge, if_false] at hservice
      split at hservice <;> cases hservice
    exact ⟨_, _, rfl, rfl, contains_carve h hpos hfits⟩
  | dedicated =>
    refine ⟨_, _, rfl, rfl, contains_addBlock arena size, ?_⟩
    exact h.imp id fun hspare => hspare.addBlock size
  | renewed =>
    have hfits : size ≤ arena.blockSize := by
      by_contra hlarge
      have : arena.blockSize / 4 < size := by omega
      simp only [service, this, if_true] at hservice
      split at hservice <;> cases hservice
    have hwhole : ((arena.addBlock arena.blockSize).2.withSpare
        (arena.addBlock arena.blockSize).1).Sound :=
      Or.inr (contains_addBlock arena arena.blockSize)
    exact ⟨_, _, rfl, rfl, contains_carve hwhole hpos hfits⟩

theorem read_write_front
    {arena : Arena} {region : Region} {bytes : Bytes}
    (h : arena.Contains region) (hlength : bytes.length ≤ region.length) :
    (arena.write region bytes).read region = bytes ++ (arena.read region).drop bytes.length := by
  obtain ⟨chunk, hchunk, hbound⟩ := h
  have hwritten := Chunk.toList_write hlength
    (show region.start + bytes.length ≤ chunk.size by omega)
  have hfront : (chunk.toList.take region.start).length = region.start := by
    rw [List.length_take, Chunk.length_toList]
    omega
  have hnext : (arena.write region bytes).blocks[region.block]? =
      some (chunk.write region.start region.length bytes) := by
    simp [write, Array.getElem?_modify, hchunk]
  rw [read, hnext, read, hchunk]
  simp only [Chunk.read_eq, hwritten]
  rw [List.append_assoc, List.drop_left' hfront, List.take_append, List.take_of_length_le hlength,
    List.drop_take, List.drop_drop]

/-- A region gives back what was written all over it. -/
theorem read_write
    {arena : Arena} {region : Region} {bytes : Bytes}
    (h : arena.Contains region) (hlength : bytes.length = region.length) :
    (arena.write region bytes).read region = bytes := by
  rw [read_write_front h (Nat.le_of_eq hlength), hlength,
    List.drop_of_length_le (Nat.le_of_eq h.length_read),
    List.append_nil]

end LsmStore.Arena
