import Mathlib.Algebra.Ring.Nat
import Mathlib.Data.List.Basic
import LsmStore.Arena.Client
import LsmStore.Proofs.Arena.Disjoint

/-!
# What a client owns

A client of an arena may write into its regions whatever it likes.  What is unused of the
current block is out of its reach, so that it stays zero until it is handed out.  A
block of another size than usual has been obtained for one region, which is all of it,
and nothing is ever carved from it again.  From this follow the promises to a client:
its regions have the sizes that it has asked for, they have no byte in common, each is
zero when it is handed out, and after that it changes by nothing but writes into it.
-/

namespace LsmStore.Arena

/-! ## Writes that are too long -/

theorem Chunk.overlay_take
    {position stop count : Nat} (hcount : stop - position ≤ count) (written : Array UInt8)
    (bytes : Bytes) :
    overlay written position stop (bytes.take count) = overlay written position stop bytes := by
  induction bytes generalizing written position count with
  | nil => rw [List.take_nil]
  | cons byte bytes ih =>
    by_cases hbefore : position < stop
    · obtain ⟨count, rfl⟩ := Nat.exists_eq_succ_of_ne_zero (show count ≠ 0 by omega)
      rw [List.take_succ_cons, overlay, overlay, if_pos hbefore, if_pos hbefore]
      exact ih (by omega) _
    · cases count with
      | zero => rw [List.take_zero, overlay, overlay, if_neg hbefore]
      | succ count => rw [List.take_succ_cons, overlay, overlay, if_neg hbefore, if_neg hbefore]

theorem Chunk.write_take
    (chunk : Chunk) (start length : Nat) (bytes : Bytes) :
    chunk.write start length (bytes.take length) = chunk.write start length bytes := by
  rw [write, write]
  split
  · simp only [mk.injEq, true_and]
    exact overlay_take (by omega) _ bytes
  · rfl

variable {arena next : Arena} {region other : Region} {size : Nat}

theorem write_take
    (arena : Arena) (region : Region) (bytes : Bytes) :
    arena.write region (bytes.take region.length) = arena.write region bytes := by
  rw [write, write]
  congr 2
  funext chunk
  exact Chunk.write_take chunk region.start region.length bytes

/-! ## The unused part -/

/-- The sizes of the blocks, in the order in which they were obtained. -/
def blockSizes (arena : Arena) : List Nat :=
  arena.blocks.toList.map Chunk.size

/-- Whether all bytes in a region are zero. -/
def Clear (arena : Arena) (region : Region) : Prop :=
  ∀ byte ∈ arena.read region, byte = 0

/-- An arena in good order: what is unused of the current block lies inside it and is zero, the
current block has the usual size, and all blocks have been counted and their sizes added up. -/
structure Tidy (arena : Arena) : Prop where
  sound : arena.Sound
  clear : arena.Clear arena.spare
  spare_block : arena.spare.length = 0 ∨
    ∃ chunk, arena.blocks[arena.spare.block]? = some chunk ∧ chunk.size = arena.blockSize
  memoryUsage_eq : arena.memoryUsage = arena.blockSizes.sum
  blockCount_eq : arena.blockCount = arena.blockSizes.length

theorem Clear.read_eq
    (h : arena.Clear region) (hcontains : arena.Contains region) :
    arena.read region = List.replicate region.length 0 :=
  List.eq_replicate_iff.mpr ⟨hcontains.length_read, h⟩

/-- A region that is cut in two holds what its front holds and then what is held behind. -/
theorem read_front_behind
    (arena : Arena) (hfits : size ≤ region.length) :
    arena.read region = arena.read (region.front size) ++ arena.read (region.behind size) := by
  obtain ⟨block, start, length⟩ := region
  obtain ⟨back, rfl⟩ := Nat.exists_eq_add_of_le hfits
  simp only [read, Region.front, Region.behind, Nat.add_sub_cancel_left]
  cases arena.blocks[block]? with
  | none => rfl
  | some chunk => simp only [Chunk.read_eq, List.take_add, List.drop_drop]

theorem read_of_length_eq_zero
    (arena : Arena) (hempty : region.length = 0) :
    arena.read region = [] := by
  rw [read, hempty]
  cases arena.blocks[region.block]? with
  | none => rfl
  | some chunk => simp only [Chunk.read_eq, List.take_zero]

theorem read_addBlock
    (arena : Arena) (size : Nat) :
    (arena.addBlock size).2.read (arena.addBlock size).1 = List.replicate size 0 := by
  simp [read, Chunk.read_eq]

theorem blocks_addBlock_cases
    {index : Nat} {chunk : Chunk} (hchunk : (arena.addBlock size).2.blocks[index]? = some chunk) :
    (index = arena.blocks.size ∧ chunk = Chunk.zeroed size) ∨
      (index ≠ arena.blocks.size ∧ arena.blocks[index]? = some chunk) := by
  rw [blocks_addBlock, Array.getElem?_push] at hchunk
  by_cases hnew : index = arena.blocks.size
  · rw [if_pos hnew] at hchunk
    exact Or.inl ⟨hnew, (Option.some.inj hchunk).symm⟩
  · rw [if_neg hnew] at hchunk
    exact Or.inr ⟨hnew, hchunk⟩

theorem blockSizes_addBlock
    (arena : Arena) (size : Nat) :
    (arena.addBlock size).2.blockSizes = arena.blockSizes ++ [size] := by
  simp [blockSizes, Chunk.zeroed]

theorem blockSizes_write
    (arena : Arena) (region : Region) (bytes : Bytes) :
    (arena.write region bytes).blockSizes = arena.blockSizes := by
  refine List.ext_getElem? ?_
  intro index
  simp only [blockSizes, write, List.getElem?_map, Array.getElem?_toList, Array.getElem?_modify]
  by_cases hsame : region.block = index
  · rw [if_pos hsame, Option.map_map]
    refine Option.map_congr ?_
    intro chunk _
    exact Chunk.size_write chunk _ _ _
  · rw [if_neg hsame]

theorem tidy_ofBlockSize
    (blockSize : Nat) (hpos : 0 < blockSize) :
    (ofBlockSize blockSize hpos).Tidy where
  sound := sound_ofBlockSize blockSize hpos
  clear := by
    intro byte hbyte
    cases hbyte
  spare_block := Or.inl rfl
  memoryUsage_eq := rfl
  blockCount_eq := rfl

namespace Tidy

theorem carve
    (h : arena.Tidy) (hpos : 0 < size) (hfits : size ≤ arena.spare.length) :
    (arena.carve size).2.Tidy ∧ (arena.carve size).2.Clear (arena.carve size).1 := by
  have hclear : ∀ byte ∈ arena.read arena.spare, byte = 0 := h.clear
  rw [arena.read_front_behind hfits] at hclear
  obtain ⟨hfront, hback⟩ := List.forall_mem_append.mp hclear
  refine ⟨⟨(contains_carve h.sound hpos hfits).2, hback, ?_, h.memoryUsage_eq, h.blockCount_eq⟩,
    hfront⟩
  exact Or.inr (h.spare_block.resolve_left (by omega))

theorem addBlock
    (h : arena.Tidy) (size : Nat) :
    (arena.addBlock size).2.Tidy ∧ (arena.addBlock size).2.Clear (arena.addBlock size).1 := by
  refine ⟨⟨?_, ?_, ?_, ?_, ?_⟩, ?_⟩
  · exact h.sound.imp id fun hspare => hspare.addBlock size
  · show ∀ byte ∈ (arena.addBlock size).2.read arena.spare, byte = 0
    rcases h.sound with hempty | hspare
    · rw [read_of_length_eq_zero _ hempty]
      simp
    · rw [hspare.read_addBlock]
      exact h.clear
  · refine h.spare_block.imp id ?_
    rintro ⟨chunk, hchunk, hsize⟩
    exact ⟨chunk, getElem?_blocks_addBlock hchunk size, hsize⟩
  · rw [blockSizes_addBlock, List.sum_append, List.sum_singleton, ← h.memoryUsage_eq]
    rfl
  · rw [blockSizes_addBlock, List.length_append, List.length_singleton, ← h.blockCount_eq]
    rfl
  · intro byte hbyte
    rw [read_addBlock] at hbyte
    exact List.eq_of_mem_replicate hbyte

theorem renew
    (h : arena.Tidy) :
    ((arena.addBlock arena.blockSize).2.withSpare (arena.addBlock arena.blockSize).1).Tidy := by
  obtain ⟨hadded, hclear⟩ := h.addBlock arena.blockSize
  refine ⟨Or.inr (contains_addBlock arena arena.blockSize), hclear, Or.inr ?_,
    hadded.memoryUsage_eq, hadded.blockCount_eq⟩
  exact ⟨Chunk.zeroed arena.blockSize, by simp [withSpare], rfl⟩

/-- A request leaves an arena in good order, and what it is served with is zero. -/
theorem allocate
    (h : arena.Tidy) (hallocate : arena.allocate size = .ok (region, next)) :
    next.Tidy ∧ next.Clear region := by
  obtain ⟨hpos, ⟨hfits, hcarve⟩ | ⟨-, -, hblock⟩ | ⟨-, hquarter, hcarve⟩⟩ :=
    allocate_cases hallocate
  · cases hcarve
    exact h.carve hpos hfits
  · cases hblock
    exact h.addBlock size
  · cases hcarve
    exact h.renew.carve hpos (Nat.le_trans hquarter (Nat.div_le_self _ _))

/-- A write into a region that has been handed out leaves the unused part alone. -/
theorem write
    (h : arena.Tidy) (hlent : arena.Lent region) (bytes : Bytes) :
    (arena.write region bytes).Tidy := by
  refine ⟨h.sound.write region bytes, ?_, ?_, ?_, ?_⟩
  · show ∀ byte ∈ (arena.write region bytes).read arena.spare, byte = 0
    rw [← write_take, read_write_of_apart hlent.contains (List.length_take_le _ _)
      hlent.apart_spare.symm]
    exact h.clear
  · refine h.spare_block.imp id ?_
    rintro ⟨chunk, hchunk, hsize⟩
    by_cases hsame : region.block = arena.spare.block
    · refine ⟨_, ?_, (Chunk.size_write chunk region.start region.length bytes).trans hsize⟩
      simp [Arena.write, Array.getElem?_modify, hsame, hchunk]
    · refine ⟨chunk, ?_, hsize⟩
      simp [Arena.write, Array.getElem?_modify, hsame, hchunk]
  · rw [blockSizes_write, ← h.memoryUsage_eq]
    rfl
  · rw [blockSizes_write, ← h.blockCount_eq]
    rfl

/-- What a request does to the blocks: it carves from one of the usual size, or it adds one, which
has the usual size or is all of the new region. -/
theorem blocks_of_allocate
    (h : arena.Tidy) (hallocate : arena.allocate size = .ok (region, next))
    {index : Nat} {chunk : Chunk} (hchunk : next.blocks[index]? = some chunk) :
    (arena.blocks[index]? = some chunk ∧
        (region.block = index → chunk.size = arena.blockSize)) ∨
      (index = arena.blocks.size ∧
        (chunk.size = arena.blockSize ∨ region = ⟨index, 0, chunk.size⟩)) := by
  obtain ⟨hpos, ⟨hfits, hcarve⟩ | ⟨-, -, hblock⟩ | ⟨-, -, hcarve⟩⟩ := allocate_cases hallocate
  · cases hcarve
    refine Or.inl ⟨hchunk, ?_⟩
    rintro rfl
    obtain ⟨current, hcurrent, hsize⟩ := h.spare_block.resolve_left (by omega)
    obtain rfl := Option.some.inj (hcurrent.symm.trans hchunk)
    exact hsize
  · cases hblock
    rcases blocks_addBlock_cases hchunk with ⟨rfl, rfl⟩ | ⟨hold, hbefore⟩
    · exact Or.inr ⟨rfl, Or.inr rfl⟩
    · exact Or.inl ⟨hbefore, fun hsame => absurd hsame.symm hold⟩
  · cases hcarve
    rcases blocks_addBlock_cases hchunk with ⟨rfl, rfl⟩ | ⟨hold, hbefore⟩
    · exact Or.inr ⟨rfl, Or.inl rfl⟩
    · exact Or.inl ⟨hbefore, fun hsame => absurd hsame.symm hold⟩

end Tidy

/-- A request obtains no block, one of its own size or one of the usual size. -/
theorem blockSizes_of_allocate
    (hallocate : arena.allocate size = .ok (region, next)) :
    next.blockSize = arena.blockSize ∧
      (next.blockSizes = arena.blockSizes ∨ next.blockSizes = arena.blockSizes ++ [size] ∨
        next.blockSizes = arena.blockSizes ++ [arena.blockSize]) := by
  obtain ⟨-, ⟨-, hcarve⟩ | ⟨-, -, hblock⟩ | ⟨-, -, hcarve⟩⟩ := allocate_cases hallocate
  · cases hcarve
    exact ⟨rfl, Or.inl rfl⟩
  · cases hblock
    exact ⟨rfl, Or.inr (Or.inl (blockSizes_addBlock arena size))⟩
  · cases hcarve
    exact ⟨rfl, Or.inr (Or.inr (blockSizes_addBlock arena arena.blockSize))⟩

/-! ## Clients -/

theorem exists_block_of_write
    {bytes : Bytes} {index : Nat} {chunk : Chunk}
    (hchunk : (arena.write region bytes).blocks[index]? = some chunk) :
    ∃ old, arena.blocks[index]? = some old ∧ chunk.size = old.size := by
  simp only [write, Array.getElem?_modify] at hchunk
  split at hchunk
  · obtain ⟨old, hold, rfl⟩ := Option.map_eq_some_iff.mp hchunk
    exact ⟨old, hold, Chunk.size_write old _ _ _⟩
  · exact ⟨chunk, hchunk, rfl⟩

namespace Client

/-- A client whose regions have no byte in common, and whose blocks have the usual size if they
are not each taken up by one region. -/
structure Orderly (client : Client) : Prop where
  tidy : client.arena.Tidy
  lent : ∀ region ∈ client.regions.toList, client.arena.Lent region
  apart : client.regions.toList.Pairwise Region.Apart
  blocks : ∀ (index : Nat) (chunk : Chunk), client.arena.blocks[index]? = some chunk →
    chunk.size = client.arena.blockSize ∨
      client.regions.toList.filter (fun region => region.block = index) =
        [⟨index, 0, chunk.size⟩]

/-- The size that a request asks for. -/
def Request.size? : Request → Option Nat
  | .allocate size => some size
  | .write _ _ => none

theorem orderly_ofArena
    {arena : Arena} (h : arena.Tidy) (hnone : arena.blocks = #[]) :
    (ofArena arena).Orderly where
  tidy := h
  lent := by
    intro region hregion
    cases hregion
  apart := List.Pairwise.nil
  blocks := by
    intro index chunk hchunk
    rw [show (ofArena arena).arena.blocks = #[] from hnone] at hchunk
    simp at hchunk

variable {client next : Client} {size : Nat}

namespace Orderly

/-- A request for at least one byte is served by a region of that size that holds zeros, and no
other region is touched. -/
theorem allocate
    (h : client.Orderly) (hpos : 0 < size) :
    ∃ next region, client.allocate size = .ok next ∧
      next.regions = client.regions.push region ∧ next.Orderly ∧
      region.length = size ∧ next.arena.read region = List.replicate size 0 ∧
      (∀ other ∈ client.regions.toList, next.arena.read other = client.arena.read other) ∧
      next.arena.blockSize = client.arena.blockSize ∧
      (next.arena.blockSizes = client.arena.blockSizes ∨
        next.arena.blockSizes = client.arena.blockSizes ++ [size] ∨
        next.arena.blockSizes = client.arena.blockSizes ++ [client.arena.blockSize]) := by
  obtain ⟨region, arena, hallocate, hlength, -, -⟩ := h.tidy.sound.allocate hpos
  obtain ⟨htidy, hclear⟩ := h.tidy.allocate hallocate
  have hlent := h.tidy.sound.lent_of_allocate hallocate
  have hold := fun other hother => (h.lent other hother).allocate hallocate
  have hserved : client.allocate size = .ok ⟨arena, client.regions.push region⟩ := by
    rw [Client.allocate, hallocate]
    rfl
  obtain ⟨hsize, hblocks⟩ := blockSizes_of_allocate hallocate
  refine ⟨_, region, hserved, rfl, ⟨htidy, ?_, ?_, ?_⟩, hlength, ?_, ?_, hsize, hblocks⟩
  · rw [Array.toList_push]
    exact List.forall_mem_append.mpr
      ⟨fun other hother => (hold other hother).1, List.forall_mem_singleton.mpr hlent⟩
  · rw [Array.toList_push]
    refine List.pairwise_append.mpr ⟨h.apart, List.pairwise_singleton _ _, ?_⟩
    intro other hother region' hregion'
    rw [List.mem_singleton.mp hregion']
    exact (hold other hother).2.1
  · intro index chunk hchunk
    rw [Array.toList_push, List.filter_append, hsize]
    rcases h.tidy.blocks_of_allocate hallocate hchunk with
      ⟨hbefore, hcarved⟩ | ⟨rfl, husual | rfl⟩
    · by_cases hsame : region.block = index
      · exact Or.inl (hcarved hsame)
      · rw [List.filter_singleton, decide_eq_false hsame]
        simpa using h.blocks index chunk hbefore
    · exact Or.inl husual
    · right
      have hnone : client.regions.toList.filter
          (fun other => other.block = client.arena.blocks.size) = [] := by
        refine List.filter_eq_nil_iff.mpr ?_
        intro other hother hsame
        exact absurd (of_decide_eq_true hsame)
          (Nat.ne_of_lt (h.lent other hother).contains.block_lt)
      rw [hnone]
      simp
  · rw [hclear.read_eq hlent.contains, hlength]
  · intro other hother
    exact (hold other hother).2.2

/-- What a client finds in its regions after a request, and which blocks the arena has then. -/
theorem contents_allocate
    (h : client.Orderly) (hpos : 0 < size) :
    ∃ next, client.allocate size = .ok next ∧
      next.contents client.regions.size = List.replicate size 0 ∧
      (∀ other < client.regions.size, next.contents other = client.contents other) ∧
      (next.arena.blockSizes = client.arena.blockSizes ∨
        next.arena.blockSizes = client.arena.blockSizes ++ [size] ∨
        next.arena.blockSizes = client.arena.blockSizes ++ [client.arena.blockSize]) := by
  obtain ⟨next, region, hserved, hregions, -, -, hzeros, hothers, -, hblocks⟩ := h.allocate hpos
  refine ⟨next, hserved, ?_, ?_, hblocks⟩
  · rw [contents, hregions, Array.getElem?_push_size]
    exact hzeros
  · intro other hother
    have hsame : next.regions[other]? = some client.regions[other] := by
      rw [hregions, Array.getElem?_push, if_neg (Nat.ne_of_lt hother)]
      exact Array.getElem?_eq_getElem hother
    rw [contents, contents, hsame, Array.getElem?_eq_getElem hother]
    exact hothers _ (Array.mem_toList_iff.mpr (Array.getElem_mem hother))

/-- A write leaves a client as orderly as it was. -/
theorem write
    (h : client.Orderly) (index : Nat) (bytes : Bytes) :
    (client.write index bytes).Orderly := by
  rw [Client.write]
  cases hregion : client.regions[index]? with
  | none => exact h
  | some region =>
    have hmem : region ∈ client.regions.toList :=
      Array.mem_toList_iff.mpr (Array.mem_of_getElem? hregion)
    refine ⟨h.tidy.write (h.lent region hmem) bytes, ?_, h.apart, ?_⟩
    · intro other hother
      exact (h.lent other hother).write region bytes
    · intro number chunk hchunk
      obtain ⟨old, hold, hsize⟩ := exists_block_of_write hchunk
      rw [hsize]
      exact h.blocks number old hold

theorem apart_of_ne
    (h : client.Orderly) {first second : Nat} {region other : Region} (hne : first ≠ second)
    (hfirst : client.regions[first]? = some region)
    (hsecond : client.regions[second]? = some other) :
    region.Apart other := by
  obtain ⟨hinside, rfl⟩ := Array.getElem?_eq_some_iff.mp hfirst
  obtain ⟨hinside', rfl⟩ := Array.getElem?_eq_some_iff.mp hsecond
  have hpairs := List.pairwise_iff_getElem.mp h.apart
  rcases Nat.lt_or_gt_of_ne hne with hless | hless
  · exact hpairs first second hinside hinside' hless
  · exact (hpairs second first hinside' hinside hless).symm

theorem contents_write
    (h : client.Orderly) (index : Nat) (bytes : Bytes) :
    (client.write index bytes).contents index =
      bytes.take (client.contents index).length ++
        (client.contents index).drop bytes.length := by
  cases hregion : client.regions[index]? with
  | none => simp [Client.write, contents, hregion]
  | some region =>
    have hmem : region ∈ client.regions.toList :=
      Array.mem_toList_iff.mpr (Array.mem_of_getElem? hregion)
    have hcontains := (h.lent region hmem).contains
    simp only [Client.write, contents, hregion, hcontains.length_read]
    rw [← write_take, read_write_front hcontains (List.length_take_le _ _), List.length_take,
      List.append_cancel_left_eq]
    rcases Nat.le_total bytes.length region.length with hfits | hlong
    · rw [Nat.min_eq_right hfits]
    · rw [Nat.min_eq_left hlong, List.drop_of_length_le (Nat.le_of_eq hcontains.length_read),
        List.drop_of_length_le (by rwa [hcontains.length_read])]

theorem contents_write_of_ne
    (h : client.Orderly) {index other : Nat} (hne : other ≠ index) (bytes : Bytes) :
    (client.write index bytes).contents other = client.contents other := by
  cases hregion : client.regions[index]? with
  | none => simp [Client.write, contents, hregion]
  | some region =>
    simp only [Client.write, contents, hregion]
    cases hother : client.regions[other]? with
    | none => rfl
    | some region' =>
      have hmem : region ∈ client.regions.toList :=
        Array.mem_toList_iff.mpr (Array.mem_of_getElem? hregion)
      rw [← write_take]
      exact read_write_of_apart (h.lent region hmem).contains (List.length_take_le _ _)
        (h.apart_of_ne hne hother hregion)

/-- Requests that do not ask for empty regions are all served. -/
theorem serveAll
    (h : client.Orderly) (requests : List Request)
    (hrequests : ∀ size ∈ requests.filterMap Request.size?, 0 < size) :
    ∃ next, client.serveAll requests = .ok next ∧ next.Orderly ∧
      next.arena.blockSize = client.arena.blockSize ∧
      next.regions.toList.map Region.length =
        client.regions.toList.map Region.length ++ requests.filterMap Request.size? := by
  induction requests generalizing client with
  | nil => exact ⟨client, rfl, h, rfl, by simp⟩
  | cons request requests ih =>
    cases request with
    | allocate size =>
      have hasked : (Request.allocate size).size? = some size := rfl
      rw [List.filterMap_cons_some hasked] at hrequests
      obtain ⟨hpos, hothers⟩ := List.forall_mem_cons.mp hrequests
      obtain ⟨next, region, hserved, hregions, hnext, hlength, -, -, hsize, -⟩ := h.allocate hpos
      obtain ⟨final, hfinal, horderly, hfinalSize, hlengths⟩ := ih hnext hothers
      refine ⟨final, ?_, horderly, hfinalSize.trans hsize, ?_⟩
      · rw [Client.serveAll, List.foldlM_cons, serve, hserved]
        exact hfinal
      · rw [hlengths, hregions, Array.toList_push, List.map_append, List.append_assoc,
          List.filterMap_cons_some hasked, List.map_singleton, hlength]
        rfl
    | write index bytes =>
      rw [List.filterMap_cons_none (show (Request.write index bytes).size? = none from rfl)]
        at hrequests
      obtain ⟨final, hfinal, horderly, hfinalSize, hlengths⟩ := ih (h.write index bytes) hrequests
      have hkept : (client.write index bytes).regions = client.regions ∧
          (client.write index bytes).arena.blockSize = client.arena.blockSize := by
        rw [Client.write]
        split <;> exact ⟨rfl, rfl⟩
      refine ⟨final, hfinal, horderly, hfinalSize.trans hkept.2, ?_⟩
      rw [hlengths, hkept.1, List.filterMap_cons_none rfl]

end Orderly

/-- With blocks of any size, requests that do not ask for empty regions are all served, whatever is
written into the regions between them.  At all times the regions have the sizes that were asked
for, no two of them have a byte in common, and each lies inside its block; the size of all blocks
is counted, and a block of another size than usual is all of one region.  One more request is
served by a region of zeros and leaves the others alone, and a write into one region goes over its
front and leaves the others alone. -/
theorem regions_do_not_overlap
    (blockSize : Nat) (hpos : 0 < blockSize) (requests : List Request)
    (hrequests : ∀ size ∈ requests.filterMap Request.size?, 0 < size) :
    ∃ client, (ofArena (ofBlockSize blockSize hpos)).serveAll requests = .ok client ∧
      client.regions.toList.map Region.length = requests.filterMap Request.size? ∧
      client.regions.toList.Pairwise Region.Apart ∧
      (∀ region ∈ client.regions.toList, ∃ chunk,
        client.arena.blocks[region.block]? = some chunk ∧ region.stop ≤ chunk.size) ∧
      client.arena.memoryUsage = client.arena.blockSizes.sum ∧
      client.arena.blockCount = client.arena.blockSizes.length ∧
      (∀ index chunk, client.arena.blocks[index]? = some chunk →
        chunk.size = blockSize ∨
          client.regions.toList.filter (fun region => region.block = index) =
            [⟨index, 0, chunk.size⟩]) ∧
      (∀ size, 0 < size → ∃ next, client.serve (.allocate size) = .ok next ∧
        next.contents client.regions.size = List.replicate size 0 ∧
        (∀ other < client.regions.size, next.contents other = client.contents other) ∧
        (next.arena.blockSizes = client.arena.blockSizes ∨
          next.arena.blockSizes = client.arena.blockSizes ++ [size] ∨
          next.arena.blockSizes = client.arena.blockSizes ++ [blockSize])) ∧
      ∀ index bytes, ∃ next, client.serve (.write index bytes) = .ok next ∧
        next.contents index = bytes.take (client.contents index).length ++
          (client.contents index).drop bytes.length ∧
        ∀ other, other ≠ index → next.contents other = client.contents other := by
  have hstart : (ofArena (ofBlockSize blockSize hpos)).Orderly :=
    orderly_ofArena (tidy_ofBlockSize blockSize hpos) rfl
  obtain ⟨client, hserved, horderly, hsize, hlengths⟩ := hstart.serveAll requests hrequests
  have husual : client.arena.blockSize = blockSize := hsize
  refine ⟨client, hserved, hlengths, horderly.apart, ?_, horderly.tidy.memoryUsage_eq,
    horderly.tidy.blockCount_eq, ?_, ?_, ?_⟩
  · intro region hregion
    exact (horderly.lent region hregion).contains
  · rw [← husual]
    exact horderly.blocks
  · intro size hsize
    obtain ⟨next, hnext, hzeros, hothers, hblocks⟩ := horderly.contents_allocate hsize
    exact ⟨next, hnext, hzeros, hothers, husual ▸ hblocks⟩
  · intro index bytes
    exact ⟨_, rfl, horderly.contents_write index bytes,
      fun other hne => horderly.contents_write_of_ne hne bytes⟩

/-- Regions from the tail of a block, from a block of their own and from a new block whose
predecessor is given up with one byte left. -/
theorem regions_do_not_overlap_mixedSizes :
    ∃ client, (ofArena (ofBlockSize 16 (by decide))).serveAll
        [.allocate 3, .allocate 10, .write 1 (List.replicate 10 7), .allocate 5,
          .write 0 [1, 2, 3], .allocate 2, .write 2 [9, 9, 9, 9, 9, 9], .allocate 4] =
          .ok client ∧
      client.regions.toList.map Region.length = [3, 10, 5, 2, 4] ∧
      client.regions.toList.Pairwise Region.Apart ∧
      client.arena.blockSizes = [16, 5, 16] ∧ client.arena.memoryUsage = 37 ∧
      (client.write 3 [8, 8, 8]).contents 1 = List.replicate 10 7 ∧
      (client.write 3 [8, 8, 8]).contents 3 = [8, 8] := by
  obtain ⟨client, hserved, hlengths, hapart, -, husage, -, -, -, hwrites⟩ :=
    regions_do_not_overlap 16 (by decide)
      [.allocate 3, .allocate 10, .write 1 (List.replicate 10 7), .allocate 5,
        .write 0 [1, 2, 3], .allocate 2, .write 2 [9, 9, 9, 9, 9, 9], .allocate 4]
      (by decide)
  have hrun : (do
      let client ← (ofArena (ofBlockSize 16 (by decide))).serveAll
        [.allocate 3, .allocate 10, .write 1 (List.replicate 10 7), .allocate 5,
          .write 0 [1, 2, 3], .allocate 2, .write 2 [9, 9, 9, 9, 9, 9], .allocate 4]
      return (client.arena.blockSizes, client.contents 1, client.contents 3)) =
        Except.ok ([16, 5, 16], List.replicate 10 7, [0, 0]) := by
    cbv
  rw [hserved] at hrun
  obtain ⟨hblocks, hbehind, hlast⟩ :
      client.arena.blockSizes = [16, 5, 16] ∧ client.contents 1 = List.replicate 10 7 ∧
        client.contents 3 = [0, 0] := by
    simpa [bind, Except.bind, pure, Except.pure] using hrun
  obtain ⟨next, hnext, hwritten, hothers⟩ := hwrites 3 [8, 8, 8]
  cases hnext
  refine ⟨client, hserved, hlengths, hapart, hblocks, ?_, ?_, ?_⟩
  · rw [husage, hblocks]
    rfl
  · rw [hothers 1 (by decide), hbehind]
  · rw [hwritten, hlast]
    rfl

end Client

end LsmStore.Arena
