import Mathlib.Algebra.Ring.Int.Defs
import Mathlib.Tactic.Zify
import LsmStore.Proofs.Arena.Clients

/-!
# What an arena wastes

Bytes are wasted when what is left of the current block is given up for a new block.  An arena
does that only for a request that does not fit what is left and is for at most a quarter of
a block, so less than a quarter of a block is given up with each current block but the last.
That bounds what an arena obtains by what it hands out.
-/

namespace LsmStore.Arena

/-! ## The balance of an arena -/

/-- Where the memory of an arena has gone that has handed out `requested` bytes and has had
`renewals` current blocks. -/
structure Balanced (arena : Arena) (requested renewals : Nat) : Prop where
  /-- What is neither handed out nor unused was given up, each time less than a quarter. -/
  exists_abandoned : ∃ abandoned,
    arena.memoryUsage = requested + arena.spare.length + abandoned ∧
      abandoned ≤ (renewals - 1) * (arena.blockSize / 4 - 1)
  renewals_mul_le : renewals * arena.blockSize ≤ arena.memoryUsage
  spare_le : arena.spare.length ≤ arena.blockSize
  spare_eq_zero : renewals = 0 → arena.spare.length = 0
  quarter_pos : 0 < renewals → 0 < arena.blockSize / 4

theorem balanced_ofBlockSize
    (blockSize : Nat) (hpos : 0 < blockSize) :
    (ofBlockSize blockSize hpos).Balanced 0 0 where
  exists_abandoned := ⟨0, rfl, Nat.zero_le _⟩
  renewals_mul_le := Nat.le_of_eq (Nat.zero_mul blockSize)
  spare_le := Nat.zero_le blockSize
  spare_eq_zero := fun _ => rfl
  quarter_pos := fun hsome => absurd hsome (Nat.lt_irrefl 0)

namespace Balanced

variable {arena next : Arena} {region : Region} {size requested renewals : Nat}

/-- A write moves no memory. -/
theorem write
    (h : arena.Balanced requested renewals) (region : Region) (bytes : Bytes) :
    (arena.write region bytes).Balanced requested renewals :=
  ⟨h.exists_abandoned, h.renewals_mul_le, h.spare_le, h.spare_eq_zero, h.quarter_pos⟩

theorem carve
    (h : arena.Balanced requested renewals) (hfits : size ≤ arena.spare.length) :
    (arena.carve size).2.Balanced (requested + size) renewals := by
  obtain ⟨abandoned, husage, habandoned⟩ := h.exists_abandoned
  refine ⟨⟨abandoned, ?_, habandoned⟩, h.renewals_mul_le, ?_, ?_, h.quarter_pos⟩
  · show arena.memoryUsage = requested + size + (arena.spare.length - size) + abandoned
    omega
  · exact Nat.le_trans (Nat.sub_le _ _) h.spare_le
  · intro hnone
    show arena.spare.length - size = 0
    rw [h.spare_eq_zero hnone, Nat.zero_sub]

theorem addBlock
    (h : arena.Balanced requested renewals) (size : Nat) :
    (arena.addBlock size).2.Balanced (requested + size) renewals := by
  obtain ⟨abandoned, husage, habandoned⟩ := h.exists_abandoned
  refine ⟨⟨abandoned, ?_, habandoned⟩, Nat.le_add_right_of_le h.renewals_mul_le, h.spare_le,
    h.spare_eq_zero, h.quarter_pos⟩
  show arena.memoryUsage + size = requested + size + arena.spare.length + abandoned
  omega

/-- A new current block: what is left of the last one, if there is one, is given up. -/
theorem renew
    (h : arena.Balanced requested renewals) (hshort : arena.spare.length < arena.blockSize / 4) :
    ((arena.addBlock arena.blockSize).2.withSpare (arena.addBlock arena.blockSize).1).Balanced
      requested (renewals + 1) := by
  obtain ⟨abandoned, husage, habandoned⟩ := h.exists_abandoned
  refine ⟨⟨abandoned + arena.spare.length, ?_, ?_⟩, ?_, Nat.le_refl _, ?_,
    fun _ => Nat.zero_lt_of_lt hshort⟩
  · show arena.memoryUsage + arena.blockSize =
      requested + arena.blockSize + (abandoned + arena.spare.length)
    omega
  · show abandoned + arena.spare.length ≤ renewals * (arena.blockSize / 4 - 1)
    cases renewals with
    | zero =>
      rw [Nat.zero_sub, Nat.zero_mul] at habandoned
      rw [h.spare_eq_zero rfl, Nat.zero_mul]
      exact habandoned
    | succ earlier =>
      rw [Nat.add_sub_cancel] at habandoned
      rw [Nat.succ_mul]
      exact Nat.add_le_add habandoned (Nat.le_sub_one_of_lt hshort)
  · show (renewals + 1) * arena.blockSize ≤ arena.memoryUsage + arena.blockSize
    rw [Nat.succ_mul]
    exact Nat.add_le_add_right h.renewals_mul_le _
  · intro hnone
    cases hnone

theorem allocate
    (h : arena.Balanced requested renewals) (hallocate : arena.allocate size = .ok (region, next)) :
    next.Balanced (requested + size)
      (renewals + if arena.service size = .renewed then 1 else 0) := by
  obtain ⟨-, ⟨hfits, hcarve⟩ | ⟨hshort, hlarge, hblock⟩ | ⟨hshort, hquarter, hcarve⟩⟩ :=
    allocate_cases hallocate
  · cases hcarve
    rw [service, if_pos hfits]
    exact h.carve hfits
  · cases hblock
    rw [service, if_neg (Nat.not_le.mpr hshort), if_pos hlarge]
    exact h.addBlock size
  · cases hcarve
    rw [service, if_neg (Nat.not_le.mpr hshort), if_neg (Nat.not_lt.mpr hquarter)]
    exact (h.renew (Nat.lt_of_lt_of_le hshort hquarter)).carve
      (Nat.le_trans hquarter (Nat.div_le_self _ _))

end Balanced

/-- Bounds for the memory that was obtained for regions of `requested` bytes in all, if `unused`
bytes are left of the last of `renewals` current blocks. -/
structure WasteBounded (blockSize usage requested unused renewals : Nat) : Prop where
  accounted : requested + unused ≤ usage
  abandoned_le : 1 ≤ renewals →
    (usage : ℤ) - requested - unused ≤ (renewals - 1) * (blockSize / 4 - 1)
  abandoned_eq : renewals = 0 → (usage : ℤ) - requested - unused = 0
  requested_le : requested ≤ usage
  usage_le : 3 * ((usage : ℤ) - blockSize) ≤ 4 * requested

theorem Balanced.wasteBounded
    {arena : Arena} {requested renewals : Nat} (h : arena.Balanced requested renewals) :
    WasteBounded arena.blockSize arena.memoryUsage requested arena.spare.length renewals := by
  obtain ⟨abandoned, husage, habandoned⟩ := h.exists_abandoned
  have hspare := h.spare_le
  cases renewals with
  | zero =>
    rw [Nat.zero_sub, Nat.zero_mul] at habandoned
    refine ⟨?_, ?_, ?_, ?_, ?_⟩ <;> omega
  | succ earlier =>
    have hquarter := h.quarter_pos (Nat.succ_pos earlier)
    have hblocks := h.renewals_mul_le
    rw [Nat.add_sub_cancel] at habandoned
    rw [Nat.succ_mul] at hblocks
    -- Four times what was given up is no more than the blocks that it was given up with.
    have hquarters : 4 * abandoned ≤ earlier * arena.blockSize :=
      calc
        4 * abandoned ≤ 4 * (earlier * (arena.blockSize / 4 - 1)) :=
          Nat.mul_le_mul_left 4 habandoned
        _ = earlier * (4 * (arena.blockSize / 4 - 1)) := Nat.mul_left_comm ..
        _ ≤ earlier * arena.blockSize := Nat.mul_le_mul_left earlier (by omega)
    have hbound : (abandoned : ℤ) ≤ earlier * ((arena.blockSize : ℤ) / 4 - 1) := by
      zify [hquarter] at habandoned
      exact habandoned
    refine ⟨?_, ?_, ?_, ?_, ?_⟩
    · omega
    · intro _
      push_cast
      rw [add_sub_cancel_right]
      omega
    · intro hnone
      cases hnone
    · omega
    · omega

/-! ## Runs -/

/-- The sizes of the blocks that are obtained for a request, by the way in which it is served. -/
def Service.obtains (blockSize size : Nat) : Service → List Nat
  | carved => []
  | dedicated => [size]
  | renewed => [blockSize]

theorem blockSizes_of_service
    {arena next : Arena} {region : Region} {size : Nat}
    (hallocate : arena.allocate size = .ok (region, next)) :
    next.blockSize = arena.blockSize ∧
      next.blockSizes =
        arena.blockSizes ++ (arena.service size).obtains arena.blockSize size := by
  obtain ⟨-, ⟨hfits, hcarve⟩ | ⟨hshort, hlarge, hblock⟩ | ⟨hshort, hquarter, hcarve⟩⟩ :=
    allocate_cases hallocate
  · cases hcarve
    rw [service, if_pos hfits]
    exact ⟨rfl, (List.append_nil _).symm⟩
  · cases hblock
    rw [service, if_neg (Nat.not_le.mpr hshort), if_pos hlarge]
    exact ⟨rfl, blockSizes_addBlock arena size⟩
  · cases hcarve
    rw [service, if_neg (Nat.not_le.mpr hshort), if_neg (Nat.not_lt.mpr hquarter)]
    exact ⟨rfl, blockSizes_addBlock arena arena.blockSize⟩

namespace Client

/-- The sizes that a client asks for, each with the way in which the request is served. -/
def log (client : Client) : List Request → List (Nat × Service)
  | [] => []
  | .allocate size :: requests =>
    (size, client.arena.service size) ::
      match client.allocate size with
      | .ok next => next.log requests
      | .error _ => []
  | .write index bytes :: requests => (client.write index bytes).log requests

/-- How many current blocks are obtained for the requests of a client. -/
def renewals (client : Client) (requests : List Request) : Nat :=
  (client.log requests).countP fun served => served.2 = .renewed

variable {client next final : Client} {size index : Nat} {requests : List Request}

theorem exists_of_allocate
    (hserved : client.allocate size = .ok next) :
    ∃ region arena, client.arena.allocate size = .ok (region, arena) ∧
      next = ⟨arena, client.regions.push region⟩ := by
  rw [Client.allocate] at hserved
  cases hallocate : client.arena.allocate size with
  | error fault => simp [hallocate, bind, Except.bind] at hserved
  | ok served =>
    obtain ⟨region, arena⟩ := served
    simp only [hallocate, bind, Except.bind, pure, Except.pure, Except.ok.injEq] at hserved
    exact ⟨region, arena, rfl, hserved.symm⟩

theorem exists_of_serveAll_cons
    {request : Request} (hserved : client.serveAll (request :: requests) = .ok final) :
    ∃ next, client.serve request = .ok next ∧ next.serveAll requests = .ok final := by
  rw [serveAll, List.foldlM_cons] at hserved
  cases hnext : client.serve request with
  | error fault => simp [hnext, bind, Except.bind] at hserved
  | ok next =>
    rw [hnext] at hserved
    exact ⟨next, rfl, hserved⟩

theorem arena_write_cases
    (client : Client) (index : Nat) (bytes : Bytes) :
    (client.write index bytes).arena = client.arena ∨
      ∃ region, (client.write index bytes).arena = client.arena.write region bytes := by
  rw [Client.write]
  split
  · exact Or.inr ⟨_, rfl⟩
  · exact Or.inl rfl

theorem balanced_serveAll
    {handedOut before : Nat} (h : client.arena.Balanced handedOut before)
    (hserved : client.serveAll requests = .ok final) :
    final.arena.Balanced (handedOut + (requests.filterMap Request.size?).sum)
      (before + client.renewals requests) := by
  induction requests generalizing client handedOut before with
  | nil =>
    cases hserved
    exact h
  | cons request requests ih =>
    obtain ⟨next, hnext, hrest⟩ := exists_of_serveAll_cons hserved
    cases request with
    | allocate size =>
      have hserve : client.allocate size = .ok next := hnext
      obtain ⟨region, arena, hallocate, rfl⟩ := exists_of_allocate hserve
      have hlast := ih (h.allocate hallocate) hrest
      simp only [renewals, log, hserve, List.filterMap_cons, Request.size?,
        List.sum_cons, List.countP_cons] at hlast ⊢
      simpa [Nat.add_assoc, Nat.add_comm, Nat.add_left_comm] using hlast
    | write index bytes =>
      cases hnext
      have hwritten : (client.write index bytes).arena.Balanced handedOut before := by
        rcases client.arena_write_cases index bytes with hsame | ⟨region, hchanged⟩
        · rwa [hsame]
        · rw [hchanged]
          exact h.write region bytes
      exact ih hwritten hrest

theorem blockSizes_serveAll
    (hserved : client.serveAll requests = .ok final) :
    final.arena.blockSize = client.arena.blockSize ∧
      final.arena.blockSizes = client.arena.blockSizes ++
        (client.log requests).flatMap fun served =>
          served.2.obtains client.arena.blockSize served.1 := by
  induction requests generalizing client with
  | nil =>
    cases hserved
    exact ⟨rfl, (List.append_nil _).symm⟩
  | cons request requests ih =>
    obtain ⟨next, hnext, hrest⟩ := exists_of_serveAll_cons hserved
    obtain ⟨hsize, hblocks⟩ := ih hrest
    cases request with
    | allocate size =>
      have hserve : client.allocate size = .ok next := hnext
      obtain ⟨region, arena, hallocate, rfl⟩ := exists_of_allocate hserve
      obtain ⟨hsame, hobtained⟩ := blockSizes_of_service hallocate
      refine ⟨hsize.trans hsame, ?_⟩
      rw [hblocks, hobtained, hsame, List.append_assoc]
      simp only [log, hserve, List.flatMap_cons]
    | write index bytes =>
      cases hnext
      have hkept : (client.write index bytes).arena.blockSize = client.arena.blockSize ∧
          (client.write index bytes).arena.blockSizes = client.arena.blockSizes := by
        rcases client.arena_write_cases index bytes with hsame | ⟨region, hchanged⟩
        · rw [hsame]
          exact ⟨rfl, rfl⟩
        · rw [hchanged]
          exact ⟨rfl, blockSizes_write client.arena region bytes⟩
      refine ⟨hsize.trans hkept.1, ?_⟩
      rw [hblocks, hkept.1, hkept.2]
      rfl

/-- The requests of a client that starts with a new arena are all served, the arena has obtained
the blocks that its log tells of, and its waste is bounded. -/
theorem exists_wasteBounded
    (blockSize : Nat) (hpos : 0 < blockSize) (requests : List Request)
    (hrequests : ∀ size ∈ requests.filterMap Request.size?, 0 < size) :
    let start := ofArena (ofBlockSize blockSize hpos)
    ∃ client, start.serveAll requests = .ok client ∧
      client.arena.blockSizes = ((start.log requests).flatMap fun served =>
        served.2.obtains blockSize served.1) ∧
      WasteBounded blockSize client.arena.memoryUsage (requests.filterMap Request.size?).sum
        client.arena.spare.length (start.renewals requests) := by
  intro start
  have hstart : start.Orderly := orderly_ofArena (tidy_ofBlockSize blockSize hpos) rfl
  obtain ⟨client, hserved, -, hsize, -⟩ := hstart.serveAll requests hrequests
  have hblocks := (blockSizes_serveAll hserved).2
  have hbalanced := balanced_serveAll (balanced_ofBlockSize blockSize hpos) hserved
  rw [Nat.zero_add, Nat.zero_add] at hbalanced
  have hbounded := hbalanced.wasteBounded
  rw [hsize] at hbounded
  exact ⟨client, hserved, hblocks, hbounded⟩

end Client

end LsmStore.Arena
