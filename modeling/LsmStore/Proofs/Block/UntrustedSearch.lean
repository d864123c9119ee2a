import LsmStore.Proofs.Block.Grammar
import LsmStore.Proofs.Block.LinearScan

/-!
# Searching bytes that nobody vouches for

A block can be opened without a single readable entry in it, its restart points can lead
anywhere, and the order of its keys need not be one.  A search then finds what happens to
be there, but it tells how it came there: the entry that it stops at is reached from a
restart point over lesser entries only.  It says that there is no such entry only if it
came over lesser entries to the very end of the region.  Whatever else it meets is damage,
and that is told.
-/

namespace LsmStore.Block

variable {block : Block} {target : Bytes} {index offset : Nat}

/-! ## Chains from a restart point -/

/-- The frontier at an offset with no key before it. -/
def frontierAt (block : Block) (offset : Nat) : Frontier :=
  ⟨offset, [], block.entries.bytes.drop offset⟩

/-- A chain from a restart point at which a search for a target may start: the chain begins with a
whole key, and unless the restart point is the first one, that key is not greater than the
target. -/
structure ChainFrom
    (block : Block) (target : Bytes) (index : Nat) (links : List Link) (last : Frontier) :
    Prop where
  chain : ∃ offset, block.restartPoint index = .ok offset ∧
    Chain (block.frontierAt offset) links last
  starts_whole : ∃ key, block.keyAtRestart index = .ok (.ok key) ∧
    links.head?.map (fun link => link.visit.key) = some key ∧
    (index = 0 ∨ block.order.compare key target ≠ .gt)

theorem restartPoint_eq
    (inside : index < block.restarts.size) :
    block.restartPoint index = .ok block.restarts[index] := by
  rw [restartPoint, Array.getElem?_eq_getElem inside]

theorem keyAtRestart_eq
    (inside : index < block.restarts.size) :
    block.keyAtRestart index = .ok (block.fullKeyAt index block.restarts[index]) := by
  rw [keyAtRestart, restartPoint_eq inside]
  rfl

theorem dropTo_eq_region
    (block : Block) (offset : Nat) :
    block.entries.dropTo offset = (block.frontierAt offset).region :=
  block.entries.dropTo_eq offset

theorem frontierAt_region_ne_nil
    (hinside : offset < block.entries.size) :
    (block.frontierAt offset).region ≠ [] := by
  rw [← dropTo_eq_region, ← List.length_pos_iff, EntryRegion.length_dropTo]
  exact Nat.sub_pos_of_lt hinside

theorem exists_chain_of_walkAt
    (block : Block) (offset : Nat) :
    ∃ links last damage?, Chain (block.frontierAt offset) links last ∧ last.Closed ∧
      block.walkAt offset [] = ⟨links.map Link.visit, damage?⟩ ∧
      (damage? = none ↔ last.region = []) := by
  obtain ⟨links, last, hchain, hclosed, hvisits, hdamage⟩ :=
    Walk.exists_chain (block.frontierAt offset)
  refine ⟨links, last, _, hchain, hclosed, ?_, hdamage⟩
  rw [walkAt, dropTo_eq_region, ← hvisits]
  rfl

/-- The first link of a chain from an offset stores its whole key, as no key is before it. -/
theorem Chain.fullKeyAt_eq
    {link : Link} {links : List Link} {last : Frontier}
    (h : Chain (block.frontierAt offset) (link :: links) last) (index : Nat) :
    block.fullKeyAt index offset = .ok link.visit.key := by
  cases h with
  | cons hjoins hchain =>
    obtain ⟨found, hread, hshared, -, hvisit, -⟩ := hjoins.exists_read
    have hfull : found.isFull = true := Entry.Found.isFull_iff.mpr (Nat.le_zero.mp hshared)
    rw [← dropTo_eq_region] at hread
    rw [hvisit]
    exact fullKeyAt_eq_ok_iff.mpr ⟨found, hread, hfull, Entry.Found.keyAfter_of_isFull hfull _⟩

theorem Frontier.Closed.exists_fullKeyAt_eq_error
    (h : (block.frontierAt offset).Closed) (index : Nat) :
    ∃ cause, block.fullKeyAt index offset = .error cause := by
  cases hkey : block.fullKeyAt index offset with
  | error cause => exact ⟨cause, rfl⟩
  | ok key =>
    obtain ⟨found, hread, hfull, -⟩ := fullKeyAt_eq_ok_iff.mp hkey
    rw [dropTo_eq_region] at hread
    have hshared : found.shared ≤ (block.frontierAt offset).previous.length :=
      Nat.le_of_eq (Entry.Found.isFull_iff.mp hfull)
    obtain ⟨bytes, hjoins⟩ := exists_joins_of_read hread hshared
    exact absurd hjoins (h _ _)

theorem ChainFrom.of_restart
    {inside : index < block.restarts.size} {links : List Link} {last : Frontier}
    (hstart : index = 0 ∨ ∃ key, block.fullKeyAt index block.restarts[index] = .ok key ∧
      block.order.compare key target ≠ .gt)
    (hlinks : links ≠ [])
    (hchain : Chain (block.frontierAt block.restarts[index]) links last) :
    block.ChainFrom target index links last := by
  cases links with
  | nil => exact absurd rfl hlinks
  | cons link links =>
    have hwhole := hchain.fullKeyAt_eq index
    refine ⟨⟨_, restartPoint_eq inside, hchain⟩, link.visit.key, ?_, rfl, ?_⟩
    · rw [keyAtRestart_eq inside, hwhole]
    · rcases hstart with hfirst | ⟨key, hkey, hcompare⟩
      · exact Or.inl hfirst
      · obtain rfl := Except.ok.inj (hwhole.symm.trans hkey)
        exact Or.inr hcompare

/-! ## What a search comes to -/

/-- Whether a visit is one at which a search for a target may stop: over entries that are less
than the target, a chain comes to an entry that is not. -/
def MayStopAt (block : Block) (target : Bytes) (visit : Visit) : Prop :=
  ∃ index passed link last, block.ChainFrom target index (passed ++ [link]) last ∧
    (∀ earlier ∈ passed, block.order.compare earlier.visit.key target = .lt) ∧
    block.order.compare link.visit.key target ≠ .lt ∧ link.visit = visit

/-- Whether a search for a target may find nothing: there is nothing to search, or a chain of
entries that are less than the target ends where the entry region does. -/
def MayRunOut (block : Block) (target : Bytes) : Prop :=
  block.restarts.size = 0 ∨ block.entries.size = 0 ∨
    ∃ index links last, block.ChainFrom target index links last ∧
      (∀ link ∈ links, block.order.compare link.visit.key target = .lt) ∧ last.region = []

/-- Whether there is damage that a search for a target may meet: a restart point leads to no whole
key, or nothing continues a chain of entries that are less than the target although it ends before
the entry region does. -/
def MayMeetDamage (block : Block) (target : Bytes) : Prop :=
  (∃ index cause, block.keyAtRestart index = .ok (.error cause)) ∨
    ∃ index links last, block.ChainFrom target index links last ∧
      (∀ link ∈ links, block.order.compare link.visit.key target = .lt) ∧
      last.Closed ∧ last.region ≠ []

theorem MayMeetDamage.of_fullKeyAt
    (inside : index < block.restarts.size) {cause : Corruption}
    (h : block.fullKeyAt index block.restarts[index] = .error cause) :
    block.MayMeetDamage target :=
  Or.inl ⟨index, cause, by rw [keyAtRestart_eq inside, h]⟩

theorem MayMeetDamage.of_closed
    (inside : index < block.restarts.size)
    (h : (block.frontierAt block.restarts[index]).Closed) :
    block.MayMeetDamage target :=
  (h.exists_fullKeyAt_eq_error index).elim fun _ => .of_fullKeyAt inside

/-- The walks before a cursor to which a search for a target may come. -/
inductive MayComeTo (block : Block) (target : Bytes) : Walk → Prop where
  | stop {visit : Visit} {visits : List Visit} {damage? : Option Corruption}
      (hstop : block.MayStopAt target visit) : MayComeTo block target ⟨visit :: visits, damage?⟩
  | runOut (hrunOut : block.MayRunOut target) : MayComeTo block target ⟨[], none⟩
  | damage {cause : Corruption} (hdamage : block.MayMeetDamage target) :
      MayComeTo block target ⟨[], some cause⟩

/-- Links are split behind those of lesser keys where a search splits their visits. -/
theorem exists_passed
    (order : Comparator) (target : Bytes) (links : List Link) :
    ∃ passed rest, links = passed ++ rest ∧
      (∀ link ∈ passed, order.compare link.visit.key target = .lt) ∧
      (∀ link ∈ rest.head?, order.compare link.visit.key target ≠ .lt) ∧
      ((links.map Link.visit).dropWhile fun visit => order.compare visit.key target == .lt) =
        rest.map Link.visit := by
  induction links with
  | nil => exact ⟨[], [], rfl, by simp, by simp, rfl⟩
  | cons link links ih =>
    by_cases hless : order.compare link.visit.key target = .lt
    · obtain ⟨passed, rest, rfl, hpassed, hrest, hdropped⟩ := ih
      refine ⟨link :: passed, rest, rfl, List.forall_mem_cons.mpr ⟨hless, hpassed⟩, hrest, ?_⟩
      rw [List.map_cons, List.dropWhile_cons_of_pos (by simp [hless]), hdropped]
    · refine ⟨[], link :: links, rfl, by simp, ?_, ?_⟩
      · intro first hfirst
        rwa [← Option.some.inj hfirst]
      · rw [List.map_cons, List.dropWhile_cons_of_neg (by simp [hless])]

/-- What the walk from a restart point comes to when its lesser entries are passed. -/
theorem MayComeTo.of_restart
    {inside : index < block.restarts.size}
    (hstart : index = 0 ∨ ∃ key, block.fullKeyAt index block.restarts[index] = .ok key ∧
      block.order.compare key target ≠ .gt)
    (hoffset : block.restarts[index] < block.entries.size) :
    block.MayComeTo target ((block.walkAt block.restarts[index] []).seek block.order target) := by
  obtain ⟨links, last, damage?, hchain, hclosed, hwalk, hdamage⟩ :=
    block.exists_chain_of_walkAt block.restarts[index]
  obtain ⟨passed, rest, rfl, hpassed, hrest, hdropped⟩ := exists_passed block.order target links
  rw [hwalk, Walk.seek, hdropped]
  cases rest with
  | cons link rest =>
    rw [List.append_cons] at hchain
    obtain ⟨middle, hpart, -⟩ := hchain.exists_split
    have hfrom : block.ChainFrom target index (passed ++ [link]) middle :=
      .of_restart hstart (by simp) hpart
    exact .stop ⟨index, passed, link, middle, hfrom, hpassed, hrest link rfl, rfl⟩
  | nil =>
    rw [List.append_nil] at hchain
    by_cases hnone : passed = []
    · -- Nothing can be read at the restart point.
      rw [hnone] at hchain
      cases hchain
      cases damage? with
      | none => exact absurd (hdamage.mp rfl) (frontierAt_region_ne_nil hoffset)
      | some cause => exact .damage (.of_closed inside hclosed)
    · have hfrom : block.ChainFrom target index passed last := .of_restart hstart hnone hchain
      cases damage? with
      | none =>
        exact .runOut (Or.inr (Or.inr ⟨index, passed, last, hfrom, hpassed, hdamage.mp rfl⟩))
      | some cause =>
        have hleft : last.region ≠ [] := fun hend => Option.some_ne_none cause (hdamage.mpr hend)
        exact .damage (Or.inr ⟨index, passed, last, hfrom, hpassed, hclosed, hleft⟩)

/-- What a search comes to, whatever is in the block. -/
theorem mayComeTo_lowerBoundWalk
    (block : Block) (target : Bytes) :
    block.MayComeTo target (block.lowerBoundWalk target) := by
  rw [lowerBoundWalk]
  by_cases husable : 0 < block.restarts.size ∧ 0 < block.entries.size
  · rw [startIndex?_of_usable husable]
    cases hbisect : block.bisect target 0 block.restarts.size husable.1 (Nat.le_refl _) with
    | error cause =>
      obtain ⟨index, inside, herror⟩ := exists_fullKeyAt_eq_error_of_bisect hbisect
      exact .damage (.of_fullKeyAt inside herror)
    | ok index =>
      obtain ⟨index, inside⟩ := index
      simp only
      by_cases hpast : block.entries.size ≤ block.restarts[index]
      · have hnothing : (block.frontierAt block.restarts[index]).region = [] := by
          rw [← dropTo_eq_region, ← List.length_eq_zero_iff, EntryRegion.length_dropTo]
          exact Nat.sub_eq_zero_of_le hpast
        rw [if_pos hpast]
        exact .damage (.of_closed inside (Frontier.closed_of_region_eq_nil hnothing))
      · rw [if_neg hpast]
        exact .of_restart (bisect_eq_ok hbisect).1 (Nat.lt_of_not_le hpast)
  · rw [startIndex?_of_not_usable husable]
    have hunusable : block.restarts.size = 0 ∨ block.entries.size = 0 := by omega
    exact .runOut (hunusable.imp_right Or.inl)

/-- The other search keeps what this one comes to, unless that is an entry whose key is not
equivalent to the target. -/
theorem look_find
    (block : Block) (target : Bytes) :
    let lower := (block.lowerBound target).result
    let found := (block.find target).result
    ((block.look found).isOn = true ↔ (block.look lower).isOn = true ∧
        ∃ keyed, block.key lower = .ok keyed ∧
          block.order.compare keyed.result.1 target = .eq) ∧
      ((block.look found).isOn = true → block.look found = block.look lower) ∧
      (block.look found).damage? = (block.look lower).damage? := by
  intro lower found
  have hlower : lower.Shows block _ := lowerBound_shows block target
  have hfound : found.Shows block _ := find_shows block target
  cases hwalk : block.lowerBoundWalk target with
  | mk visits damage? =>
    rw [hwalk] at hlower hfound
    cases visits with
    | nil =>
      rw [hlower.eq_ended, hfound.eq_ended]
      simp [look, Cursor.isOn]
    | cons visit visits =>
      obtain ⟨hlook, ⟨keyed, hkey, hvisit⟩, -⟩ := hlower.standsAt_of_cons
      simp only [Walk.keepEquivalent] at hfound
      rw [hlook, hkey]
      by_cases hequal : block.order.compare visit.key target = .eq
      · rw [if_pos hequal] at hfound
        rw [hfound.standsAt_of_cons.1]
        simp [hvisit, hequal]
      · rw [if_neg hequal] at hfound
        rw [hfound.eq_ended]
        simp [look, Cursor.isOn, Cursor.damage?, hvisit, hequal]

/-- A search of whatever contents are opened, with whatever order of keys, is sound and hides no
damage.  If it stops at an entry, that is the first one not less than the target on a chain from a
restart point where the search may start.  If it comes to the undamaged end, then there is nothing
to search or such a chain of lesser entries takes up the rest of the entry region.  Otherwise there
is damage, and its cursor is at the end and tells it.  The search for an equivalent key keeps
such an entry if its key is equivalent to the target, and it tells the same damage. -/
theorem searches_hide_no_damage
    {order : Comparator} {contents : Bytes} {block : Block}
    (hopened : ofContents order contents = .ok block) (target : Bytes) :
    let lower := (block.lowerBound target).result
    let found := (block.find target).result
    block.order = order ∧
      ((∃ visit, block.MayStopAt target visit ∧ lower.StandsAt block (some visit)) ∨
        (block.MayRunOut target ∧ lower.StandsAt block none) ∨
        (block.MayMeetDamage target ∧
          ∃ cause, block.look lower = ⟨false, block.entries.size, some cause⟩)) ∧
      ((block.look found).isOn = true ↔ (block.look lower).isOn = true ∧
        ∃ keyed, block.key lower = .ok keyed ∧ order.compare keyed.result.1 target = .eq) ∧
      ((block.look found).isOn = true → block.look found = block.look lower) ∧
      (block.look found).damage? = (block.look lower).damage? := by
  obtain ⟨rfl, -⟩ := parts_of_ofContents hopened
  refine ⟨rfl, ?_, look_find block target⟩
  have hlower := lowerBound_shows block target
  have hcomes := block.mayComeTo_lowerBoundWalk target
  generalize block.lowerBoundWalk target = walk at hlower hcomes
  cases hcomes with
  | @stop visit visits damage? hstop => exact Or.inl ⟨visit, hstop, hlower.standsAt_of_cons⟩
  | runOut hrunOut => exact Or.inr (Or.inl ⟨hrunOut, hlower.standsAt⟩)
  | @damage cause hdamage =>
    refine Or.inr (Or.inr ⟨hdamage, cause, ?_⟩)
    rw [hlower.eq_ended]
    rfl

/-- A comparison that is no order: a key is less than everything but itself. -/
def lessThanOthers : Comparator :=
  ⟨"less than others", fun first second => if first = second then .eq else .lt⟩

/-- The entries `ab` and `ac` and the damage behind them, with a restart point far behind the
entries and one at `ab`.  The search for `ac` comes to it, and the search for `b` to the damage. -/
theorem searches_hide_no_damage_wrappedRegion :
    ∃ block, ofContents lessThanOthers
        (wrappedRegion ++ [200, 0, 0, 0, 0, 0, 0, 0, 2, 0, 0, 0]) = .ok block ∧
      (∃ visit, block.MayStopAt [97, 99] visit ∧ visit.offset = 7) ∧
      block.look (block.find [97, 99]).result = ⟨true, 7, none⟩ ∧
      block.MayMeetDamage [98] ∧
      (block.look (block.find [98]).result).damage? = some (.sharedPastKey 15 3 2) := by
  let block : Block := ⟨.ofBytes wrappedRegion, #[200, 0], lessThanOthers⟩
  have hopened : ofContents lessThanOthers
      (wrappedRegion ++ [200, 0, 0, 0, 0, 0, 0, 0, 2, 0, 0, 0]) = .ok block := rfl
  have hstopped : block.look (block.lowerBound [97, 99]).result = ⟨true, 7, none⟩ := by cbv
  have hdamaged : block.look (block.lowerBound [98]).result =
      ⟨false, 19, some (.sharedPastKey 15 3 2)⟩ := by cbv
  have hfound : (block.look (block.find [97, 99]).result).isOn = true := by cbv
  obtain ⟨-, hcases, -, hkept, -⟩ := searches_hide_no_damage hopened [97, 99]
  obtain ⟨-, hcases', -, -, htold⟩ := searches_hide_no_damage hopened [98]
  refine ⟨block, hopened, ?_, ?_, ?_, ?_⟩
  · rcases hcases with ⟨visit, hstops, hlook, -⟩ | ⟨-, hlook⟩ | ⟨-, cause, hlook⟩
    · rw [hstopped] at hlook
      exact ⟨visit, hstops, (congrArg Look.offset hlook).symm⟩
    · rw [Cursor.StandsAt, hstopped] at hlook
      cases congrArg Look.isOn hlook
    · rw [hstopped] at hlook
      cases congrArg Look.isOn hlook
  · rw [hkept hfound, hstopped]
  · rcases hcases' with ⟨visit, -, hlook, -⟩ | ⟨-, hlook⟩ | ⟨hdamage, -⟩
    · rw [hdamaged] at hlook
      cases congrArg Look.isOn hlook
    · rw [Cursor.StandsAt, hdamaged] at hlook
      cases congrArg Look.damage? hlook
    · exact hdamage
  · rw [htold, hdamaged]

end LsmStore.Block
