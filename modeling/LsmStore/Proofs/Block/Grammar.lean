import LsmStore.Proofs.Block.RoundTrip
import LsmStore.Proofs.Coding.Numerals

/-!
# The grammar of entry regions

A region of entries is a chain of links without gaps.  Each link spells an entry: three
numerals, the key bytes of its own, and the value.  Which entries may follow depends on
the key before, of which no more bytes can be shared than it has.  A chain that cannot
be continued is found in every region, and it is the longest one there.  The walk of a
block makes one visit for each of its links, and it is damaged exactly if the chain
does not take up the whole region.
-/

namespace LsmStore.Block

variable {block : Block} {order : Comparator} {contents : Bytes} {offset : Nat}

/-! ## Entries -/

/-- Whether bytes are an entry: three numerals for its lengths, its key bytes and its value. -/
def Entry.SpelledBy (entry : Entry) (bytes : Bytes) : Prop :=
  ∃ shared deltaLength valueLength : Bytes,
    bytes = shared ++ (deltaLength ++ (valueLength ++ (entry.delta ++ entry.value))) ∧
      Var32.Spells shared entry.shared ∧
      Var32.Spells deltaLength entry.delta.length ∧
      Var32.Spells valueLength entry.value.length

theorem Entry.exists_spelledBy_of_read
    {region : Bytes} {found : Found} (h : read offset region = .ok found) :
    ∃ bytes, region = bytes ++ found.rest ∧ bytes.length = found.size ∧
      found.entry.SpelledBy bytes := by
  obtain ⟨shared, deltaLength, valueLength, afterShared, afterDelta, hshared, hdelta, hvalue,
    hsharedEq, hdeltaEq, hvalueEq, hskip, hsize⟩ := exists_decode_of_read h
  obtain ⟨first, rfl, hfirst⟩ := Var32.decode_eq_ok_iff_spells.mp hshared
  obtain ⟨second, rfl, hsecond⟩ := Var32.decode_eq_ok_iff_spells.mp hdelta
  obtain ⟨third, rfl, hthird⟩ := Var32.decode_eq_ok_iff_spells.mp hvalue
  obtain ⟨own, hpayload, hclaimed⟩ := Bytes.skip?_eq_some_iff.mp hskip
  have hown : found.delta ++ found.value = own := by
    rw [Found.delta, Found.value, ← List.take_add, hpayload, ← hclaimed, List.take_left]
  have hdeltaLength := length_delta_of_read h
  have hvalueLength : found.value.length = found.valueLength := by
    have hlength := congrArg List.length hown
    rw [List.length_append] at hlength
    omega
  refine ⟨first ++ (second ++ (third ++ own)), ?_, ?_, first, second, third, ?_, ?_, ?_, ?_⟩
  · rw [hpayload]
    simp only [List.append_assoc]
  · rw [hsize, Var32.span_append_of_spells hfirst, Var32.span_append_of_spells hsecond,
      Var32.span_append_of_spells hthird, ← hclaimed]
    simp only [List.length_append, Nat.add_assoc]
  · rw [← hown]
    rfl
  · rwa [← hsharedEq] at hfirst
  · rwa [← hdeltaEq, ← hdeltaLength] at hsecond
  · rwa [← hvalueEq, ← hvalueLength] at hthird

theorem Entry.exists_read_of_spelledBy
    {entry : Entry} {bytes : Bytes} (h : entry.SpelledBy bytes) (offset : Nat) (rest : Bytes) :
    ∃ found, read offset (bytes ++ rest) = .ok found ∧ found.entry = entry ∧
      found.rest = rest ∧ found.size = bytes.length := by
  obtain ⟨shared, deltaLength, valueLength, rfl, hshared, hdelta, hvalue⟩ := h
  have hfirst := hshared.decode_append
    (deltaLength ++ (valueLength ++ (entry.delta ++ (entry.value ++ rest))))
  have hsecond := hdelta.decode_append (valueLength ++ (entry.delta ++ (entry.value ++ rest)))
  have hthird := hvalue.decode_append (entry.delta ++ (entry.value ++ rest))
  have hskip : Bytes.skip? (entry.delta.length + entry.value.length)
      (entry.delta ++ (entry.value ++ rest)) = some rest :=
    Bytes.skip?_eq_some_iff.mpr ⟨entry.delta ++ entry.value, by simp, by simp⟩
  have hread : read offset (shared ++ (deltaLength ++ (valueLength ++
      (entry.delta ++ entry.value))) ++ rest) =
      .ok ⟨entry.shared, entry.delta.length, entry.value.length,
        entry.delta ++ (entry.value ++ rest),
        shared.length + deltaLength.length + valueLength.length +
          (entry.delta.length + entry.value.length), rest⟩ := by
    simp only [List.append_assoc]
    rw [read_eq, hfirst]
    simp only [hsecond, hthird, hshared.toNat_ofNat, hdelta.toNat_ofNat, hvalue.toNat_ofNat, hskip,
      Var32.span_append_of_spells hshared, Var32.span_append_of_spells hdelta,
      Var32.span_append_of_spells hvalue]
  refine ⟨_, hread, ?_, rfl, ?_⟩
  · simp [Found.entry, Found.delta, Found.value]
  · simp only [List.length_append]
    omega

/-! ## Chains -/

/-- How far a chain has come: an offset, the key before it, and what follows it. -/
structure Frontier where
  offset : Nat
  previous : Bytes
  region : Bytes

/-- The bytes of an entry, and the visit that it gives behind the key before it. -/
structure Link where
  bytes : Bytes
  visit : Visit

/-- Whether a link continues a chain from one frontier to the next. -/
def Link.Joins (link : Link) (front next : Frontier) : Prop :=
  ∃ (entry : Entry) (rest : Bytes), front.region = link.bytes ++ rest ∧
    entry.SpelledBy link.bytes ∧ entry.shared ≤ front.previous.length ∧
    link.visit = ⟨front.offset, entry.keyAfter front.previous, entry.value⟩ ∧
    next = ⟨front.offset + link.bytes.length, entry.keyAfter front.previous, rest⟩

/-- Links that continue each other from one frontier to another. -/
inductive Chain : Frontier → List Link → Frontier → Prop where
  | nil (front : Frontier) : Chain front [] front
  | cons {front next last : Frontier} {link : Link} {links : List Link}
      (hjoins : link.Joins front next) (hchain : Chain next links last) :
      Chain front (link :: links) last

/-- Whether no link continues a chain that has come this far. -/
def Frontier.Closed (front : Frontier) : Prop :=
  ∀ (link : Link) (next : Frontier), ¬ link.Joins front next

section Chain

variable {front next last : Frontier} {link : Link} {links : List Link}

/-- Whatever joins is what a reader finds there. -/
theorem Link.Joins.exists_read
    (h : link.Joins front next) :
    ∃ found, Entry.read front.offset front.region = .ok found ∧
      found.shared ≤ front.previous.length ∧ front.region = link.bytes ++ found.rest ∧
      link.visit = ⟨front.offset, found.keyAfter front.previous, found.value⟩ ∧
      next = ⟨front.offset + found.size, found.keyAfter front.previous, found.rest⟩ := by
  obtain ⟨entry, rest, hregion, hspelled, hshared, hvisit, hnext⟩ := h
  obtain ⟨found, hread, rfl, rfl, hsize⟩ :=
    Entry.exists_read_of_spelledBy hspelled front.offset rest
  rw [← hregion] at hread
  refine ⟨found, hread, hshared, hregion, hvisit, ?_⟩
  rw [hsize]
  exact hnext

/-- What a reader finds joins, unless it shares more bytes than the key before has. -/
theorem exists_joins_of_read
    {found : Entry.Found} (hread : Entry.read front.offset front.region = .ok found)
    (hshared : found.shared ≤ front.previous.length) :
    ∃ bytes, Link.Joins ⟨bytes, ⟨front.offset, found.keyAfter front.previous, found.value⟩⟩ front
      ⟨front.offset + found.size, found.keyAfter front.previous, found.rest⟩ := by
  obtain ⟨bytes, hregion, hlength, hspelled⟩ := Entry.exists_spelledBy_of_read hread
  refine ⟨bytes, found.entry, found.rest, hregion, hspelled, hshared, rfl, ?_⟩
  rw [← hlength]
  rfl

/-- At most one link continues a chain, in one way. -/
theorem Link.Joins.eq
    {link' : Link} {next' : Frontier} (h : link.Joins front next) (h' : link'.Joins front next') :
    link = link' ∧ next = next' := by
  obtain ⟨found, hread, -, hregion, hvisit, rfl⟩ := h.exists_read
  obtain ⟨found', hread', -, hregion', hvisit', rfl⟩ := h'.exists_read
  rw [hread] at hread'
  obtain rfl := Except.ok.inj hread'
  have hbytes : link.bytes = link'.bytes :=
    List.append_cancel_right (hregion.symm.trans hregion')
  constructor
  · cases link
    cases link'
    rw [Link.mk.injEq]
    exact ⟨hbytes, hvisit.trans hvisit'.symm⟩
  · rfl

/-- A chain that cannot be continued is the longest one from its frontier. -/
theorem Chain.isPrefix_of_closed
    {links' : List Link} {last' : Frontier} (h : Chain front links last) (hclosed : last.Closed)
    (h' : Chain front links' last') :
    links' <+: links := by
  induction h' generalizing links with
  | nil front => exact List.nil_prefix
  | cons hjoins' hchain' ih =>
    cases h with
    | nil => exact absurd hjoins' (hclosed _ _)
    | cons hjoins hchain =>
      obtain ⟨rfl, rfl⟩ := hjoins.eq hjoins'
      exact (List.prefix_cons_inj _).mpr (ih hchain)

theorem Chain.exists_split
    {before after : List Link} (h : Chain front (before ++ after) last) :
    ∃ middle, Chain front before middle ∧ Chain middle after last := by
  induction before generalizing front with
  | nil => exact ⟨front, .nil front, h⟩
  | cons link before ih =>
    cases h with
    | cons hjoins hchain =>
      obtain ⟨middle, hbefore, hafter⟩ := ih hchain
      exact ⟨middle, .cons hjoins hbefore, hafter⟩

/-- The links of a chain tile the region up to where the chain ends. -/
theorem Chain.region_eq
    (h : Chain front links last) :
    front.region = links.flatMap Link.bytes ++ last.region := by
  induction h with
  | nil front => rfl
  | cons hjoins hchain ih =>
    obtain ⟨entry, rest, hregion, -, -, -, rfl⟩ := hjoins
    rw [hregion, List.flatMap_cons, List.append_assoc, ← ih]

theorem Chain.offset_eq
    {before after : List Link} (h : Chain front (before ++ link :: after) last) :
    link.visit.offset = front.offset + (before.flatMap Link.bytes).length := by
  induction before generalizing front with
  | nil =>
    cases h with
    | cons hjoins hchain =>
      obtain ⟨entry, rest, -, -, -, hvisit, -⟩ := hjoins
      rw [hvisit]
      rfl
  | cons first before ih =>
    cases h with
    | cons hjoins hchain =>
      obtain ⟨entry, rest, -, -, -, -, rfl⟩ := hjoins
      rw [ih hchain, List.flatMap_cons, List.length_append, Nat.add_assoc]

theorem Frontier.closed_of_region_eq_nil
    (hempty : front.region = []) :
    front.Closed := by
  intro link next hjoins
  obtain ⟨found, hread, -⟩ := hjoins.exists_read
  have hshorter := Entry.read_shortens hread
  rw [hempty] at hshorter
  exact Nat.not_lt_zero _ hshorter

end Chain

/-- The walk over a region follows the chain that cannot be continued: it makes the visits of its
links, and it is damaged exactly if something of the region is left. -/
theorem Walk.exists_chain
    (front : Frontier) :
    ∃ links last, Chain front links last ∧ last.Closed ∧
      (ofRegion front.offset front.region front.previous).visits = links.map Link.visit ∧
      ((ofRegion front.offset front.region front.previous).damage? = none ↔ last.region = []) := by
  -- Along what follows the frontier.
  induction hlength : front.region.length using Nat.strongRecOn generalizing front with
  | ind length ih =>
    rw [ofRegion_eq]
    by_cases hempty : front.region = []
    · refine ⟨[], front, .nil front, Frontier.closed_of_region_eq_nil hempty, ?_⟩
      simp [hempty]
    have hnonempty : front.region.isEmpty = false := List.isEmpty_eq_false_iff.mpr hempty
    rw [hnonempty]
    cases hread : Entry.read front.offset front.region with
    | error cause =>
      refine ⟨[], front, .nil front, ?_, ?_⟩
      · intro link next hjoins
        obtain ⟨found, hfound, -⟩ := hjoins.exists_read
        rw [hread] at hfound
        cases hfound
      · simp [hempty]
    | ok found =>
      by_cases hshared : front.previous.length < found.shared
      · refine ⟨[], front, .nil front, ?_, ?_⟩
        · intro link next hjoins
          obtain ⟨other, hother, hle, -⟩ := hjoins.exists_read
          rw [hread] at hother
          obtain rfl := Except.ok.inj hother
          exact Nat.not_lt_of_le hle hshared
        · simp [hshared, hempty]
      · obtain ⟨bytes, hjoins⟩ := exists_joins_of_read hread (Nat.le_of_not_lt hshared)
        obtain ⟨links, last, hchain, hclosed, hvisits, hdamage⟩ :=
          ih found.rest.length (hlength ▸ Entry.read_shortens hread)
            ⟨front.offset + found.size, found.keyAfter front.previous, found.rest⟩ rfl
        refine ⟨_, last, .cons hjoins hchain, hclosed, ?_⟩
        simp only [Bool.false_eq_true, if_false, hshared]
        constructor
        · rw [List.map_cons, ← hvisits]
          rfl
        · exact hdamage

/-! ## Iteration -/

/-- Contents are opened exactly if they have a restart count and are long enough for it. -/
theorem exists_ofContents_eq_ok_iff
    (order : Comparator) (contents : Bytes) :
    (∃ block, ofContents order contents = .ok block) ↔
      restartWidth ≤ contents.length ∧ trailerSize (restartCount contents) ≤ contents.length := by
  rw [ofContents]
  by_cases hshort : contents.length < restartWidth
  · simp [hshort]
  · by_cases hmisfit : contents.length < trailerSize (restartCount contents)
    · simp [hshort, hmisfit]
    · simp [hshort, hmisfit, Nat.le_of_not_lt]

/-- A block is opened exactly if its contents have a restart count at their end and are long
enough for as many restart points.  Its entries are then parsed by their grammar, from the front
of the entry region on: there is one chain that cannot be continued, of which every other chain
is a front part, and its links lie behind each other without gaps.  The walk makes one visit for
each link, and it is damaged exactly if the chain ends before the region does.  An iterator hands
out the pairs of the links, one with each call, then the damage once if there is any, and from
then on nothing. -/
theorem iteration_follows_grammar
    (order : Comparator) (contents : Bytes) :
    let count := LittleEndian.decode (contents.drop (contents.length - 4))
    let region := contents.take (contents.length - 4 * (count + 1))
    ((∃ block, ofContents order contents = .ok block) ↔
      4 ≤ contents.length ∧ 4 * (count + 1) ≤ contents.length) ∧
    ∀ block, ofContents order contents = .ok block →
      ∃ links last damage?,
        Chain ⟨0, [], region⟩ links last ∧
        (∀ links' last', Chain ⟨0, [], region⟩ links' last' → links' <+: links) ∧
        region = links.flatMap Link.bytes ++ last.region ∧
        (∀ before link after, links = before ++ link :: after →
          link.visit.offset = (before.flatMap Link.bytes).length) ∧
        (damage? = none ↔ last.region = []) ∧
        block.walk.result = ⟨links.map Link.visit, damage?⟩ ∧
        ∀ number, block.iterator.result.call block number =
          (links.map (fun link => Except.ok (link.visit.key, link.visit.value)) ++
            damage?.toList.map Except.error)[number]? := by
  intro count region
  constructor
  · exact exists_ofContents_eq_ok_iff order contents
  · intro block hopened
    obtain ⟨-, -, hentries, -⟩ := parts_of_ofContents hopened
    have hentries : block.entries.bytes = region := hentries
    obtain ⟨links, last, hchain, hclosed, hvisits, hdamage⟩ := Walk.exists_chain ⟨0, [], region⟩
    have hwalkAt : block.walkAt 0 [] = Walk.ofRegion 0 region [] := by
      rw [walkAt, EntryRegion.dropTo_eq, List.drop_zero, hentries]
    have hwalk : block.walkAt 0 [] =
        ⟨links.map Link.visit, (Walk.ofRegion 0 region []).damage?⟩ := by
      rw [hwalkAt, ← hvisits]
    refine ⟨links, last, _, hchain, ?_, hchain.region_eq, ?_, hdamage, ?_, ?_⟩
    · intro links' last' hchain'
      exact hchain.isPrefix_of_closed hclosed hchain'
    · rintro before link after rfl
      rw [hchain.offset_eq, Nat.zero_add]
    · rw [walk_eq, hwalk]
    · intro number
      rw [call_iterator, walk_eq, hwalk, Walk.items, List.map_map]
      rfl

/-- The entries `ab` and `ac`, with needless bytes in their numerals, and then an entry that shares
three bytes. -/
def wrappedRegion : Bytes :=
  [128, 0, 2, 1, 97, 98, 49, 129, 128, 128, 128, 16, 1, 0, 99, 3, 1, 0, 100]

theorem iteration_follows_grammar_wrappedRegion :
    ∃ block, ofContents Comparator.bytewise (wrappedRegion ++ [0, 0, 0, 0]) = .ok block ∧
      ∃ links last, Chain ⟨0, [], wrappedRegion⟩ links last ∧
        links.map Link.visit = [⟨0, [97, 98], [49]⟩, ⟨7, [97, 99], []⟩] ∧ last.region ≠ [] ∧
        block.iterator.result.call block 1 = some (.ok ([97, 99], [])) ∧
        block.iterator.result.call block 2 = some (.error (.sharedPastKey 15 3 2)) ∧
        block.iterator.result.call block 3 = none := by
  obtain ⟨-, hparsed⟩ :=
    iteration_follows_grammar Comparator.bytewise (wrappedRegion ++ [0, 0, 0, 0])
  have hblock : ofContents Comparator.bytewise (wrappedRegion ++ [0, 0, 0, 0]) =
      .ok ⟨.ofBytes wrappedRegion, #[], Comparator.bytewise⟩ := rfl
  have hwalk : (Block.mk (.ofBytes wrappedRegion) #[] Comparator.bytewise).walk.result =
      ⟨[⟨0, [97, 98], [49]⟩, ⟨7, [97, 99], []⟩], some (.sharedPastKey 15 3 2)⟩ := by
    rw [walk_eq]
    cbv
  obtain ⟨links, last, damage?, hchain, -, -, -, hdamage, hwalk', hcalls⟩ := hparsed _ hblock
  rw [hwalk, Walk.mk.injEq] at hwalk'
  obtain ⟨hvisits, rfl⟩ := hwalk'
  have hpairs : links.map (fun link => Except.ok (ε := Corruption)
      (link.visit.key, link.visit.value)) = [.ok ([97, 98], [49]), .ok ([97, 99], [])] := by
    have hmapped := congrArg (List.map fun visit : Visit =>
      Except.ok (ε := Corruption) (visit.key, visit.value)) hvisits
    rw [List.map_map] at hmapped
    exact hmapped.symm
  rw [hpairs] at hcalls
  refine ⟨_, hblock, links, last, hchain, hvisits.symm, ?_, hcalls 1, hcalls 2, hcalls 3⟩
  intro hempty
  cases hdamage.mpr hempty

end LsmStore.Block
