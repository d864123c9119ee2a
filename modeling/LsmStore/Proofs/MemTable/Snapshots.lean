import Mathlib.Data.List.ReduceOption
import LsmStore.MemTable.Session
import LsmStore.Proofs.MemTable.Reads
import LsmStore.Proofs.MemTable.Versions

/-!
# Later writes do not disturb a snapshot

A session goes on taking in writes while its iterators are live.  If a snapshot sees
none of the writes, then each step keeps, for every iterator, the versions seen by the
snapshot that it has handed out or still has ahead.  So an iterator that comes to the
end has handed out just those that lay ahead when it was opened, and reads as of the
snapshot answer as they did.
-/

namespace LsmStore

open Std

/-- Whether a snapshot sees a version. -/
def Version.isSeen (snapshot : Nat) (version : Version) : Bool :=
  version.key.sequence.val ≤ snapshot

theorem Write.isSeen_version
    {write : Write} (h : write.Recordable) (snapshot : Nat) :
    write.version.isSeen snapshot = decide (write.sequence ≤ snapshot) := by
  rw [Version.isSeen, version, sequence_internalKey h]

/-- Writes that a snapshot does not see make no difference to what it reads. -/
theorem History.lookup_append_of_unseen
    (order : Comparator) (writes : List Write) {later : List Write} {snapshot : Nat}
    (hunseen : ∀ write ∈ later, snapshot < write.sequence) (userKey : Bytes) :
    lookup order (writes ++ later) userKey snapshot = lookup order writes userKey snapshot := by
  have hnone : later.filter (Write.isVisible order userKey snapshot) = [] := by
    rw [List.filter_eq_nil_iff]
    intro write hwrite hvisible
    have hsequence := hunseen write hwrite
    simp only [Write.isVisible, Bool.and_eq_true, decide_eq_true_eq] at hvisible
    exact absurd hvisible.2 (Nat.not_le.mpr hsequence)
  rw [lookup, List.filter_append, hnone, List.append_nil, ← lookup]

namespace MemTable

namespace Operation

/-- The writes that an operation asks for. -/
def writes : Operation → List Write
  | .add write => [write]
  | _ => []

/-- Whether the write or the key of an operation can be stored. -/
def Fits : Operation → Prop
  | .add write => write.Recordable
  | .get userKey _ | .seek userKey _ _ | .openAt _ userKey _ =>
    InternalKey.encodedLength userKey.length < UInt32.size
  | _ => True

/-- Whether an operation opens an iterator under a number. -/
def opens (slot : Nat) : Operation → Bool
  | .openFirst other | .openAt other _ _ => other == slot
  | _ => false

/-- What an operation with its answer has taken from the iterator under a number. -/
def takes (slot : Nat) : Operation → Answer → List (Option Version)
  | .next other, .version version? => if other = slot then [version?] else []
  | _, _ => []

instance (operation : Operation) : Decidable operation.Fits := by
  cases operation <;> unfold Fits <;> infer_instance

end Operation

/-- What operations with their answers have taken from the iterator under a number, in the
order in which it was taken. -/
def taken (slot : Nat) (operations : List Operation) (answers : List Answer) :
    List (Option Version) :=
  (operations.zip answers).flatMap fun (operation, answer) => operation.takes slot answer

theorem taken_cons
    (slot : Nat) (operation : Operation) (operations : List Operation) (answer : Answer)
    (answers : List Answer) :
    taken slot (operation :: operations) (answer :: answers) =
      operation.takes slot answer ++ taken slot operations answers :=
  List.flatMap_cons

namespace Session

/-! ## Performing operations -/

/-- The answers to operations and the session after them, if no operation meets a fault. -/
def perform (session : Session) : List Operation → Except Fault (List Answer × Session)
  | [] => .ok ([], session)
  | operation :: operations => do
    let (answer, session) ← session.step operation
    let (answers, session) ← session.perform operations
    return (answer :: answers, session)

variable {session next final : Session} {operation : Operation} {operations : List Operation}
  {answer : Answer} {answers : List Answer}

theorem perform_cons
    (hstep : session.step operation = .ok (answer, next))
    (hperform : next.perform operations = .ok (answers, final)) :
    session.perform (operation :: operations) = .ok (answer :: answers, final) := by
  rw [perform, hstep]
  simp only [bind, Except.bind, hperform]
  rfl

theorem exists_of_perform_cons
    (h : session.perform (operation :: operations) = .ok (answers, final)) :
    ∃ answer next rest, session.step operation = .ok (answer, next) ∧
      next.perform operations = .ok (rest, final) ∧ answers = answer :: rest := by
  rw [perform] at h
  cases hstep : session.step operation with
  | error fault =>
    rw [hstep] at h
    cases h
  | ok stepped =>
    cases hperform : stepped.2.perform operations with
    | error fault =>
      rw [hstep] at h
      simp [bind, Except.bind, hperform] at h
    | ok performed =>
      rw [hstep] at h
      simp only [bind, Except.bind, hperform] at h
      cases h
      exact ⟨stepped.1, stepped.2, performed.1, rfl, hperform, rfl⟩

theorem perform_append
    {more : List Operation} {later : List Answer}
    (hperform : session.perform operations = .ok (answers, next))
    (hmore : next.perform more = .ok (later, final)) :
    session.perform (operations ++ more) = .ok (answers ++ later, final) := by
  induction operations generalizing session answers with
  | nil =>
    cases hperform
    exact hmore
  | cons operation operations ih =>
    obtain ⟨answer, stepped, rest, hstep, hrest, rfl⟩ := exists_of_perform_cons hperform
    exact perform_cons hstep (ih hrest)

theorem run_eq_of_perform
    (h : session.perform operations = .ok (answers, final)) :
    session.run operations = (answers, none) := by
  induction operations generalizing session answers with
  | nil =>
    cases h
    rfl
  | cons operation operations ih =>
    obtain ⟨answer, next, rest, hstep, hperform, rfl⟩ := exists_of_perform_cons h
    rw [run, hstep]
    simp only [ih hperform]

/-! ## What one step does -/

/-- A session whose memtable has taken in some writes, with iterators in its memtable. -/
structure Sound (order : InternalOrder) (session : Session) (writes : List Write) : Prop where
  holds : Holds order session.table writes
  within : ∀ slot, (session.iterators.get slot).Within session.table.records

/-- The versions that lie ahead of an iterator. -/
def ahead (session : Session) (slot : Nat) : List Version :=
  session.table.versionsFrom (session.iterators.get slot)

/-- A session with one iterator put at a cursor. -/
def place (session : Session) (slot : Nat) (cursor : SkipList.Cursor) : Session :=
  { session with iterators := session.iterators.set slot cursor }

theorem ahead_place
    (session : Session) (slot other : Nat) (cursor : SkipList.Cursor) :
    (session.place slot cursor).ahead other =
      if other = slot then session.table.versionsFrom cursor else session.ahead other := by
  rw [place, ahead, Slots.get_set]
  split <;> rfl

variable {order : InternalOrder} {table : MemTable} {writes : List Write} {slot snapshot : Nat}

theorem sound_ofTable
    (h : Holds order table writes) :
    (ofTable table).Sound order writes :=
  ⟨h, fun _ => SkipList.Cursor.atEnd_within table.records⟩

theorem Sound.place
    (h : session.Sound order writes) {cursor : SkipList.Cursor}
    (hcursor : cursor.Within session.table.records) (slot : Nat) :
    (session.place slot cursor).Sound order writes := by
  refine ⟨h.holds, fun other => ?_⟩
  rw [Session.place, Slots.get_set]
  split
  · exact hcursor
  · exact h.within other

theorem Sound.step_next
    (h : session.Sound order writes) (slot : Nat) :
    session.step (.next slot) = .ok (.version (session.ahead slot).head?,
      session.place slot (session.table.records.advance (session.iterators.get slot))) := by
  rw [step, h.holds.next_eq (h.within slot)]
  rfl

theorem Sound.exists_step
    [TransCmp order.user.compare] (h : session.Sound order writes) (hfits : operation.Fits) :
    ∃ answer next, session.step operation = .ok (answer, next) ∧
      next.Sound order (writes ++ operation.writes) := by
  have hread : session.Sound order (writes ++ []) := by rwa [List.append_nil]
  cases operation with
  | add write =>
    obtain ⟨table, hadd, hholds⟩ := h.holds.add hfits
    refine ⟨_, { session with table }, by simp only [step, hadd]; rfl, hholds, ?_⟩
    exact fun slot => h.holds.within_add (h.within slot) hfits hadd
  | get userKey snapshot =>
    have hget := h.holds.get_eq_lookup hfits snapshot
    exact ⟨_, _, by simp only [step, hget]; rfl, hread⟩
  | versions =>
    have hversions := h.holds.versions_eq
    exact ⟨_, _, by simp only [step, hversions]; rfl, hread⟩
  | seek userKey snapshot limit =>
    have hcursor := h.holds.seekCursor_within userKey snapshot
    have htake := h.holds.take_eq hcursor limit
    exact ⟨_, _, by simp only [step, htake]; rfl, hread⟩
  | openFirst slot => exact ⟨_, _, rfl, hread.place h.holds.first_within slot⟩
  | openAt slot userKey snapshot =>
    exact ⟨_, _, rfl, hread.place (h.holds.seekCursor_within userKey snapshot) slot⟩
  | next slot =>
    obtain ⟨elements, hwoven⟩ := h.holds.keepsFirst.woven
    have hmoved := (hwoven.advance_spec (h.within slot)).1
    exact ⟨_, _, h.step_next slot, hread.place hmoved slot⟩
  | summary | counters => exact ⟨_, _, rfl, hread⟩
  | dropWriter => exact ⟨_, _, rfl, hread.holds, h.within⟩

theorem Sound.step
    [TransCmp order.user.compare] (h : session.Sound order writes) (hfits : operation.Fits)
    (hstep : session.step operation = .ok (answer, next)) :
    next.Sound order (writes ++ operation.writes) := by
  obtain ⟨answer', next', hstep', hnext⟩ := h.exists_step hfits
  rw [hstep] at hstep'
  cases hstep'
  exact hnext

/-- What a step does to an iterator that it does not open: nothing; or a write comes to lie
behind the first of the versions ahead; or the first of them is handed out. -/
theorem Sound.ahead_cases
    [TransCmp order.user.compare] (h : session.Sound order writes) (hfits : operation.Fits)
    (hstep : session.step operation = .ok (answer, next))
    (hkept : operation.opens slot = false) :
    (operation.takes slot answer = [] ∧ next.ahead slot = session.ahead slot) ∨
      (∃ write first before after, operation = .add write ∧
        operation.takes slot answer = [] ∧
        session.ahead slot = first :: (before ++ after) ∧
        next.ahead slot = first :: (before ++ write.version :: after)) ∨
      (operation.takes slot answer = [(session.ahead slot).head?] ∧
        next.ahead slot = (session.ahead slot).tail) := by
  cases operation with
  | add write =>
    obtain ⟨table, hadd, -⟩ := add_eq h.holds.sound hfits
    simp only [Session.step, hadd] at hstep
    cases hstep
    rcases h.holds.versionsFrom_add_cases (h.within slot) hfits hadd with
      hsame | ⟨first, before, after, hold, hnew⟩
    · exact Or.inl ⟨rfl, hsame⟩
    · exact Or.inr (Or.inl ⟨write, first, before, after, rfl, rfl, hold, hnew⟩)
  | next other =>
    rw [h.step_next] at hstep
    cases hstep
    by_cases hslot : slot = other
    · subst hslot
      refine Or.inr (Or.inr ⟨if_pos rfl, ?_⟩)
      rw [ahead_place, if_pos rfl]
      exact h.holds.versionsFrom_advance (h.within slot)
    · refine Or.inl ⟨if_neg (Ne.symm hslot), ?_⟩
      rw [ahead_place, if_neg hslot]
  | openFirst other | openAt other =>
    cases hstep
    have hslot : slot ≠ other := by
      rintro rfl
      simp [Operation.opens] at hkept
    refine Or.inl ⟨rfl, ?_⟩
    rw [← Session.place, ahead_place, if_neg hslot]
  | get userKey other =>
    simp only [Session.step, h.holds.get_eq_lookup hfits other] at hstep
    cases hstep
    exact Or.inl ⟨rfl, rfl⟩
  | versions =>
    simp only [Session.step, h.holds.versions_eq] at hstep
    cases hstep
    exact Or.inl ⟨rfl, rfl⟩
  | seek userKey other limit =>
    have hcursor := h.holds.seekCursor_within userKey other
    have htake := h.holds.take_eq hcursor limit
    simp only [Session.step, htake] at hstep
    cases hstep
    exact Or.inl ⟨rfl, rfl⟩
  | summary | counters | dropWriter =>
    cases hstep
    exact Or.inl ⟨rfl, rfl⟩

/-- A step whose write is not seen by a snapshot keeps the versions that the snapshot sees,
handed out or still ahead. -/
theorem Sound.filter_ahead_step
    [TransCmp order.user.compare] (h : session.Sound order writes) (hfits : operation.Fits)
    (hstep : session.step operation = .ok (answer, next))
    (hkept : operation.opens slot = false)
    (hunseen : ∀ write ∈ operation.writes, snapshot < write.sequence) :
    ((operation.takes slot answer).reduceOption ++ next.ahead slot).filter
        (Version.isSeen snapshot) =
      (session.ahead slot).filter (Version.isSeen snapshot) := by
  rcases h.ahead_cases hfits hstep hkept with
    ⟨htakes, hsame⟩ | ⟨write, first, before, after, rfl, htakes, hold, hnew⟩ | ⟨htakes, htail⟩
  · rw [htakes, hsame]
    rfl
  · have hsequence : snapshot < write.sequence := hunseen write List.mem_cons_self
    have hhidden : write.version.isSeen snapshot = false := by
      rw [Write.isSeen_version hfits, decide_eq_false_iff_not]
      exact Nat.not_le.mpr hsequence
    rw [htakes, hold, hnew]
    simp [List.filter_cons, hhidden, List.reduceOption_nil]
  · rw [htakes, htail]
    cases session.ahead slot <;> rfl

/-- An iterator at the end stays there, and it is there once it has handed out nothing. -/
theorem Sound.ahead_step_eq_nil
    [TransCmp order.user.compare] (h : session.Sound order writes) (hfits : operation.Fits)
    (hstep : session.step operation = .ok (answer, next))
    (hkept : operation.opens slot = false)
    (hended : session.ahead slot = [] ∨ none ∈ operation.takes slot answer) :
    next.ahead slot = [] := by
  rcases h.ahead_cases hfits hstep hkept with
    ⟨htakes, hsame⟩ | ⟨write, first, before, after, rfl, htakes, hold, hnew⟩ | ⟨htakes, htail⟩
  · rw [hsame]
    simpa [htakes] using hended
  · rw [htakes, hold] at hended
    simp at hended
  · rw [htail]
    cases hahead : session.ahead slot with
    | nil => rfl
    | cons version versions =>
      rw [htakes, hahead] at hended
      simp at hended

/-! ## What a run does -/

theorem Sound.exists_perform
    [TransCmp order.user.compare] (h : session.Sound order writes)
    (hfits : ∀ operation ∈ operations, operation.Fits) :
    ∃ answers final, session.perform operations = .ok (answers, final) ∧
      final.Sound order (writes ++ operations.flatMap Operation.writes) := by
  induction operations generalizing session writes with
  | nil => exact ⟨[], session, rfl, by simpa using h⟩
  | cons operation operations ih =>
    obtain ⟨answer, next, hstep, hnext⟩ := h.exists_step (hfits operation List.mem_cons_self)
    obtain ⟨answers, final, hperform, hfinal⟩ :=
      ih hnext fun other hother => hfits other (List.mem_cons_of_mem _ hother)
    refine ⟨answer :: answers, final, perform_cons hstep hperform, ?_⟩
    rwa [List.flatMap_cons, ← List.append_assoc]

/-- Whatever is done that a snapshot does not see, the versions that it sees are handed out by
an iterator or stay ahead of it; and once it has come to the end, nothing is ahead. -/
theorem Sound.ahead_perform
    [TransCmp order.user.compare] (h : session.Sound order writes)
    (hfits : ∀ operation ∈ operations, operation.Fits)
    (hperform : session.perform operations = .ok (answers, final))
    (hkept : ∀ operation ∈ operations, operation.opens slot = false)
    (hunseen : ∀ operation ∈ operations, ∀ write ∈ operation.writes,
      snapshot < write.sequence) :
    ((taken slot operations answers).reduceOption ++ final.ahead slot).filter
        (Version.isSeen snapshot) =
      (session.ahead slot).filter (Version.isSeen snapshot) ∧
    (session.ahead slot = [] ∨ none ∈ taken slot operations answers →
      final.ahead slot = []) := by
  induction operations generalizing session writes answers with
  | nil =>
    cases hperform
    refine ⟨rfl, fun hended => ?_⟩
    simpa [taken] using hended
  | cons operation operations ih =>
    obtain ⟨answer, next, rest, hstep, hrest, rfl⟩ := exists_of_perform_cons hperform
    simp only [List.forall_mem_cons] at hfits hkept hunseen
    have hnext := h.step hfits.1 hstep
    have hfirst := h.filter_ahead_step hfits.1 hstep hkept.1 hunseen.1
    have hend := @Sound.ahead_step_eq_nil _ _ _ _ _ _ slot _ h hfits.1 hstep hkept.1
    obtain ⟨hkeep, hstay⟩ := ih hnext hfits.2 hrest hkept.2 hunseen.2
    rw [taken_cons]
    constructor
    · rw [List.reduceOption_append, List.append_assoc, List.filter_append, hkeep,
        ← List.filter_append, hfirst]
    · intro hended
      apply hstay
      rw [List.mem_append, ← or_assoc] at hended
      exact hended.imp_left hend

theorem Sound.step_openAt
    [TransCmp order.user.compare] (h : session.Sound order writes) {userKey : Bytes}
    (hkey : InternalKey.encodedLength userKey.length < UInt32.size) (slot snapshot : Nat) :
    ∃ next, session.step (.openAt slot userKey snapshot) = .ok (.done, next) ∧
      next.Sound order writes ∧
      ∃ all, session.table.versions = .ok all ∧
        next.ahead slot =
          all.dropWhile (Version.isBefore order (LookupKey.ofSnapshot userKey snapshot)) := by
  have hcursor := h.holds.seekCursor_within userKey snapshot
  refine ⟨_, rfl, h.place hcursor slot, _, h.holds.versions_eq, ?_⟩
  rw [← Session.place, ahead_place, if_pos rfl]
  exact h.holds.versionsFrom_seekCursor hkey snapshot

/-- A snapshot reads the same before and after writes that it does not see, whatever is done
in between.  And an iterator that was opened before them at a key as of the snapshot hands out
just those of the versions at the key and behind it that were there when it was opened, as far
as the snapshot sees them, each once and in order: what has not been handed out is still ahead,
and nothing is once it has come to the end. -/
theorem snapshot_undisturbed
    (order : InternalOrder) [TransCmp order.user.compare]
    (blockSize : Nat) (hpos : 0 < blockSize) (heights : Nat → Height)
    {earlier later : List Operation}
    (hearlier : ∀ operation ∈ earlier, operation.Fits)
    (hlater : ∀ operation ∈ later, operation.Fits)
    {userKey : Bytes} (hkey : InternalKey.encodedLength userKey.length < UInt32.size)
    {slot snapshot : Nat}
    (hkept : ∀ operation ∈ later, operation.opens slot = false)
    (hunseen : ∀ operation ∈ later, ∀ write ∈ operation.writes, snapshot < write.sequence) :
    let start := LookupKey.ofSnapshot userKey snapshot
    let opened := Operation.openAt slot userKey snapshot
    ∃ first session answers final all rest,
      (ofTable (empty order (Arena.ofBlockSize blockSize hpos) heights)).perform earlier =
        .ok (first, session) ∧
      session.perform (opened :: later) = .ok (answers, final) ∧
      (ofTable (empty order (Arena.ofBlockSize blockSize hpos) heights)).run
          (earlier ++ opened :: later) = (first ++ answers, none) ∧
      (∀ key : Bytes, InternalKey.encodedLength key.length < UInt32.size →
        ∃ result, session.table.get key snapshot = .ok result ∧
          final.table.get key snapshot = .ok result) ∧
      session.table.versions = .ok all ∧
      final.table.take final.table.size (final.iterators.get slot) = .ok rest ∧
      ((taken slot (opened :: later) answers).reduceOption ++ rest).filter
          (Version.isSeen snapshot) =
        (all.dropWhile (Version.isBefore order start)).filter (Version.isSeen snapshot) ∧
      (none ∈ taken slot (opened :: later) answers →
        rest = [] ∧
        (taken slot (opened :: later) answers).reduceOption.filter (Version.isSeen snapshot) =
          (all.dropWhile (Version.isBefore order start)).filter (Version.isSeen snapshot)) := by
  intro start opened
  have hempty := holds_empty order (Arena.sound_ofBlockSize blockSize hpos) heights
  obtain ⟨first, session, hfirst, hsession⟩ := (sound_ofTable hempty).exists_perform hearlier
  obtain ⟨next, hopen, hnext, all, hall, hahead⟩ := hsession.step_openAt hkey slot snapshot
  obtain ⟨answers, final, hperform, hfinal⟩ := hnext.exists_perform hlater
  obtain ⟨hkeep, hended⟩ := hnext.ahead_perform hlater hperform hkept hunseen
  have htaken : taken slot (opened :: later) (.done :: answers) = taken slot later answers :=
    taken_cons slot opened later .done answers
  have hrest := hfinal.holds.take_size (hfinal.within slot)
  rw [hahead] at hkeep
  have hlate := perform_cons hopen hperform
  have hrun := run_eq_of_perform (perform_append hfirst hlate)
  refine ⟨first, session, .done :: answers, final, all, final.ahead slot, hfirst, hlate, hrun,
    ?_, hall, hrest, ?_⟩
  · intro key hfits
    have hlaterWrites : ∀ write ∈ later.flatMap Operation.writes, snapshot < write.sequence := by
      intro write hwrite
      obtain ⟨operation, hoperation, hmember⟩ := List.mem_flatMap.mp hwrite
      exact hunseen operation hoperation write hmember
    refine ⟨_, hsession.holds.get_eq_lookup hfits snapshot, ?_⟩
    rw [hfinal.holds.get_eq_lookup hfits,
      History.lookup_append_of_unseen order.user _ hlaterWrites]
  · rw [htaken]
    refine ⟨hkeep, fun hnone => ?_⟩
    have hnil := hended (Or.inr hnone)
    rw [hnil, List.append_nil] at hkeep
    exact ⟨hnil, hkeep⟩

/-- Two keys, one of them in two versions. -/
def population : List Operation :=
  [.add ⟨5, .value, [107], [49]⟩, .add ⟨3, .deletion, [109], []⟩, .add ⟨8, .value, [109], [50]⟩]

/-- An iterator is taken through to the end, while writes come in at the key that it has handed
out, right in front of it and behind it. -/
def interleaving : List Operation :=
  [.next 0, .add ⟨9, .value, [75], [51]⟩, .add ⟨9, .value, [108], [52]⟩, .get [75] 7, .next 0,
    .add ⟨10, .value, [110], [53]⟩, .next 0, .next 0, .next 0]

theorem snapshot_undisturbed_interleaving :
    ∃ first session answers final all,
      (ofTable (empty ⟨⟨"caseless", Bytes.compareCaseless⟩⟩ (Arena.ofBlockSize 64 (by decide))
        (Height.draw 7))).perform population = .ok (first, session) ∧
      session.perform (.openAt 0 [107] 7 :: interleaving) = .ok (answers, final) ∧
      final.table.get [75] 7 = session.table.get [75] 7 ∧
      session.table.versions = .ok all ∧
      (taken 0 (.openAt 0 [107] 7 :: interleaving) answers).map
          (Option.map fun version => version.key.sequence.val) =
        [some 5, some 8, some 3, some 10, none] ∧
      (taken 0 (.openAt 0 [107] 7 :: interleaving) answers).reduceOption.filter
          (Version.isSeen 7) =
        (all.dropWhile (Version.isBefore ⟨⟨"caseless", Bytes.compareCaseless⟩⟩
          (LookupKey.ofSnapshot [107] 7))).filter (Version.isSeen 7) := by
  obtain ⟨first, session, answers, final, all, rest, hfirst, hperform, -, hget, hall, -, -,
      hended⟩ :=
    @snapshot_undisturbed ⟨⟨"caseless", Bytes.compareCaseless⟩⟩ transCmp_caseless 64 (by decide)
      (Height.draw 7) population interleaving (by decide) (by decide) [107] (by decide) 0 7
      (by decide) (by decide)
  obtain ⟨result, hbefore, hafter⟩ := hget [75] (by decide)
  have hrun : (do
      let (_, session) ← (ofTable (empty ⟨⟨"caseless", Bytes.compareCaseless⟩⟩
        (Arena.ofBlockSize 64 (by decide)) (Height.draw 7))).perform population
      let (answers, _) ← session.perform (.openAt 0 [107] 7 :: interleaving)
      return (taken 0 (.openAt 0 [107] 7 :: interleaving) answers).map
        (Option.map fun version => version.key.sequence.val)) =
      Except.ok [some 5, some 8, some 3, some 10, none] := by
    decide +kernel
  rw [hfirst] at hrun
  simp only [bind, Except.bind, hperform] at hrun
  have hsequences := Except.ok.inj hrun
  have hnone : none ∈ taken 0 (.openAt 0 [107] 7 :: interleaving) answers := by
    have hmember : none ∈ [some 5, some 8, some 3, some 10, none] := by decide
    rw [← hsequences] at hmember
    obtain ⟨version?, hversion, hsame⟩ := List.mem_map.mp hmember
    rwa [Option.map_eq_none_iff.mp hsame] at hversion
  exact ⟨first, session, answers, final, all, hfirst, hperform, hafter.trans hbefore.symm, hall,
    hsequences, (hended hnone).2⟩

end Session

end MemTable

end LsmStore
