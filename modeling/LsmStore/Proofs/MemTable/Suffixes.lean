import LsmStore.Proofs.MemTable.Flush
import LsmStore.Proofs.MemTable.Iteration

/-!
# A search starts a suffix

In the order of versions all those that a search for a key passes by come first: the
versions of lesser keys, and of the key itself those that the snapshot does not see.
What is left is a suffix of the iteration.  It begins with the visible versions of the
key, from the newest on, and then come all versions of greater keys, seen or not.  A
read answers by the first version of that suffix.
-/

namespace LsmStore

open Std

/-- If a property is handed down to what comes before, a list is cut in two by it. -/
theorem eq_filter_append_filter
    {α : Type} {p : α → Bool} {items : List α}
    (hdown : items.Pairwise fun first second => p second = true → p first = true) :
    items = items.filter p ++ items.filter fun item => !p item := by
  induction items with
  | nil => rfl
  | cons item items ih =>
    obtain ⟨hfirst, hrest⟩ := List.pairwise_cons.mp hdown
    cases hitem : p item with
    | true =>
      rw [List.filter_cons_of_pos hitem, List.filter_cons_of_neg (by simp [hitem]),
        List.cons_append, ← ih hrest]
    | false =>
      have hnone : items.filter p = [] := by
        refine List.filter_eq_nil_iff.mpr ?_
        intro other hother hholds
        rw [hfirst other hother hholds] at hitem
        cases hitem
      have hall : (items.filter fun other => !p other) = items := by
        rw [hnone, List.nil_append] at ih
        exact (ih hrest).symm
      rw [List.filter_cons_of_neg (by simp [hitem]), hnone, List.nil_append,
        List.filter_cons_of_pos (by simp [hitem]), hall]

theorem dropWhile_eq_filter
    {α : Type} {p : α → Bool} {items : List α}
    (hdown : items.Pairwise fun first second => p second = true → p first = true) :
    items.dropWhile p = items.filter fun item => !p item := by
  have hall : ∀ item ∈ items.filter p, p item = true := fun item hitem => List.of_mem_filter hitem
  rw [eq_filter_append_filter hdown, List.dropWhile_append_of_pos hall,
    ← eq_filter_append_filter hdown]
  cases hrest : items.filter fun item => !p item with
  | nil => rfl
  | cons item rest =>
    have hmem : item ∈ items.filter fun item => !p item := by simp [hrest]
    have hitem : ¬ p item = true := by simpa using (List.mem_filter.mp hmem).2
    exact List.dropWhile_cons_of_neg hitem

namespace Version

/-- Whether a search for a key as of a snapshot passes a version by: it is one of a lesser key, or
one of an equivalent key that is newer than the snapshot. -/
def IsPassed (user : Comparator) (userKey : Bytes) (snapshot : Nat) (version : Version) : Prop :=
  user.compare version.key.userKey userKey = .lt ∨
    user.compare version.key.userKey userKey = .eq ∧ snapshot < version.key.sequence.val

/-- Whether a version is one of an equivalent key and not newer than a snapshot. -/
def IsVisible (user : Comparator) (userKey : Bytes) (snapshot : Nat) (version : Version) : Prop :=
  user.compare version.key.userKey userKey = .eq ∧ version.key.sequence.val ≤ snapshot

instance (user : Comparator) (userKey : Bytes) (snapshot : Nat) (version : Version) :
    Decidable (version.IsPassed user userKey snapshot) :=
  inferInstanceAs (Decidable (_ ∨ _ ∧ _))

instance (user : Comparator) (userKey : Bytes) (snapshot : Nat) (version : Version) :
    Decidable (version.IsVisible user userKey snapshot) :=
  inferInstanceAs (Decidable (_ ∧ _))

variable {order : InternalOrder} {user : Comparator} {userKey : Bytes} {snapshot : Nat}
  {version other : Version}

/-- The versions before the lookup key of a search are those that it passes by. -/
theorem isBefore_version_iff
    (write : Write) :
    write.version.isBefore order (LookupKey.ofSnapshot userKey snapshot) = true ↔
      write.version.IsPassed order.user userKey snapshot := by
  rw [isBefore, beq_iff_eq, Write.version, LookupKey.ofSnapshot, order.compare_encode]
  exact InternalKey.compare_probe_eq_lt_iff order.user write.internalKey userKey snapshot

theorem IsPassed.of_precedes
    [TransCmp user.compare] (h : other.IsPassed user userKey snapshot)
    (hprecedes : version.Precedes user other) :
    version.IsPassed user userKey snapshot := by
  rcases hprecedes with hless | ⟨hequal, hnewer⟩
  · left
    rcases h with hbefore | ⟨hsame, -⟩
    · exact TransCmp.lt_trans hless hbefore
    · exact TransCmp.lt_of_lt_of_eq hless hsame
  · rw [IsPassed, TransCmp.congr_left hequal]
    refine h.imp id (And.imp_right fun hunseen => ?_)
    omega

/-- Of the versions that are not passed by, those that are visible come before the others. -/
theorem IsVisible.of_precedes
    [TransCmp user.compare] (h : other.IsVisible user userKey snapshot)
    (hprecedes : version.Precedes user other)
    (hahead : ¬ version.IsPassed user userKey snapshot) :
    version.IsVisible user userKey snapshot := by
  rcases hprecedes with hless | ⟨hequal, -⟩
  · exact absurd (Or.inl (TransCmp.lt_of_lt_of_eq hless h.1)) hahead
  · have hsame : user.compare version.key.userKey userKey = .eq := TransCmp.eq_trans hequal h.1
    exact ⟨hsame, Nat.le_of_not_lt fun hunseen => hahead (Or.inr ⟨hsame, hunseen⟩)⟩

theorem IsVisible.not_isPassed
    (h : version.IsVisible user userKey snapshot) :
    ¬ version.IsPassed user userKey snapshot := by
  rintro (hless | ⟨-, hunseen⟩)
  · rw [h.1] at hless
    cases hless
  · exact Nat.not_lt_of_le h.2 hunseen

/-- Of two visible versions the newer one comes first, and under one number the value. -/
theorem Precedes.newer
    [TransCmp user.compare] (h : version.Precedes user other)
    (hversion : version.IsVisible user userKey snapshot)
    (hother : other.IsVisible user userKey snapshot) :
    other.key.sequence.val < version.key.sequence.val ∨
      other.key.sequence.val = version.key.sequence.val ∧
        version.key.kind = .value ∧ other.key.kind = .deletion := by
  rcases h with hless | ⟨-, hnewer⟩
  · rw [TransCmp.eq_trans hversion.1 (OrientedCmp.eq_symm hother.1)] at hless
    cases hless
  · exact hnewer

/-- What is neither passed by nor visible is a version of a greater key. -/
theorem compare_eq_gt_iff
    (snapshot : Nat) :
    user.compare version.key.userKey userKey = .gt ↔
      ¬ version.IsPassed user userKey snapshot ∧ ¬ version.IsVisible user userKey snapshot := by
  rw [IsPassed, IsVisible]
  cases user.compare version.key.userKey userKey <;> simp

end Version

theorem Lookup.ofFirst_eq_notFound_iff
    {user : Comparator} {userKey : Bytes} {version? : Option Version} :
    ofFirst user userKey version? = .notFound ↔
      ∀ version ∈ version?, user.compare version.key.userKey userKey ≠ .eq := by
  cases version? with
  | none => simp [ofFirst]
  | some version =>
    rw [ofFirst]
    by_cases hequal : user.compare version.key.userKey userKey = .eq
    · cases version.key.kind <;> simp [hequal]
    · simp [hequal]

namespace MemTable

variable {order : InternalOrder} [TransCmp order.user.compare] {table : MemTable}
  {writes : List Write} {userKey : Bytes}

namespace Holds

theorem versionsFrom_seekCursor_eq_filter
    (h : Holds order table writes)
    (hkey : InternalKey.encodedLength userKey.length < UInt32.size) (snapshot : Nat) :
    table.versionsFrom (table.seekCursor userKey snapshot) =
      (table.versionsFrom table.records.first).filter fun version =>
        !decide (version.IsPassed order.user userKey snapshot) := by
  have hbefore : ∀ version ∈ table.versionsFrom table.records.first,
      version.isBefore order (LookupKey.ofSnapshot userKey snapshot) =
        decide (version.IsPassed order.user userKey snapshot) := by
    intro version hversion
    obtain ⟨write, hearliest, rfl⟩ := h.mem_versionsFrom_first_iff.mp hversion
    rw [Bool.eq_iff_iff, decide_eq_true_eq]
    exact Version.isBefore_version_iff write
  have hdown : (table.versionsFrom table.records.first).Pairwise fun version other =>
      other.isBefore order (LookupKey.ofSnapshot userKey snapshot) = true →
        version.isBefore order (LookupKey.ofSnapshot userKey snapshot) = true := by
    refine h.pairwise_precedes.imp_of_mem ?_
    intro version other hversion hother hprecedes hpassed
    rw [hbefore other hother, decide_eq_true_eq] at hpassed
    rw [hbefore version hversion, decide_eq_true_eq]
    exact hpassed.of_precedes hprecedes
  rw [h.versionsFrom_seekCursor hkey, dropWhile_eq_filter hdown]
  refine List.filter_congr ?_
  intro version hversion
  rw [hbefore version hversion]

/-- From the cursor of its search on come first the visible versions and then those of greater
keys. -/
theorem versionsFrom_seekCursor_eq_append
    (h : Holds order table writes)
    (hkey : InternalKey.encodedLength userKey.length < UInt32.size) (snapshot : Nat) :
    table.versionsFrom (table.seekCursor userKey snapshot) =
      ((table.versionsFrom table.records.first).filter fun version =>
        version.IsVisible order.user userKey snapshot) ++
      (table.versionsFrom table.records.first).filter fun version =>
        order.user.compare version.key.userKey userKey = .gt := by
  have hdown : ((table.versionsFrom table.records.first).filter fun version =>
      !decide (version.IsPassed order.user userKey snapshot)).Pairwise fun version other =>
        decide (other.IsVisible order.user userKey snapshot) = true →
          decide (version.IsVisible order.user userKey snapshot) = true := by
    refine (h.pairwise_precedes.filter _).imp_of_mem ?_
    intro version other hversion hother hprecedes hvisible
    have hahead := (List.mem_filter.mp hversion).2
    rw [Bool.not_eq_true', decide_eq_false_iff_not] at hahead
    exact decide_eq_true ((of_decide_eq_true hvisible).of_precedes hprecedes hahead)
  rw [h.versionsFrom_seekCursor_eq_filter hkey, eq_filter_append_filter hdown, List.filter_filter,
    List.filter_filter]
  congr 1
  · refine List.filter_congr ?_
    intro version _
    by_cases hvisible : version.IsVisible order.user userKey snapshot
    · simp [hvisible, hvisible.not_isPassed]
    · simp [hvisible]
  · refine List.filter_congr ?_
    intro version _
    rw [Bool.eq_iff_iff, decide_eq_true_eq, Version.compare_eq_gt_iff snapshot]
    simp [and_comm]

end Holds

/-- After any writes that have records, with any heights of towers and blocks of any size, a search
for a key as of a snapshot cuts an iteration in two: the versions of lesser keys and those of the
key that are newer than the snapshot are passed by, and what is left is listed, however many of it
are asked for, and given by the calls of an iterator one after the other.  That begins with the
visible versions of the key, the newest first, and goes on with all versions of greater keys.  A
read finds nothing exactly if nothing is left or the first version left is not one of the key, and
else what this version stands for. -/
theorem seek_lists_visible_suffix
    (order : InternalOrder) [TransCmp order.user.compare]
    (blockSize : Nat) (hpos : 0 < blockSize) (heights : Nat → Height)
    (writes : List Write) (hwrites : ∀ write ∈ writes, write.Recordable) :
    ∃ table versions,
      (empty order (Arena.ofBlockSize blockSize hpos) heights).addAll writes = .ok table ∧
      table.versions = .ok versions ∧
      ∀ userKey : Bytes, InternalKey.encodedLength userKey.length < UInt32.size →
        ∀ snapshot : Nat,
          let passed := versions.filter fun version =>
            version.IsPassed order.user userKey snapshot
          let visible := versions.filter fun version =>
            version.IsVisible order.user userKey snapshot
          let greater := versions.filter fun version =>
            order.user.compare version.key.userKey userKey = .gt
          let found := visible ++ greater
          versions = passed ++ found ∧
          visible.Pairwise (fun newer older =>
            older.key.sequence.val < newer.key.sequence.val ∨
              older.key.sequence.val = newer.key.sequence.val ∧
                newer.key.kind = .value ∧ older.key.kind = .deletion) ∧
          table.seek userKey snapshot = .ok found ∧
          (∀ limit, table.take limit (table.seekCursor userKey snapshot) =
            .ok (found.take limit)) ∧
          (∀ number, table.call (table.seekCursor userKey snapshot) number =
            .ok found[number]?) ∧
          (table.get userKey snapshot = .ok .notFound ↔
            ∀ first ∈ found.head?, order.user.compare first.key.userKey userKey ≠ .eq) ∧
          ∀ first ∈ found.head?, order.user.compare first.key.userKey userKey = .eq →
            table.get userKey snapshot =
              .ok (match first.key.kind with
                | .value => .found first.value
                | .deletion => .deleted) := by
  have hempty := holds_empty order (Arena.sound_ofBlockSize blockSize hpos) heights
  obtain ⟨table, haddAll, hholds⟩ := hempty.addAll writes hwrites
  refine ⟨table, _, haddAll, hholds.versions_eq, ?_⟩
  intro userKey hkey snapshot passed visible greater found
  have hahead : table.versionsFrom (table.seekCursor userKey snapshot) = found :=
    hholds.versionsFrom_seekCursor_eq_append hkey snapshot
  have hcursor := hholds.seekCursor_within userKey snapshot
  have hseek := hholds.seek_eq userKey snapshot
  have htake := hholds.take_eq hcursor
  have hcall := hholds.call_eq hcursor
  have hget := hholds.get_eq_ofFirst userKey snapshot
  rw [hahead] at hseek htake hcall hget
  refine ⟨?_, ?_, hseek, htake, hcall, ?_, ?_⟩
  · rw [← hahead, hholds.versionsFrom_seekCursor_eq_filter hkey]
    refine eq_filter_append_filter (hholds.pairwise_precedes.imp ?_)
    intro version other hprecedes hpassed
    exact decide_eq_true ((of_decide_eq_true hpassed).of_precedes hprecedes)
  · refine (hholds.pairwise_precedes.filter _).imp_of_mem ?_
    intro newer older hnewer holder hprecedes
    exact hprecedes.newer (of_decide_eq_true (List.mem_filter.mp hnewer).2)
      (of_decide_eq_true (List.mem_filter.mp holder).2)
  · rw [hget, Except.ok.injEq]
    exact Lookup.ofFirst_eq_notFound_iff
  · intro first hfirst hequal
    have hdecided : Lookup.ofFirst order.user userKey (some first) = _ := if_pos hequal
    rw [hget, Option.mem_def.mp hfirst]
    exact congrArg Except.ok hdecided

/-- A snapshot at the number of a value and a deletion, with a newer version of the key, one of a
lesser key and one of a greater key that is newer still. -/
theorem seek_lists_visible_suffix_sharedNumber :
    ∃ table versions,
      (empty ⟨⟨"caseless", Bytes.compareCaseless⟩⟩ (Arena.ofBlockSize 64 (by decide))
        (Height.draw 7)).addAll
          [⟨9, .deletion, [107], []⟩, ⟨12, .value, [107], [49]⟩, ⟨9, .value, [75], [50]⟩,
            ⟨20, .value, [108], [51]⟩, ⟨3, .value, [97], [52]⟩] = .ok table ∧
      table.seek [107] 9 = .ok versions ∧
      versions.map Version.value = [[50], [], [51]] ∧
      table.call (table.seekCursor [107] 9) 1 =
        .ok (some ⟨[107, 0, 9, 0, 0, 0, 0, 0, 0], ⟨[107], 9, .deletion⟩, []⟩) ∧
      table.call (table.seekCursor [107] 9) 3 = .ok none ∧
      table.get [107] 9 = .ok (.found [50]) ∧
      table.get [109] 9 = .ok .notFound := by
  obtain ⟨table, versions, haddAll, hversions, hseek⟩ :=
    @seek_lists_visible_suffix ⟨⟨"caseless", Bytes.compareCaseless⟩⟩ transCmp_caseless 64
      (by decide) (Height.draw 7)
      [⟨9, .deletion, [107], []⟩, ⟨12, .value, [107], [49]⟩, ⟨9, .value, [75], [50]⟩,
        ⟨20, .value, [108], [51]⟩, ⟨3, .value, [97], [52]⟩] (by decide)
  have hlisted : (do
      let table ← (empty ⟨⟨"caseless", Bytes.compareCaseless⟩⟩
        (Arena.ofBlockSize 64 (by decide)) (Height.draw 7)).addAll
          [⟨9, .deletion, [107], []⟩, ⟨12, .value, [107], [49]⟩, ⟨9, .value, [75], [50]⟩,
            ⟨20, .value, [108], [51]⟩, ⟨3, .value, [97], [52]⟩]
      table.versions) = Except.ok
        [⟨[97, 1, 3, 0, 0, 0, 0, 0, 0], ⟨[97], 3, .value⟩, [52]⟩,
          ⟨[107, 1, 12, 0, 0, 0, 0, 0, 0], ⟨[107], 12, .value⟩, [49]⟩,
          ⟨[75, 1, 9, 0, 0, 0, 0, 0, 0], ⟨[75], 9, .value⟩, [50]⟩,
          ⟨[107, 0, 9, 0, 0, 0, 0, 0, 0], ⟨[107], 9, .deletion⟩, []⟩,
          ⟨[108, 1, 20, 0, 0, 0, 0, 0, 0], ⟨[108], 20, .value⟩, [51]⟩] := by
    decide +kernel
  rw [haddAll] at hlisted
  obtain rfl := Except.ok.inj (hversions.symm.trans hlisted)
  obtain ⟨-, -, hfound, -, hcalls, -, hget⟩ := hseek [107] (by decide) 9
  obtain ⟨-, -, -, -, -, hnotFound, -⟩ := hseek [109] (by decide) 9
  refine ⟨table, _, haddAll, hfound, by decide, hcalls 1, hcalls 3, ?_,
    hnotFound.mpr (by decide)⟩
  exact hget ⟨[75, 1, 9, 0, 0, 0, 0, 0, 0], ⟨[75], 9, .value⟩, [50]⟩ (by decide) (by decide)

end MemTable

end LsmStore
