import LsmStore.MemTable.Basic

/-!
# Write histories

What a read must answer is a matter of the writes alone.  A snapshot sees the
writes to an equivalent key whose numbers are not above it.  Of those the newest
one counts: the one with the highest number, a value before a deletion under one
number, and the earliest write of one version.
-/

namespace LsmStore

namespace Write

/-- Whether a write concerns a key and is seen by a snapshot. -/
def isVisible (order : Comparator) (userKey : Bytes) (snapshot : Nat) (write : Write) : Bool :=
  order.compare write.key userKey == .eq && write.sequence ≤ snapshot

/-- Whether a write stands for a newer version than another one to an equivalent key. -/
def isNewer (write other : Write) : Bool :=
  other.sequence < write.sequence ||
    other.sequence == write.sequence && other.kind.code < write.kind.code

end Write

namespace History

/-- The newest of the writes, and of several of that version the earliest. -/
def newest? : List Write → Option Write
  | [] => none
  | write :: later =>
    match newest? later with
    | none => some write
    | some other => if other.isNewer write then some other else some write

/-- What a read of a key must find after the writes. -/
def lookup
    (order : Comparator) (writes : List Write) (userKey : Bytes) (snapshot : Nat) :
    Lookup :=
  match newest? (writes.filter (Write.isVisible order userKey snapshot)) with
  | none => .notFound
  | some write =>
    match write.kind with
    | .value => .found write.value
    | .deletion => .deleted

theorem newest?_eq_none_iff
    {writes : List Write} :
    newest? writes = none ↔ writes = [] := by
  cases writes with
  | nil => simp [newest?]
  | cons write later =>
    simp only [newest?, reduceCtorEq, iff_false]
    split
    · simp
    · split <;> simp

theorem mem_of_newest?
    {writes : List Write} {write : Write}
    (hfound : newest? writes = some write) :
    write ∈ writes := by
  induction writes with
  | nil => simp [newest?] at hfound
  | cons first later ih =>
    simp only [newest?] at hfound
    split at hfound
    · simp_all
    · rename_i other hrest
      split at hfound
      · cases hfound
        exact List.mem_cons_of_mem _ (ih hrest)
      · cases hfound
        exact List.mem_cons_self

/-- No write is newer than the newest. -/
theorem not_isNewer_of_newest?
    {writes : List Write} {write other : Write}
    (hfound : newest? writes = some write) (hmember : other ∈ writes) :
    ¬ other.isNewer write = true := by
  induction writes generalizing write with
  | nil => simp at hmember
  | cons first later ih =>
    simp only [newest?] at hfound
    split at hfound
    · rename_i hlater
      cases hfound
      obtain rfl := newest?_eq_none_iff.mp hlater
      obtain rfl := List.mem_singleton.mp hmember
      simp [Write.isNewer]
    · rename_i best hrest
      split at hfound
      · rename_i hnewer
        cases hfound
        rcases List.mem_cons.mp hmember with rfl | hmember
        · simp only [Write.isNewer, Bool.or_eq_true, Bool.and_eq_true, beq_iff_eq,
            decide_eq_true_eq] at *
          omega
        · exact ih hrest hmember
      · rename_i holder
        cases hfound
        rcases List.mem_cons.mp hmember with rfl | hmember
        · simp [Write.isNewer]
        · have hbest := ih hrest hmember
          simp only [Write.isNewer, Bool.or_eq_true, Bool.and_eq_true, beq_iff_eq,
            decide_eq_true_eq] at *
          omega

end History

end LsmStore
