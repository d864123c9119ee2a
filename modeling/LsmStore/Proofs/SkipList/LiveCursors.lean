import LsmStore.Proofs.SkipList.SortedSet

/-!
# Cursors stay where they are

Elements are never removed, so a cursor keeps its element whatever is inserted.  What
lies ahead of it are the keys from its element on.  Moving the cursor takes the first
of them away, and an insertion can only add its key to them, somewhere behind the
first: what comes right in front of the element of a cursor is not seen by it, and
neither is anything by a cursor at the end.
-/

namespace LsmStore.SkipList

variable {Key : Type} {list : SkipList Key} {elements front back : List Nat} {cursor : Cursor}

/-- Whether a cursor is at an element of the list or at the end. -/
def Cursor.Within (list : SkipList Key) (cursor : Cursor) : Prop :=
  ∀ index ∈ cursor.element?, index < list.towers.size

theorem Cursor.atEnd_within
    (list : SkipList Key) :
    Cursor.atEnd.Within list := by
  intro index hindex
  cases hindex

namespace Woven

/-! ## What lies ahead of a cursor -/

theorem within_of_split
    (h : Woven list elements) (hsplit : elements = front ++ back) :
    Cursor.Within list ⟨back.head?⟩ := by
  intro index hindex
  apply h.mem_iff.mp
  rw [hsplit]
  exact List.mem_append_right _ (List.mem_of_mem_head? hindex)

theorem exists_split
    (h : Woven list elements) (hcursor : cursor.Within list) :
    ∃ front back, elements = front ++ back ∧ cursor = ⟨back.head?⟩ := by
  obtain ⟨element?⟩ := cursor
  cases element? with
  | none => exact ⟨elements, [], by simp, rfl⟩
  | some index =>
    obtain ⟨front, back, hsplit⟩ := List.append_of_mem (h.mem_iff.mpr (hcursor index rfl))
    exact ⟨front, index :: back, hsplit, rfl⟩

theorem first_within
    (h : Woven list elements) :
    list.first.Within list := by
  rw [h.first_eq]
  exact h.within_of_split (List.nil_append elements).symm

theorem seek?_within
    (h : Woven list elements) (before : Key → Bool) :
    Cursor.Within list ⟨list.seek? before⟩ := by
  obtain ⟨front, back, hsplit, hseek, -, -⟩ := h.seek?_eq before
  rw [hseek]
  exact h.within_of_split hsplit

theorem key?_eq_head?
    (h : Woven list elements) (hcursor : cursor.Within list) :
    list.key? cursor = (list.keysFrom cursor).head? := by
  obtain ⟨front, back, hsplit, rfl⟩ := h.exists_split hcursor
  rw [h.keysFrom_eq hsplit, h.key?_head? hsplit]

theorem advance_spec
    (h : Woven list elements) (hcursor : cursor.Within list) :
    (list.advance cursor).Within list ∧
      list.keysFrom (list.advance cursor) = (list.keysFrom cursor).tail := by
  obtain ⟨front, back, hsplit, rfl⟩ := h.exists_split hcursor
  cases back with
  | nil =>
    have hstay : list.advance ⟨([] : List Nat).head?⟩ = ⟨([] : List Nat).head?⟩ := rfl
    rw [hstay, h.keysFrom_eq hsplit]
    exact ⟨hcursor, rfl⟩
  | cons index back =>
    obtain ⟨key, hkey⟩ := h.exists_key (show index ∈ elements by simp [hsplit])
    have hsplit' : elements = (front ++ [index]) ++ back := by simp [hsplit]
    rw [List.head?_cons, h.advance_eq hsplit]
    constructor
    · exact h.within_of_split hsplit'
    · rw [h.keysFrom_eq hsplit', ← List.head?_cons, h.keysFrom_eq hsplit, List.filterMap_cons, hkey,
        List.tail_cons]

theorem take_eq_take_keysFrom
    (h : Woven list elements) (hcursor : cursor.Within list) (limit : Nat) :
    list.take limit cursor = (list.keysFrom cursor).take limit := by
  obtain ⟨front, back, hsplit, rfl⟩ := h.exists_split hcursor
  rw [h.take_eq limit hsplit, h.keysFrom_eq hsplit]

theorem mem_toList_of_mem_keysFrom
    (h : Woven list elements) (hcursor : cursor.Within list) {key : Key}
    (hkey : key ∈ list.keysFrom cursor) :
    key ∈ list.toList := by
  obtain ⟨front, back, hsplit, rfl⟩ := h.exists_split hcursor
  rw [h.keysFrom_eq hsplit] at hkey
  rw [h.toList_eq_append hsplit]
  exact List.mem_append_right _ hkey

/-! ## Insertions -/

theorem within_insert
    (h : Woven list elements) (hcursor : cursor.Within list) (key : Key) :
    cursor.Within (list.insert key).2 := by
  intro index hindex
  have hold := hcursor index hindex
  rcases h.insert_cases_elements key with hsame | ⟨front, back, hsplit, hnext, -, -⟩
  · rwa [hsame]
  · apply hnext.mem_iff.mp
    have hmember := h.mem_iff.mpr hold
    rw [hsplit] at hmember
    rcases List.mem_append.mp hmember with hfront | hback
    · exact List.mem_append_left _ hfront
    · exact List.mem_append_right _ (List.mem_cons_of_mem _ hback)

/-- An insertion leaves what lies ahead of a cursor as it is, or adds its key behind the first
of the keys that lie ahead. -/
theorem keysFrom_insert_cases
    (h : Woven list elements) (hcursor : cursor.Within list) (key : Key) :
    (list.insert key).2.keysFrom cursor = list.keysFrom cursor ∨
      ∃ first before after, list.keysFrom cursor = first :: (before ++ after) ∧
        (list.insert key).2.keysFrom cursor = first :: (before ++ key :: after) := by
  rcases h.insert_cases_elements key with hsame | ⟨passed, ahead, hplace, hnext, hnew, hold⟩
  · left
    rw [hsame]
  obtain ⟨front, back, hsplit, rfl⟩ := h.exists_split hcursor
  have hkept : ∀ indices : List Nat, (∀ index ∈ indices, index ∈ back) →
      indices.filterMap (list.insert key).2.keyAt? = indices.filterMap list.keyAt? := by
    intro indices hindices
    apply hold
    intro index hindex
    rw [hsplit]
    exact List.mem_append_right _ (hindices index hindex)
  -- The new element lies behind the element of the cursor or not.
  rcases List.append_eq_append_iff.mp (hplace.symm.trans hsplit) with
    ⟨skipped, rfl, rfl⟩ | ⟨more, rfl, rfl⟩
  · left
    have hsplit' : passed ++ list.towers.size :: (skipped ++ back) =
        (passed ++ list.towers.size :: skipped) ++ back := by simp
    rw [hnext.keysFrom_eq hsplit', h.keysFrom_eq hsplit]
    exact hkept back fun index hindex => hindex
  · cases more with
    | nil =>
      left
      have hsplit' : front ++ [] ++ list.towers.size :: ahead =
          (front ++ [list.towers.size]) ++ ahead := by simp
      rw [List.nil_append] at hsplit ⊢
      rw [hnext.keysFrom_eq hsplit', h.keysFrom_eq hsplit]
      exact hkept ahead (by simp)
    | cons index more =>
      right
      obtain ⟨first, hfirst⟩ := h.exists_key (show index ∈ elements by simp [hsplit])
      have hsplit' : front ++ index :: more ++ list.towers.size :: ahead =
          front ++ (index :: more ++ list.towers.size :: ahead) := by simp
      have hhead : (index :: more ++ ahead).head? =
          (index :: more ++ list.towers.size :: ahead).head? := rfl
      have hmore := hkept (index :: more) fun other hother => List.mem_append_left _ hother
      have hahead := hkept ahead fun other hother => List.mem_append_right _ hother
      refine ⟨first, more.filterMap list.keyAt?, ahead.filterMap list.keyAt?, ?_, ?_⟩
      · rw [h.keysFrom_eq hsplit, List.filterMap_append, List.filterMap_cons, hfirst,
          List.cons_append]
      · have hadded : (list.towers.size :: ahead).filterMap (list.insert key).2.keyAt? =
            key :: ahead.filterMap list.keyAt? := by
          rw [List.filterMap_cons, hnew, hahead]
        rw [hhead, hnext.keysFrom_eq hsplit', List.filterMap_append, hmore, hadded,
          List.filterMap_cons, hfirst, List.cons_append]

end Woven

end LsmStore.SkipList
