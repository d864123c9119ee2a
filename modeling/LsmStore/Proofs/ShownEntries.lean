import LsmStore.Proofs.Inspector

/-!
# Entry lines tell their entries

A line for an entry has no marks between its parts that could not also stand in a key or in
a value.  It can be taken apart from the left nevertheless.  The offset ends at a blank, and
a key is shown so that the blank behind it is told from the blanks in it.  So two entries
with the same line are the same entry, whatever is in them.
-/

namespace LsmStore.Inspector

open Text

theorem dropWhile_alignedOffset
    (offset : Nat) (rest : List Char) :
    (alignedOffset offset ++ rest).dropWhile (· == ' ') = Nat.toDigits 10 offset ++ rest := by
  have hblank := not_mem_toDigits (show 1 < 10 by decide)
    (fun _ => Nat.digitChar_ne ' ' rfl) offset
  have haligned : ∀ c ∈ List.replicate (6 - (Nat.toDigits 10 offset).length) ' ',
      (c == ' ') = true := by
    intro c hc
    rw [List.eq_of_mem_replicate hc]
    rfl
  rw [alignedOffset, List.append_assoc, List.dropWhile_append_of_pos haligned]
  cases hdigits : Nat.toDigits 10 offset with
  | nil => exact absurd hdigits Nat.toDigits_ne_nil
  | cons digit digits =>
    rw [hdigits] at hblank
    have hdigit : ¬ (digit == ' ') = true := by
      rw [beq_iff_eq]
      rintro rfl
      exact hblank List.mem_cons_self
    rw [List.cons_append, List.dropWhile_cons, if_neg hdigit]

/-- An offset can be told from its place in a line, up to the blank behind it. -/
theorem alignedOffset_unique
    {offset other : Nat} {rest otherRest : List Char}
    (h : alignedOffset offset ++ ' ' :: rest = alignedOffset other ++ ' ' :: otherRest) :
    offset = other ∧ rest = otherRest := by
  have hblank : ∀ number, ' ' ∉ Nat.toDigits 10 number :=
    not_mem_toDigits (by decide) fun _ => Nat.digitChar_ne ' ' rfl
  have hdropped := congrArg (List.dropWhile (· == ' ')) h
  rw [dropWhile_alignedOffset, dropWhile_alignedOffset] at hdropped
  obtain ⟨hdigits, hrest⟩ := eq_of_append_cons (hblank offset) (hblank other) hdropped
  exact ⟨eq_of_toDigits_eq (by decide) (by decide) hdigits, hrest⟩

/-- The lines that an entry may have: its key and its value may be shown in any way. -/
inductive EntryShownAs : Block.Visit → List Char → Prop where
  | mk {offset : Nat} {key value : Bytes} {keyText valueText : List Char}
    (hkey : ShownAs key keyText) (hvalue : ShownAs value valueText) :
    EntryShownAs ⟨offset, key, value⟩ ([' ', ' '] ++ alignedOffset offset ++ [' ', ' '] ++
      keyText ++ [' ', '=', '>', ' '] ++ valueText)

theorem entryShownAs_entryText
    (visit : Block.Visit) :
    EntryShownAs visit (entryText visit) :=
  .mk (shownAs_showBytes visit.key) (shownAs_showBytes visit.value)

theorem EntryShownAs.unique
    {visit other : Block.Visit} {text : List Char} (h : EntryShownAs visit text)
    (hother : EntryShownAs other text) :
    visit = other := by
  generalize hsame : text = otherText at hother
  obtain ⟨hkey, hvalue⟩ := h
  obtain ⟨hotherKey, hotherValue⟩ := hother
  simp only [List.append_assoc, List.cons_append, List.nil_append, List.cons.injEq,
    true_and] at hsame
  obtain ⟨rfl, hbehind⟩ := alignedOffset_unique hsame
  obtain ⟨rfl, harrow⟩ := hkey.unique_of_blank hotherKey (List.cons.inj hbehind).2
  simp only [List.cons.injEq, true_and] at harrow
  obtain rfl := harrow
  rw [hvalue.unique hotherValue]

/-- What is shown of bytes is shown of no other bytes, and the line of an entry is the line of no
other entry.  This holds of every way of showing bytes in which a character stands for itself or
has one of its escaped forms, a quote and a backslash always the latter, and what is not shown as
a text is shown in hexadecimal; the inspector shows them in such a way. -/
theorem shown_entries_are_unambiguous :
    (∀ a b : Bytes, showBytes a = showBytes b → a = b) ∧
      (∀ visit other : Block.Visit, entryLine visit = entryLine other → visit = other) ∧
      (∀ bytes : Bytes, ShownAs bytes (showBytes bytes)) ∧
      (∀ (a b : Bytes) (text : List Char), ShownAs a text → ShownAs b text → a = b) ∧
      ∀ (visit other : Block.Visit) (text : List Char),
        EntryShownAs visit text → EntryShownAs other text → visit = other := by
  refine ⟨?_, ?_, shownAs_showBytes, fun _ _ _ => ShownAs.unique, fun _ _ _ => EntryShownAs.unique⟩
  · intro a b hsame
    have hother := shownAs_showBytes b
    rw [← hsame] at hother
    exact (shownAs_showBytes a).unique hother
  · intro visit other hsame
    have hlines := congrArg String.toList hsame
    rw [toList_entryLine, toList_entryLine] at hlines
    have hother := entryShownAs_entryText other
    rw [← List.append_cancel_right hlines] at hother
    exact (entryShownAs_entryText visit).unique hother

/-- A line end that is shown by its code point, and what looks like it; an escaped line end and an
escaped backslash before a letter; bytes that are no text, and their digits as a text; and an arrow
between quotes, now in the key and now in the value. -/
theorem shown_entries_are_unambiguous_lookalikes :
    ShownAs [97, 10] ['"', 'a', '\\', 'u', '\x7b', 'a', '\x7d', '"'] ∧
      ¬ ShownAs [97, 92, 117, 123, 97, 125] ['"', 'a', '\\', 'u', '\x7b', 'a', '\x7d', '"'] ∧
      showBytes [10] ≠ showBytes [92, 110] ∧
      showBytes [255, 10] ≠ showBytes [102, 102, 48, 97] ∧
      entryLine ⟨0, [97, 34, 32, 61, 62, 32, 34, 98], [99]⟩ ≠
        entryLine ⟨0, [97], [98, 34, 32, 61, 62, 32, 34, 99]⟩ := by
  obtain ⟨hbytes, hlines, -, hshown, -⟩ := shown_entries_are_unambiguous
  have hcode : ShownAs [97, 10] ['"', 'a', '\\', 'u', '\x7b', 'a', '\x7d', '"'] := by
    have hforms : Forms ['a', '\n'] (['a'] ++ (escapeCode '\n' ++ [])) :=
      .cons (.plain (by decide) (by decide)) (.cons .code .nil)
    exact .quoted (show "a\n".toByteArray = [97, 10].toByteArray by decide) hforms
  refine ⟨hcode, ?_, ?_, ?_, ?_⟩
  · intro hlookalike
    exact absurd (hshown _ _ _ hcode hlookalike) (by decide)
  · exact fun hsame => absurd (hbytes _ _ hsame) (by decide)
  · exact fun hsame => absurd (hbytes _ _ hsame) (by decide)
  · exact fun hsame => absurd (hlines _ _ hsame) (by decide)

end LsmStore.Inspector
