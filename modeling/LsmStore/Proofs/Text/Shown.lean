import Mathlib.Tactic.SplitIfs
import LsmStore.Text.Quoted

/-!
# Shown bytes can be told apart

A format for quoted texts shows a character as itself or in an escaped form.  Which
characters it shows as themselves is left open, but for the quote and the backslash, which
it always escapes.  Then no form is the beginning of another and none begins with a quote,
so a quoted text ends at the first quote that is not part of a form, and its characters can
be told from what stands before it.  Bytes in hexadecimal contain no quote at all, so they
cannot be taken for a quoted text, and no blank, so they end at the first one.
-/

namespace LsmStore.Text

/-- What stands before the first occurrence of a mark, and what stands behind it. -/
theorem eq_of_append_cons
    {mark : Char} {front other rest otherRest : List Char} (hfront : mark ∉ front)
    (hother : mark ∉ other) (h : front ++ mark :: rest = other ++ mark :: otherRest) :
    front = other ∧ rest = otherRest := by
  induction front generalizing other with
  | nil =>
    cases other with
    | nil => exact ⟨rfl, (List.cons.inj h).2⟩
    | cons c other =>
      have hfirst : mark = c := (List.cons.inj h).1
      exact absurd (hfirst ▸ List.mem_cons_self) hother
  | cons c front ih =>
    cases other with
    | nil =>
      have hfirst : c = mark := (List.cons.inj h).1
      exact absurd (hfirst ▸ List.mem_cons_self) hfront
    | cons d other =>
      obtain ⟨rfl, htail⟩ := List.cons.inj h
      obtain ⟨rfl, hrest⟩ := ih (List.not_mem_of_not_mem_cons hfront)
        (List.not_mem_of_not_mem_cons hother) htail
      exact ⟨rfl, hrest⟩

/-! ## Digits -/

theorem eq_of_digitChar_eq
    {digit other : Nat} (hdigit : digit < 16) (hother : other < 16)
    (h : Nat.digitChar digit = Nat.digitChar other) :
    digit = other := by
  have hall : ∀ digit other : Fin 16, Nat.digitChar digit = Nat.digitChar other →
      digit = other := by
    decide
  exact congrArg Fin.val (hall ⟨digit, hdigit⟩ ⟨other, hother⟩ h)

theorem not_mem_toDigits
    {base : Nat} (hbase : 1 < base) {c : Char} (hc : ∀ digit, Nat.digitChar digit ≠ c)
    (number : Nat) :
    c ∉ Nat.toDigits base number := by
  induction number using Nat.strongRecOn with
  | ind number ih =>
    rw [Nat.toDigits_eq_if hbase]
    by_cases hsmall : number < base
    · rw [if_pos hsmall, List.mem_singleton]
      exact (hc number).symm
    · rw [if_neg hsmall, List.mem_append, List.mem_singleton]
      rintro (hfront | hlast)
      · exact ih _ (Nat.div_lt_self (by omega) hbase) hfront
      · exact hc _ hlast.symm

theorem eq_of_toDigits_eq
    {base : Nat} (hbase : 1 < base) (hmax : base ≤ 16) {number other : Nat}
    (h : Nat.toDigits base number = Nat.toDigits base other) :
    number = other := by
  induction number using Nat.strongRecOn generalizing other with
  | ind number ih =>
    have hsmall_iff : number < base ↔ other < base := by
      have hone := Nat.length_toDigits_le_iff (n := number) hbase Nat.one_pos
      have hotherOne := Nat.length_toDigits_le_iff (n := other) hbase Nat.one_pos
      rw [Nat.pow_one] at hone hotherOne
      rw [← hone, ← hotherOne, h]
    by_cases hsmall : number < base
    · have hotherSmall := hsmall_iff.mp hsmall
      rw [Nat.toDigits_of_lt_base hsmall, Nat.toDigits_of_lt_base hotherSmall] at h
      exact eq_of_digitChar_eq (by omega) (by omega) (List.cons.inj h).1
    · have hotherLarge := Nat.le_of_not_lt (mt hsmall_iff.mpr hsmall)
      rw [Nat.toDigits_of_base_le hbase (Nat.le_of_not_lt hsmall),
        Nat.toDigits_of_base_le hbase hotherLarge] at h
      obtain ⟨hfront, hlast⟩ := List.append_inj' h rfl
      have hquotient := ih _ (Nat.div_lt_self (by omega) hbase) hfront
      have hless := Nat.mod_lt number (show 0 < base by omega)
      have hotherLess := Nat.mod_lt other (show 0 < base by omega)
      have hremainder := eq_of_digitChar_eq (by omega) (by omega) (List.cons.inj hlast).1
      rw [← Nat.div_add_mod number base, ← Nat.div_add_mod other base, hquotient, hremainder]

theorem not_mem_hex
    {c : Char} (hc : ∀ digit, Nat.digitChar digit ≠ c) (bytes : Bytes) :
    c ∉ Bytes.hex bytes := by
  intro hmem
  obtain ⟨byte, -, hmem⟩ := List.mem_flatMap.mp hmem
  rcases List.mem_cons.mp hmem with hhigh | hlow
  · exact hc _ hhigh.symm
  · exact hc _ (List.mem_singleton.mp hlow).symm

theorem eq_of_hex_eq
    {bytes other : Bytes} (h : Bytes.hex bytes = Bytes.hex other) :
    bytes = other := by
  induction bytes generalizing other with
  | nil =>
    cases other with
    | nil => rfl
    | cons byte other => cases h
  | cons byte bytes ih =>
    cases other with
    | nil => cases h
    | cons otherByte other =>
      obtain ⟨hhigh, htail⟩ := List.cons.inj h
      obtain ⟨hlow, hrest⟩ := List.cons.inj htail
      have hless := byte.toNat_lt
      have hotherLess := otherByte.toNat_lt
      have hquotient := eq_of_digitChar_eq (by omega) (by omega) hhigh
      have hremainder := eq_of_digitChar_eq (by omega) (by omega) hlow
      have hbyte : byte = otherByte := UInt8.toNat_inj.mp (by omega)
      rw [hbyte, ih hrest]

/-! ## Forms of characters -/

/-- The characters that have an escaped form of two characters, each with the second of these. -/
def escapeLetters : List (Char × Char) :=
  [('\x00', '0'), ('\t', 't'), ('\r', 'r'), ('\n', 'n'), ('"', '"'), ('\\', '\\')]

/-- The forms that a character may have between quotes. -/
inductive Form (c : Char) : List Char → Prop where
  /-- The character itself. -/
  | plain (hquote : c ≠ '"') (hbackslash : c ≠ '\\') : Form c [c]
  /-- A backslash and a letter. -/
  | letter {letter : Char} (hletter : (c, letter) ∈ escapeLetters) : Form c ['\\', letter]
  /-- The code point in braces. -/
  | code : Form c (escapeCode c)

theorem form_escape
    (c : Char) :
    Form c (escape c) := by
  rw [escape]
  split_ifs with hnull htab hreturn hnewline hquote hbackslash
  · exact .letter (by simp [escapeLetters, hnull])
  · exact .letter (by simp [escapeLetters, htab])
  · exact .letter (by simp [escapeLetters, hreturn])
  · exact .letter (by simp [escapeLetters, hnewline])
  · exact .letter (by simp [escapeLetters, hquote])
  · exact .letter (by simp [escapeLetters, hbackslash])
  · exact .plain hquote hbackslash
  · exact .code

theorem eq_of_escapeLetters
    {c d letter : Char} (hc : (c, letter) ∈ escapeLetters) (hd : (d, letter) ∈ escapeLetters) :
    c = d := by
  have hall : ∀ first ∈ escapeLetters, ∀ second ∈ escapeLetters,
      first.2 = second.2 → first.1 = second.1 := by
    decide
  exact hall _ hc _ hd rfl

theorem letter_ne_of_escapeLetters
    {c letter : Char} (h : (c, letter) ∈ escapeLetters) :
    letter ≠ 'u' := by
  have hall : ∀ pair ∈ escapeLetters, pair.2 ≠ 'u' := by
    decide
  exact hall _ h

theorem eq_of_escapeCode_append
    {c d : Char} {rest otherRest : List Char}
    (h : escapeCode c ++ rest = escapeCode d ++ otherRest) :
    c = d ∧ rest = otherRest := by
  have hbrace : ∀ c : Char, '\x7d' ∉ Nat.toDigits 16 c.toNat := fun c =>
    not_mem_toDigits (by decide) (fun _ => Nat.digitChar_ne '\x7d' rfl) c.toNat
  have hdigits : Nat.toDigits 16 c.toNat ++ '\x7d' :: rest =
      Nat.toDigits 16 d.toNat ++ '\x7d' :: otherRest := by
    simpa [escapeCode] using h
  obtain ⟨hcode, hrest⟩ := eq_of_append_cons (hbrace c) (hbrace d) hdigits
  exact ⟨Char.toNat_inj.mp (eq_of_toDigits_eq (by decide) (by decide) hcode), hrest⟩

/-- No form is the beginning of another one, and each is the form of one character. -/
theorem Form.unique
    {c d : Char} {form otherForm rest otherRest : List Char} (hc : Form c form)
    (hd : Form d otherForm) (h : form ++ rest = otherForm ++ otherRest) :
    c = d ∧ rest = otherRest := by
  cases hc with
  | plain _ hbackslash =>
    cases hd with
    | plain => exact List.cons.inj h
    | letter => exact absurd (List.cons.inj h).1 hbackslash
    | code => exact absurd (List.cons.inj h).1 hbackslash
  | letter hletter =>
    cases hd with
    | plain _ hbackslash => exact absurd (List.cons.inj h).1.symm hbackslash
    | letter hother =>
      obtain ⟨rfl, hrest⟩ := List.cons.inj (List.cons.inj h).2
      exact ⟨eq_of_escapeLetters hletter hother, hrest⟩
    | code =>
      exact absurd (List.cons.inj (List.cons.inj h).2).1 (letter_ne_of_escapeLetters hletter)
  | code =>
    cases hd with
    | plain _ hbackslash => exact absurd (List.cons.inj h).1.symm hbackslash
    | letter hother =>
      exact absurd (List.cons.inj (List.cons.inj h).2).1.symm (letter_ne_of_escapeLetters hother)
    | code => exact eq_of_escapeCode_append h

theorem Form.exists_eq_cons
    {c : Char} {form : List Char} (h : Form c form) :
    ∃ first others, form = first :: others ∧ first ≠ '"' := by
  cases h with
  | plain hquote => exact ⟨c, [], rfl, hquote⟩
  | letter => exact ⟨'\\', _, rfl, by decide⟩
  | code => exact ⟨'\\', _, rfl, by decide⟩

/-! ## Quoted texts -/

/-- What may stand between the quotes for a text: a form for each of its characters. -/
inductive Forms : List Char → List Char → Prop where
  | nil : Forms [] []
  | cons {c : Char} {form text forms : List Char} (hform : Form c form)
    (hforms : Forms text forms) : Forms (c :: text) (form ++ forms)

theorem forms_escape
    (text : List Char) :
    Forms text (text.flatMap escape) := by
  induction text with
  | nil => exact .nil
  | cons c text ih => exact .cons (form_escape c) ih

/-- A text can be told from its forms up to the quote that ends it. -/
theorem Forms.unique
    {text other forms otherForms rest otherRest : List Char} (h : Forms text forms)
    (hother : Forms other otherForms)
    (hsame : forms ++ '"' :: rest = otherForms ++ '"' :: otherRest) :
    text = other ∧ rest = otherRest := by
  induction h generalizing other otherForms with
  | nil =>
    cases hother with
    | nil => exact ⟨rfl, (List.cons.inj hsame).2⟩
    | cons hform _ =>
      obtain ⟨first, others, rfl, hfirst⟩ := hform.exists_eq_cons
      exact absurd (List.cons.inj hsame).1.symm hfirst
  | cons hform hforms ih =>
    cases hother with
    | nil =>
      obtain ⟨first, others, rfl, hfirst⟩ := hform.exists_eq_cons
      exact absurd (List.cons.inj hsame).1 hfirst
    | cons hotherForm hotherForms =>
      rw [List.append_assoc, List.append_assoc] at hsame
      obtain ⟨rfl, htail⟩ := hform.unique hotherForm hsame
      obtain ⟨rfl, hrest⟩ := ih hotherForms htail
      exact ⟨rfl, hrest⟩

/-! ## Shown bytes -/

/-- The ways in which bytes may be shown. -/
inductive ShownAs (bytes : Bytes) : List Char → Prop where
  /-- As a quoted text of which they are the UTF-8 form. -/
  | quoted {text : String} {forms : List Char} (htext : text.toByteArray = bytes.toByteArray)
    (hforms : Forms text.toList forms) : ShownAs bytes ('"' :: (forms ++ ['"']))
  /-- In hexadecimal. -/
  | hex : ShownAs bytes (Bytes.hex bytes)

theorem shownAs_showBytes
    (bytes : Bytes) :
    ShownAs bytes (showBytes bytes) := by
  rw [showBytes]
  cases htext : String.fromUTF8? bytes.toByteArray with
  | some text =>
    rw [String.fromUTF8?] at htext
    split at htext
    · cases htext
      exact .quoted rfl (forms_escape _)
    · cases htext
  | none => exact .hex

/-- Hexadecimal cannot be taken for the beginning of a quoted text. -/
theorem quoted_ne_hex
    (text : List Char) (bytes : Bytes) (rest : List Char) :
    '"' :: text ≠ Bytes.hex bytes ++ ' ' :: rest := by
  intro hsame
  have hquote := not_mem_hex (fun _ => Nat.digitChar_ne '"' rfl) bytes
  cases hhex : Bytes.hex bytes with
  | nil =>
    rw [hhex] at hsame
    exact absurd (List.cons.inj hsame).1 (by decide)
  | cons digit digits =>
    rw [hhex] at hsame hquote
    exact hquote (List.mem_cons.mpr (.inl (List.cons.inj hsame).1))

/-- Bytes can be told from what is shown of them up to a blank, whatever follows it. -/
theorem ShownAs.unique_of_blank
    {bytes other : Bytes} {text otherText rest otherRest : List Char} (h : ShownAs bytes text)
    (hother : ShownAs other otherText)
    (hsame : text ++ ' ' :: rest = otherText ++ ' ' :: otherRest) :
    bytes = other ∧ rest = otherRest := by
  cases h with
  | @quoted text forms htext hforms =>
    cases hother with
    | @quoted otherText otherForms hotherText hotherForms =>
      have hquoted : forms ++ '"' :: (' ' :: rest) = otherForms ++ '"' :: (' ' :: otherRest) := by
        simpa using hsame
      obtain ⟨hchars, hblank⟩ := hforms.unique hotherForms hquoted
      have htexts : text.toByteArray = otherText.toByteArray :=
        String.toByteArray_inj.mpr (String.toList_inj.mp hchars)
      have hbytes := htext.symm.trans (htexts.trans hotherText)
      exact ⟨List.toByteArray_inj.mp hbytes, (List.cons.inj hblank).2⟩
    | hex => exact absurd hsame (quoted_ne_hex _ other otherRest)
  | hex =>
    cases hother with
    | quoted => exact absurd hsame.symm (quoted_ne_hex _ bytes rest)
    | hex =>
      have hblank : ∀ bytes, ' ' ∉ Bytes.hex bytes :=
        not_mem_hex fun _ => Nat.digitChar_ne ' ' rfl
      obtain ⟨hhex, hrest⟩ := eq_of_append_cons (hblank bytes) (hblank other) hsame
      exact ⟨eq_of_hex_eq hhex, hrest⟩

theorem ShownAs.unique
    {bytes other : Bytes} {text : List Char} (h : ShownAs bytes text)
    (hother : ShownAs other text) :
    bytes = other := by
  have hsame : text ++ [' '] = text ++ [' '] := rfl
  exact (h.unique_of_blank hother hsame).1

end LsmStore.Text
