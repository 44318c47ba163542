import Lispette.Json.Basic
import Lispette.Proofs.DataNumeral

/-!
# Compact texts are unambiguous

The compact text of a value tells the value, and also where its text ends in a longer text. The
first character tells what form of value it is. Numbers end where no character of a number follows,
strings at the first quote that is not escaped, and lists at the bracket that stands in place of a
comma. Numbers that are not finite have no text of their own, so they are left out.
-/

namespace Lispette.Json

/-! ## Strings -/

/-- The value of a hexadecimal digit. -/
def hexValue (c : Char) : Nat := if c.isDigit then c.toNat - '0'.toNat else c.toNat - 'a'.toNat + 10

/-- Reads the character whose escape goes on as given, and leaves the rest. -/
def unmarked : List Char → Option (Char × List Char)
  | [] => none
  | 'b' :: rest => some ('\x08', rest)
  | 'f' :: rest => some ('\x0c', rest)
  | 'n' :: rest => some ('\n', rest)
  | 'r' :: rest => some ('\r', rest)
  | 't' :: rest => some ('\t', rest)
  | 'u' :: _ :: _ :: high :: low :: rest =>
    some (Char.ofNat (16 * hexValue high + hexValue low), rest)
  | c :: rest => some (c, rest)

/-- Reads one character inside a string, and leaves the rest. A bare quote is not inside. -/
def unescaped : List Char → Option (Char × List Char)
  | [] => none
  | c :: rest =>
    if c = '"' then none else if c = '\\' then unmarked rest else some (c, rest)

theorem hexValue_hexPair : ∀ n < 0x20, (hexPair n).map hexValue = [n / 16, n % 16] := by
  decide

/-- Every character is read back from its escape. -/
theorem unescaped_escaped (c : Char) (rest : List Char) :
    unescaped (escaped c ++ rest) = some (c, rest) := by
  by_cases hnamed : c ∈ ['"', '\\', '\x08', '\x0c', '\n', '\r', '\t']
  · simp only [List.mem_cons, List.not_mem_nil, or_false] at hnamed
    rcases hnamed with rfl | rfl | rfl | rfl | rfl | rfl | rfl <;> rfl
  · simp only [List.mem_cons, List.not_mem_nil, or_false, not_or] at hnamed
    obtain ⟨hquote, hbackslash, hb, hf, hn, hr, ht⟩ := hnamed
    rw [escaped, if_neg hquote, if_neg hbackslash, if_neg hb, if_neg hf, if_neg hn, if_neg hr,
      if_neg ht]
    by_cases hcontrol : c.toNat < 0x20
    · have hdigits := hexValue_hexPair c.toNat hcontrol
      simp only [hexPair, List.map_cons, List.map_nil, List.cons.injEq, and_true] at hdigits
      have hvalue : 16 * (c.toNat / 16) + c.toNat % 16 = c.toNat := Nat.div_add_mod _ _
      rw [if_pos hcontrol]
      change some (Char.ofNat (16 * hexValue (Nat.digitChar (c.toNat / 16 % 16)) +
        hexValue (Nat.digitChar (c.toNat % 16))), rest) = some (c, rest)
      rw [hdigits.1, hdigits.2, hvalue, Char.ofNat_toNat]
    · rw [if_neg hcontrol, List.singleton_append, unescaped, if_neg hquote, if_neg hbackslash]

/-- Reading one character back undoes writing it, whatever follows. -/
theorem escaped_append_inj {c d : Char} {u v : List Char} (h : escaped c ++ u = escaped d ++ v) :
    c = d ∧ u = v := by
  have hread : some (c, u) = some (d, v) := by
    rw [← unescaped_escaped, h, unescaped_escaped]
  exact Prod.mk.inj (Option.some.inj hread)

theorem escaped_append_ne_quote (c : Char) (u v : List Char) : escaped c ++ u ≠ '"' :: v := by
  intro h
  have hread : unescaped ('"' :: v) = some (c, u) := by rw [← h, unescaped_escaped]
  cases hread

/-- The first quote that is not escaped ends the string, and all characters before it are told one
by one. -/
theorem flatMap_escaped_inj {text text' u v : List Char}
    (h : text.flatMap escaped ++ '"' :: u = text'.flatMap escaped ++ '"' :: v) :
    text = text' ∧ u = v := by
  induction text generalizing text' with
  | nil =>
    cases text' with
    | nil => exact ⟨rfl, (List.cons.inj h).2⟩
    | cons d text' =>
      rw [List.flatMap_cons, List.append_assoc] at h
      exact absurd h.symm (escaped_append_ne_quote d _ u)
  | cons c text ih =>
    rw [List.flatMap_cons, List.append_assoc] at h
    cases text' with
    | nil => exact absurd h (escaped_append_ne_quote c _ v)
    | cons d text' =>
      rw [List.flatMap_cons, List.append_assoc] at h
      obtain ⟨hcd, hmore⟩ := escaped_append_inj h
      obtain ⟨htext, huv⟩ := ih hmore
      exact ⟨List.cons_eq_cons.2 ⟨hcd, htext⟩, huv⟩

theorem quoted_append (text : String) (u : List Char) :
    (quoted text).toList ++ u = '"' :: (text.toList.flatMap escaped ++ '"' :: u) := by
  rw [quoted, String.toList_ofList, List.append_assoc]
  rfl

/-- A quoted text ends at its second bare quote. -/
theorem quoted_append_inj {text text' : String} {u v : List Char}
    (h : (quoted text).toList ++ u = (quoted text').toList ++ v) : text = text' ∧ u = v := by
  rw [quoted_append, quoted_append] at h
  obtain ⟨htext, huv⟩ := flatMap_escaped_inj (List.cons.inj h).2
  exact ⟨String.toList_inj.1 htext, huv⟩

/-! ## Numbers -/

open Decimal (isNumberChar)

/-- What stands behind a value: a comma, the bracket that closes the list around it, or nothing. -/
def Ends (rest : List Char) : Prop := ∀ c ∈ rest.head?, c = ',' ∨ c = ']' ∨ c = '\x7d'

theorem Ends.not_isNumberChar {rest : List Char} (h : Ends rest) :
    ∀ c ∈ rest.head?, isNumberChar c = false := by
  intro c hc
  rcases h c hc with rfl | rfl | rfl <;> decide

theorem numberText_finite (negative : Bool) (code : Fin Binary64.finiteCodes) :
    (numberText (.finite negative code)).toList =
      (if negative then ['-'] else []) ++ (Decimal.shortest .toEven code).dataText := by
  change (Binary64.signed negative _).toList = _
  rw [Binary64.signed, String.toList_ofList]
  split <;> rfl

/-- The sign and the shortest digits tell the number. -/
theorem numberText_inj {value value' : Binary64} (hvalue : value.isFinite = true)
    (hvalue' : value'.isFinite = true)
    (h : (numberText value).toList = (numberText value').toList) : value = value' := by
  cases value with
  | infinite | nan => cases hvalue
  | finite negative code =>
    cases value' with
    | infinite | nan => cases hvalue'
    | finite negative' code' =>
      obtain ⟨c, cs, htext, hc⟩ := (Decimal.shortest .toEven code).head_dataText
      obtain ⟨c', cs', htext', hc'⟩ := (Decimal.shortest .toEven code').head_dataText
      -- Digits come first, so a sign in front of them is seen.
      have hminus : ('-').isDigit = false := by decide
      rw [numberText_finite, numberText_finite] at h
      have hsame : negative = negative' ∧ (Decimal.shortest .toEven code).dataText =
          (Decimal.shortest .toEven code').dataText := by
        cases negative <;> cases negative'
        · exact ⟨rfl, h⟩
        · rw [htext] at h
          obtain ⟨rfl, -⟩ := List.cons.inj h
          rw [hc] at hminus
          cases hminus
        · rw [htext'] at h
          obtain ⟨rfl, -⟩ := List.cons.inj h
          rw [hc'] at hminus
          cases hminus
        · exact ⟨rfl, (List.cons.inj h).2⟩
      have hcode : (code : Nat) = code' := by
        rw [← Decimal.code_shortest .toEven code, Decimal.code_eq_of_dataText_eq hsame.2,
          Decimal.code_shortest]
      rw [hsame.1, Fin.ext hcode]

theorem isNumberChar_numberText {value : Binary64} (h : value.isFinite = true) :
    ∀ c ∈ (numberText value).toList, isNumberChar c = true := by
  cases value with
  | infinite | nan => cases h
  | finite negative code =>
    rw [numberText_finite]
    refine List.forall_mem_append.2 ⟨?_, Decimal.isNumberChar_dataText _⟩
    cases negative <;> exact List.all_eq_true.1 (by decide)

theorem isNumberChar_repr (n : Nat) : ∀ c ∈ n.repr.toList, isNumberChar c = true := by
  rw [Nat.toList_repr]
  exact fun c hc ↦ Decimal.isNumberChar_of_isDigit (Decimal.isDigit_of_mem_toDigits c hc)

/-- A whole number is told from a number that may have a fraction. -/
theorem repr_ne_numberText (n : Nat) {value : Binary64} (h : value.isFinite = true) :
    n.repr.toList ≠ (numberText value).toList := by
  cases value with
  | infinite | nan => cases h
  | finite negative code =>
    obtain ⟨c, hc, hmark⟩ := (Decimal.shortest .toEven code).exists_mark_dataText
    intro htext
    rw [Nat.toList_repr, numberText_finite] at htext
    have hdigit : c.isDigit = true :=
      Decimal.isDigit_of_mem_toDigits (n := n) c (htext ▸ List.mem_append_right _ hc)
    rw [hmark] at hdigit
    cases hdigit

/-! ## Lists -/

section

variable {α : Type} {text : α → List Char} {P : α → Prop} {closing : Char}

/-- Before anything that may stand behind it, the text of the item tells the item and its end. -/
def Told (text : α → List Char) (P : α → Prop) (a : α) : Prop :=
  ∀ b, P b → ∀ u v, Ends u → Ends v → text a ++ u = text b ++ v → a = b ∧ u = v

/-- With the comma counted to the item behind it, the list is one item followed by the others. -/
theorem intercalate_cons (x : List Char) (xs : List (List Char)) :
    [','].intercalate (x :: xs) = x ++ xs.flatMap (',' :: ·) := by
  induction xs generalizing x with
  | nil => simp
  | cons y ys ih => rw [List.intercalate_cons_cons, ih, List.flatMap_cons]; simp

theorem ends_flatMap (items : List (List Char)) (hclosing : closing = ']' ∨ closing = '\x7d')
    (rest : List Char) : Ends (items.flatMap (',' :: ·) ++ closing :: rest) := by
  cases items with
  | nil => simpa [Ends] using .inr hclosing
  | cons x xs => simp [Ends]

/-- Every further item is announced by a comma, so the list ends at the bracket. -/
theorem flatMap_inj {items items' : List α} {rest rest' : List Char}
    (hclosing : closing = ']' ∨ closing = '\x7d') (htold : ∀ a ∈ items, Told text P a)
    (hitems' : ∀ a ∈ items', P a)
    (h : (items.map text).flatMap (',' :: ·) ++ closing :: rest =
      (items'.map text).flatMap (',' :: ·) ++ closing :: rest') :
    items = items' ∧ rest = rest' := by
  have hcomma : closing ≠ ',' := by
    rcases hclosing with rfl | rfl <;> decide
  induction items generalizing items' with
  | nil =>
    cases items' with
    | nil => exact ⟨rfl, (List.cons.inj h).2⟩
    | cons b items' => exact absurd (List.cons.inj h).1 hcomma
  | cons a items ih =>
    cases items' with
    | nil => exact absurd (List.cons.inj h).1.symm hcomma
    | cons b items' =>
      obtain ⟨ha, htold⟩ := List.forall_mem_cons.1 htold
      obtain ⟨hb, hitems'⟩ := List.forall_mem_cons.1 hitems'
      simp only [List.map_cons, List.flatMap_cons, List.cons_append, List.append_assoc] at h
      obtain ⟨hab, hmore⟩ := ha b hb _ _ (ends_flatMap _ hclosing _) (ends_flatMap _ hclosing _)
        (List.cons.inj h).2
      obtain ⟨hitems, hrest⟩ := ih htold hitems' hmore
      exact ⟨List.cons_eq_cons.2 ⟨hab, hitems⟩, hrest⟩

/-- A list in brackets. An item begins with something else than the closing bracket, so an empty
list is told from others. -/
theorem intercalate_inj {items items' : List α} {rest rest' : List Char}
    (hclosing : closing = ']' ∨ closing = '\x7d')
    (hbegins : ∀ a, P a → ∀ u v, text a ++ u ≠ closing :: v) (htold : ∀ a ∈ items, Told text P a)
    (hitems : ∀ a ∈ items, P a) (hitems' : ∀ a ∈ items', P a)
    (h : [','].intercalate (items.map text) ++ closing :: rest =
      [','].intercalate (items'.map text) ++ closing :: rest') : items = items' ∧ rest = rest' := by
  cases items with
  | nil =>
    cases items' with
    | nil => exact ⟨rfl, (List.cons.inj h).2⟩
    | cons b items' =>
      rw [List.map_cons, intercalate_cons, List.append_assoc] at h
      exact absurd h.symm (hbegins b (hitems' b (by simp)) _ _)
  | cons a items =>
    rw [List.map_cons, intercalate_cons, List.append_assoc] at h
    cases items' with
    | nil => exact absurd h (hbegins a (hitems a (by simp)) _ _)
    | cons b items' =>
      obtain ⟨ha, htold⟩ := List.forall_mem_cons.1 htold
      obtain ⟨hb, hitems'⟩ := List.forall_mem_cons.1 hitems'
      rw [List.map_cons, intercalate_cons, List.append_assoc] at h
      obtain ⟨hab, hmore⟩ := ha b hb _ _ (ends_flatMap _ hclosing _) (ends_flatMap _ hclosing _) h
      obtain ⟨hitems, hrest⟩ := flatMap_inj hclosing htold hitems' hmore
      exact ⟨List.cons_eq_cons.2 ⟨hab, hitems⟩, hrest⟩

end

/-! ## Values -/

/-- All numbers in the value are finite. -/
inductive HasFiniteNumbers : Json → Prop where
  | null : HasFiniteNumbers .null
  | boolean (value : Bool) : HasFiniteNumbers (.boolean value)
  | natural (value : Nat) : HasFiniteNumbers (.natural value)
  | number {value : Binary64} : value.isFinite = true → HasFiniteNumbers (.number value)
  | string (value : String) : HasFiniteNumbers (.string value)
  | array {items : List Json} : (∀ j ∈ items, HasFiniteNumbers j) →
    HasFiniteNumbers (.array items)
  | object {members : List (String × Json)} : (∀ m ∈ members, HasFiniteNumbers m.2) →
    HasFiniteNumbers (.object members)

/-- The forms of values that the first character of a text tells apart. -/
inductive Form where
  | null | boolean | number | string | array | object
deriving DecidableEq

def form : Json → Form
  | .null => .null
  | .boolean _ => .boolean
  | .natural _ | .number _ => .number
  | .string _ => .string
  | .array _ => .array
  | .object _ => .object

/-- The form of the values whose texts begin with the character, if there are any. -/
def formOf? (c : Char) : Option Form :=
  if c = 'n' then some .null
  else if c = 't' ∨ c = 'f' then some .boolean
  else if c.isDigit ∨ c = '-' then some .number
  else if c = '"' then some .string
  else if c = '[' then some .array
  else if c = '\x7b' then some .object
  else none

theorem compactItems_eq (items : List Json) : compactItems items = items.map compact := by
  induction items with
  | nil => rfl
  | cons j items ih => rw [compactItems, ih, List.map_cons]

/-- A member of an object. -/
def memberText (m : String × Json) : List Char :=
  (quoted m.1).toList ++ ':' :: (compact m.2).toList

theorem map_toList_compactMembers (members : List (String × Json)) :
    (compactMembers members).map String.toList = members.map memberText := by
  induction members with
  | nil => rfl
  | cons m members ih =>
    rw [compactMembers, List.map_cons, List.map_cons, ih, memberText, String.toList_append,
      String.toList_append, List.append_assoc]
    rfl

theorem compact_array (items : List Json) (u : List Char) :
    (compact (.array items)).toList ++ u =
      '[' :: ([','].intercalate (items.map fun j ↦ (compact j).toList) ++ ']' :: u) := by
  rw [compact, String.toList_append, String.toList_append, String.toList_intercalate,
    compactItems_eq, List.map_map]
  simp [Function.comp_def]

theorem compact_object (members : List (String × Json)) (u : List Char) :
    (compact (.object members)).toList ++ u =
      '\x7b' :: ([','].intercalate (members.map memberText) ++ '\x7d' :: u) := by
  rw [compact, String.toList_append, String.toList_append, String.toList_intercalate,
    map_toList_compactMembers]
  simp

theorem formOf?_of_isDigit {c : Char} (h : c.isDigit = true) : formOf? c = some .number := by
  have hne (d : Char) (hd : d.isDigit = false) : c ≠ d := by
    rintro rfl
    rw [h] at hd
    cases hd
  rw [formOf?, if_neg (hne 'n' (by decide)),
    if_neg (not_or.2 ⟨hne 't' (by decide), hne 'f' (by decide)⟩), if_pos (.inl h)]

/-- The first character tells the form. -/
theorem head_compact {j : Json} (h : j.HasFiniteNumbers) :
    ∃ c cs, (compact j).toList = c :: cs ∧ formOf? c = some j.form := by
  cases h with
  | null => exact ⟨'n', ['u', 'l', 'l'], rfl, rfl⟩
  | boolean value =>
    cases value with
    | false => exact ⟨'f', ['a', 'l', 's', 'e'], rfl, rfl⟩
    | true => exact ⟨'t', ['r', 'u', 'e'], rfl, rfl⟩
  | natural value =>
    have hdigits := Decimal.isDigit_of_mem_toDigits (n := value)
    rw [compact, Nat.toList_repr]
    cases hlead : Nat.toDigits 10 value with
    | nil => exact absurd hlead Nat.toDigits_ne_nil
    | cons c cs =>
      rw [hlead] at hdigits
      exact ⟨c, cs, rfl, formOf?_of_isDigit (hdigits c (by simp))⟩
  | @number value hvalue =>
    cases value with
    | infinite | nan => cases hvalue
    | finite negative code =>
      obtain ⟨c, cs, htext, hc⟩ := (Decimal.shortest .toEven code).head_dataText
      rw [compact, numberText_finite, htext]
      cases negative with
      | false => exact ⟨c, cs, rfl, formOf?_of_isDigit hc⟩
      | true => exact ⟨'-', c :: cs, rfl, rfl⟩
  | string value =>
    have htext := quoted_append value []
    rw [List.append_nil] at htext
    exact ⟨'"', _, htext, rfl⟩
  | @array items _ =>
    have htext := compact_array items []
    rw [List.append_nil] at htext
    exact ⟨'[', _, htext, rfl⟩
  | @object members _ =>
    have htext := compact_object members []
    rw [List.append_nil] at htext
    exact ⟨'\x7b', _, htext, rfl⟩

/-- The first character tells the form of a value, whatever comes after the value. -/
theorem form_eq_of_compact {j j' : Json} {u v : List Char} (hj : j.HasFiniteNumbers)
    (hj' : j'.HasFiniteNumbers) (h : (compact j).toList ++ u = (compact j').toList ++ v) :
    j.form = j'.form := by
  obtain ⟨c, cs, htext, hc⟩ := head_compact hj
  obtain ⟨c', cs', htext', hc'⟩ := head_compact hj'
  rw [htext, htext'] at h
  obtain ⟨rfl, -⟩ := List.cons.inj h
  exact Option.some.inj (hc.symm.trans hc')

/-- No value begins with a closing bracket. -/
theorem compact_append_ne {closing : Char} (hclosing : closing = ']' ∨ closing = '\x7d') (j : Json)
    (hj : j.HasFiniteNumbers) (u v : List Char) : (compact j).toList ++ u ≠ closing :: v := by
  have hnone : formOf? closing = none := by
    rcases hclosing with rfl | rfl <;> rfl
  obtain ⟨c, cs, htext, hc⟩ := head_compact hj
  intro h
  rw [htext] at h
  rw [(List.cons.inj h).1, hnone] at hc
  cases hc

theorem memberText_append_ne (m : String × Json) (u v : List Char) :
    memberText m ++ u ≠ '\x7d' :: v := by
  intro h
  rw [memberText, List.append_assoc, quoted_append] at h
  exact absurd (List.cons.inj h).1 (by decide)

/-- The key is a string, and after the colon comes the value. -/
theorem told_member {m : String × Json}
    (h : Told (fun j ↦ (compact j).toList) HasFiniteNumbers m.2) :
    Told memberText (fun m ↦ m.2.HasFiniteNumbers) m := by
  intro m' hm' u v hu hv htext
  rw [memberText, memberText, List.append_assoc, List.append_assoc] at htext
  obtain ⟨hkey, hvalue⟩ := quoted_append_inj htext
  obtain ⟨hvalue, huv⟩ := h m'.2 hm' u v hu hv (List.cons.inj hvalue).2
  exact ⟨Prod.ext hkey hvalue, huv⟩

/-- Texts that consist of characters of numbers end where what follows is none. -/
theorem number_append_inj {x y u v : List Char} (hx : ∀ c ∈ x, isNumberChar c = true)
    (hy : ∀ c ∈ y, isNumberChar c = true) (hu : Ends u) (hv : Ends v) (h : x ++ u = y ++ v) :
    x = y ∧ u = v :=
  Text.append_inj_of_span hx hy hu.not_isNumberChar hv.not_isNumberChar h

/-- Only values of the same form need to be compared. -/
theorem told_of_form {j : Json} (hj : j.HasFiniteNumbers)
    (h : ∀ j', j'.HasFiniteNumbers → j.form = j'.form → ∀ u v, Ends u → Ends v →
      (compact j).toList ++ u = (compact j').toList ++ v → j = j' ∧ u = v) :
    Told (fun j ↦ (compact j).toList) HasFiniteNumbers j :=
  fun j' hj' u v hu hv htext ↦ h j' hj' (form_eq_of_compact hj hj' htext) u v hu hv htext

/-- The compact text of a value tells the value and where its text ends. -/
theorem told_compact {j : Json} (hj : j.HasFiniteNumbers) :
    Told (fun j ↦ (compact j).toList) HasFiniteNumbers j := by
  induction hj with
  | null =>
    refine told_of_form .null fun j' hj' hform u v _ _ h ↦ ?_
    cases hj' with
    | null => exact ⟨rfl, List.append_cancel_left h⟩
    | _ => cases hform
  | boolean value =>
    refine told_of_form (.boolean value) fun j' hj' hform u v _ _ h ↦ ?_
    cases hj' with
    | boolean value' =>
      cases value <;> cases value'
      · exact ⟨rfl, List.append_cancel_left h⟩
      · cases h
      · cases h
      · exact ⟨rfl, List.append_cancel_left h⟩
    | _ => cases hform
  | natural n =>
    refine told_of_form (.natural n) fun j' hj' hform u v hu hv h ↦ ?_
    cases hj' with
    | natural n' =>
      obtain ⟨htext, huv⟩ := number_append_inj (isNumberChar_repr n) (isNumberChar_repr n') hu hv h
      rw [Nat.toList_repr, Nat.toList_repr] at htext
      exact ⟨congrArg natural (Text.toDigits_inj htext), huv⟩
    | number hvalue =>
      obtain ⟨htext, -⟩ := number_append_inj (isNumberChar_repr n)
        (isNumberChar_numberText hvalue) hu hv h
      exact absurd htext (repr_ne_numberText n hvalue)
    | _ => cases hform
  | number hvalue =>
    refine told_of_form (.number hvalue) fun j' hj' hform u v hu hv h ↦ ?_
    cases hj' with
    | natural n' =>
      obtain ⟨htext, -⟩ := number_append_inj (isNumberChar_numberText hvalue)
        (isNumberChar_repr n') hu hv h
      exact absurd htext.symm (repr_ne_numberText n' hvalue)
    | number hvalue' =>
      obtain ⟨htext, huv⟩ := number_append_inj (isNumberChar_numberText hvalue)
        (isNumberChar_numberText hvalue') hu hv h
      exact ⟨congrArg number (numberText_inj hvalue hvalue' htext), huv⟩
    | _ => cases hform
  | string text =>
    refine told_of_form (.string text) fun j' hj' hform u v _ _ h ↦ ?_
    cases hj' with
    | string text' =>
      obtain ⟨htext, huv⟩ := quoted_append_inj h
      exact ⟨congrArg string htext, huv⟩
    | _ => cases hform
  | array hitems ih =>
    refine told_of_form (.array hitems) fun j' hj' hform u v _ _ h ↦ ?_
    cases hj' with
    | array hitems' =>
      rw [compact_array, compact_array] at h
      obtain ⟨heq, huv⟩ := intercalate_inj (.inl rfl) (compact_append_ne (.inl rfl)) ih hitems
        hitems' (List.cons.inj h).2
      exact ⟨congrArg array heq, huv⟩
    | _ => cases hform
  | object hmembers ih =>
    refine told_of_form (.object hmembers) fun j' hj' hform u v _ _ h ↦ ?_
    cases hj' with
    | object hmembers' =>
      rw [compact_object, compact_object] at h
      obtain ⟨heq, huv⟩ := intercalate_inj (.inr rfl) (fun m _ ↦ memberText_append_ne m)
        (fun m hm ↦ told_member (ih m hm)) hmembers hmembers' (List.cons.inj h).2
      exact ⟨congrArg object heq, huv⟩
    | _ => cases hform

/-- Different values have different texts. -/
theorem compact_inj {j j' : Json} (hj : j.HasFiniteNumbers) (hj' : j'.HasFiniteNumbers)
    (h : compact j = compact j') : j = j' := by
  have hend : Ends [] := by simp [Ends]
  exact (told_compact hj j' hj' [] [] hend hend (congrArg (·.toList ++ []) h)).1

end Lispette.Json
