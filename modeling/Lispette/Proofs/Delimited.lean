/-!
# Texts that can be taken apart

A text that was put together from pieces gives the pieces back if each of them shows where it ends:
where a class of characters ends, or at a separator that the piece does not contain.
-/

namespace Lispette.Text

variable {α : Type}

/-- A stretch of one class of characters ends at the first character of another class. -/
theorem append_inj_of_span {p : α → Bool} {x y u v : List α} (hx : ∀ a ∈ x, p a = true)
    (hy : ∀ a ∈ y, p a = true) (hu : ∀ a ∈ u.head?, p a = false)
    (hv : ∀ a ∈ v.head?, p a = false) (h : x ++ u = y ++ v) : x = y ∧ u = v := by
  induction x generalizing y with
  | nil =>
    cases y with
    | nil => exact ⟨rfl, h⟩
    | cons b y =>
      have hb : p b = false := hu b (by rw [← List.nil_append u, h]; rfl)
      rw [hy b (by simp)] at hb
      cases hb
  | cons a x ih =>
    obtain ⟨ha, hx⟩ := List.forall_mem_cons.1 hx
    cases y with
    | nil =>
      have hb : p a = false := hv a (by rw [← List.nil_append v, ← h]; rfl)
      rw [ha] at hb
      cases hb
    | cons b y =>
      obtain ⟨hab, hrest⟩ := List.cons.inj h
      obtain ⟨hxy, huv⟩ := ih hx (List.forall_mem_cons.1 hy).2 hrest
      exact ⟨List.cons_eq_cons.2 ⟨hab, hxy⟩, huv⟩

/-- The same, read from the end. -/
theorem append_inj_of_span_right {p : α → Bool} {x y u v : List α} (hu : ∀ a ∈ u, p a = true)
    (hv : ∀ a ∈ v, p a = true) (hx : ∀ a ∈ x.getLast?, p a = false)
    (hy : ∀ a ∈ y.getLast?, p a = false) (h : x ++ u = y ++ v) : x = y ∧ u = v := by
  have hreverse : u.reverse ++ x.reverse = v.reverse ++ y.reverse := by
    rw [← List.reverse_append, h, List.reverse_append]
  obtain ⟨huv, hxy⟩ := append_inj_of_span (p := p) (by simpa using hu) (by simpa using hv)
    (by simpa using hx) (by simpa using hy) hreverse
  exact ⟨List.reverse_inj.1 hxy, List.reverse_inj.1 huv⟩

/-- A piece ends at the first separator. -/
theorem append_cons_inj [DecidableEq α] {c : α} {x y u v : List α} (hx : c ∉ x) (hy : c ∉ y)
    (h : x ++ c :: u = y ++ c :: v) : x = y ∧ u = v := by
  have hp {z : List α} (hz : c ∉ z) : ∀ a ∈ z, decide (a ≠ c) = true := by
    intro a ha
    exact decide_eq_true fun hac ↦ hz (hac ▸ ha)
  obtain ⟨hxy, huv⟩ := append_inj_of_span (p := fun a ↦ decide (a ≠ c)) (hp hx) (hp hy)
    (by simp) (by simp) h
  exact ⟨hxy, (List.cons.inj huv).2⟩

theorem not_mem_intercalate {c : α} {separator : List α} (hseparator : c ∉ separator)
    {pieces : List (List α)} (h : ∀ x ∈ pieces, c ∉ x) : c ∉ separator.intercalate pieces := by
  induction pieces with
  | nil => simp
  | cons x pieces ih =>
    obtain ⟨hx, h⟩ := List.forall_mem_cons.1 h
    cases pieces with
    | nil => simpa using hx
    | cons y pieces =>
      rw [List.intercalate_cons_cons]
      simp [hx, hseparator, ih h]

/-- Pieces are told apart by the separator between them, and from no pieces at all since none of
them is empty. -/
theorem intercalate_inj [DecidableEq α] {d : α} {pieces pieces' : List (List α)}
    (hpieces : ∀ x ∈ pieces, d ∉ x ∧ x ≠ []) (hpieces' : ∀ x ∈ pieces', d ∉ x ∧ x ≠ [])
    (h : [d].intercalate pieces = [d].intercalate pieces') : pieces = pieces' := by
  have hne {x : List α} {more : List (List α)} (hx : x ≠ []) :
      [d].intercalate (x :: more) ≠ [] := by
    cases more with
    | nil => simpa using hx
    | cons y more => simp [List.intercalate_cons_cons]
  cases pieces with
  | nil =>
    cases pieces' with
    | nil => rfl
    | cons y more => exact absurd h.symm (hne (hpieces' y (by simp)).2)
  | cons x more =>
    cases pieces' with
    | nil => exact absurd h (hne (hpieces x (by simp)).2)
    | cons y more' =>
      rw [← List.splitOn_intercalate d (fun l hl ↦ (hpieces l hl).1) (by simp), h,
        List.splitOn_intercalate d (fun l hl ↦ (hpieces' l hl).1) (by simp)]

theorem toDigits_inj {m n : Nat} (h : Nat.toDigits 10 m = Nat.toDigits 10 n) : m = n := by
  calc
    m = Nat.ofDigitChars 10 (Nat.toDigits 10 m) 0 := Nat.ofDigitChars_ten_toDigits.symm
    _ = n := by rw [h, Nat.ofDigitChars_ten_toDigits]

/-- A number at the end of a text is told by its digits if the mark before it ends with none. -/
theorem numbered_inj {mark x y : List Char} {c : Char} (hmark : mark.getLast? = some c)
    (hc : c.isDigit = false) {m n : Nat}
    (h : x ++ mark ++ Nat.toDigits 10 m = y ++ mark ++ Nat.toDigits 10 n) : x = y ∧ m = n := by
  have hdigits (k : Nat) : ∀ d ∈ Nat.toDigits 10 k, d.isDigit = true :=
    fun d hd ↦ Nat.isDigit_of_mem_toDigits (by decide) (by decide) hd
  have hlast (z : List Char) : ∀ d ∈ (z ++ mark).getLast?, d.isDigit = false := by
    intro d hd
    rw [List.getLast?_append, hmark] at hd
    exact Option.some.inj hd ▸ hc
  obtain ⟨hxy, hmn⟩ := append_inj_of_span_right (hdigits m) (hdigits n) (hlast x) (hlast y) h
  exact ⟨List.append_cancel_right hxy, toDigits_inj hmn⟩

end Lispette.Text
