import Mathlib.Data.List.Basic
import SymbolicAlgebra.Order
import SymbolicAlgebra.Proofs.Exact

/-!
# Proofs/NumberText — exact numbers are told apart by their texts

Digits are read back, a stroke stands before a denominator, and a blank stands behind a real part:
`numberText_injective`.
-/

namespace SymbolicAlgebra

/-! ## Digits -/

theorem digitChars_injective : Function.Injective Decimal.digitChars := by
  intro m n h
  have hread := congrArg (Nat.ofDigitChars 10 · 0) h
  simpa only [Decimal.digitChars, Nat.ofDigitChars_ten_toDigits] using hread

theorem isDigit_of_mem_digitChars {n : ℕ} {c : Char} (h : c ∈ Decimal.digitChars n) :
    c.isDigit = true :=
  Nat.isDigit_of_mem_toDigits (by decide) (by decide) h

theorem intText_toList (n : Int) :
    (intText n).toList = (if n < 0 then ['-'] else []) ++ Decimal.digitChars n.natAbs := by
  unfold intText
  split <;> simp

/-- A text of a whole number holds digits and a minus. -/
theorem mem_intText {n : Int} {c : Char} (h : c ∈ (intText n).toList) :
    c = '-' ∨ c.isDigit = true := by
  rw [intText_toList, List.mem_append] at h
  rcases h with h | h
  · split at h
    next => exact .inl (by simpa using h)
    next => cases h
  · exact .inr (isDigit_of_mem_digitChars h)

theorem intText_injective : Function.Injective intText := by
  intro m n h
  have hdigit : ∀ {a : ℕ} {l : List Char}, Decimal.digitChars a ≠ '-' :: l := by
    intro a l ha
    have := isDigit_of_mem_digitChars (n := a) (c := '-') (by simp [ha])
    cases this
  have hchars := congrArg String.toList h
  rw [intText_toList, intText_toList] at hchars
  split at hchars
  next hm =>
    split at hchars
    next hn =>
      have := digitChars_injective (List.append_cancel_left hchars)
      omega
    next hn => exact absurd hchars.symm hdigit
  next hm =>
    split at hchars
    next hn => exact absurd hchars hdigit
    next hn =>
      have := digitChars_injective hchars
      omega

theorem ratText_toList (q : Rat) :
    (ratText q).toList = (intText q.num).toList ++
      if q.den = 1 then [] else '/' :: (intText q.den).toList := by
  unfold ratText
  split <;> simp

theorem mem_ratText {q : Rat} {c : Char} (h : c ∈ (ratText q).toList) :
    c = '-' ∨ c = '/' ∨ c.isDigit = true := by
  have hint : ∀ {n : Int}, c ∈ (intText n).toList → c = '-' ∨ c = '/' ∨ c.isDigit = true :=
    fun h => (mem_intText h).imp_right .inr
  rw [ratText_toList, List.mem_append] at h
  rcases h with h | h
  · exact hint h
  · split at h
    next => cases h
    next =>
      rcases List.mem_cons.1 h with rfl | h
      · exact .inr (.inl rfl)
      · exact hint h

theorem ratText_injective : Function.Injective ratText := by
  intro p q h
  have hstroke : ∀ {n : Int}, '/' ∉ (intText n).toList := by
    intro n hn
    rcases mem_intText hn with h | h <;> cases h
  have hchars := congrArg String.toList h
  rw [ratText_toList, ratText_toList] at hchars
  split at hchars
  next hp =>
    split at hchars
    next hq =>
      rw [List.append_nil, List.append_nil, String.toList_inj] at hchars
      exact Rat.ext (intText_injective hchars) (hp.trans hq.symm)
    next hq =>
      rw [List.append_nil] at hchars
      exact absurd (hchars ▸ by simp) (hstroke (n := p.num))
  next hp =>
    split at hchars
    next hq =>
      rw [List.append_nil] at hchars
      exact absurd (hchars ▸ by simp) (hstroke (n := q.num))
    next hq =>
      obtain ⟨hnum, -, hden⟩ := (List.append_cons_inj_of_notMem hstroke hstroke).1 hchars
      rw [String.toList_inj] at hnum hden
      exact Rat.ext (intText_injective hnum) (by exact_mod_cast intText_injective hden)

/-! ## Numbers -/

theorem isNegative_exact (y : Rat) : (Scalar.exact y).isNegative = decide (y < 0) := by
  have horder : decide (Scalar.order y 0 < 0) = decide (y < 0) := by
    rw [decide_eq_decide, Scalar.order]
    split
    next h => exact iff_of_false (by decide) h.not_gt
    next => split <;> simp [*]
  change (some (decide (Scalar.order y 0 < 0)) == some true) = _
  rw [horder]
  cases decide (y < 0) <;> rfl

/-- The text of an exact pair. -/
theorem text_complex (x y : Rat) :
    (Number.complex (.exact x) (.exact y)).text =
      .ok (ratText x ++ (if y < 0 then " - " else " + ") ++ ratText |y| ++ "i") := by
  unfold Number.text
  simp only [isNegative_exact]
  by_cases hy : y < 0
  · simp [hy, abs_of_neg hy, Scalar.neg, Scalar.text, bind, Except.bind, pure, Except.pure]
  · simp [hy, abs_of_nonneg (not_lt.1 hy), Scalar.text, bind, Except.bind, pure, Except.pure]

theorem numberText_complex (x y : Rat) :
    (OrderKey.numberText (.complex (.exact x) (.exact y))).toList =
      (ratText x).toList ++ ' ' :: (if y < 0 then '-' else '+') :: ' ' ::
        ((ratText |y|).toList ++ ['i']) := by
  rw [OrderKey.numberText, text_complex]
  by_cases hy : y < 0
  · simp [hy]
  · simp [hy]

/-- What stands before and after the first separator. -/
theorem eq_of_append_cons {α : Type} {s : α} : ∀ {xs ys xs' ys' : List α}, s ∉ xs → s ∉ ys →
    xs ++ s :: xs' = ys ++ s :: ys' → xs = ys ∧ xs' = ys'
  | [], [], _, _, _, _, h => ⟨rfl, (List.cons.inj h).2⟩
  | [], y :: ys, _, _, _, hy, h => absurd (List.cons.inj h).1 (List.ne_of_not_mem_cons hy)
  | x :: xs, [], _, _, hx, _, h => absurd (List.cons.inj h).1.symm (List.ne_of_not_mem_cons hx)
  | x :: xs, y :: ys, _, _, hx, hy, h => by
      obtain ⟨hhead, htail⟩ := List.cons.inj h
      obtain ⟨hbefore, hafter⟩ := eq_of_append_cons (List.not_mem_of_not_mem_cons hx)
        (List.not_mem_of_not_mem_cons hy) htail
      exact ⟨by rw [hhead, hbefore], hafter⟩

/-- **Exact numbers are told apart by their texts.** -/
theorem numberText_injective {v w : Number} (hv : v.isExact = true) (hw : w.isExact = true)
    (h : OrderKey.numberText v = OrderKey.numberText w) : v = w := by
  have hblank : ∀ {q : Rat}, ' ' ∉ (ratText q).toList := by
    intro q hq
    rcases mem_ratText hq with h | h | h <;> cases h
  have hdiffer : ∀ {q x y : Rat}, OrderKey.numberText (.ofRat q) ≠
      OrderKey.numberText (.complex (.exact x) (.exact y)) := by
    intro q x y h
    have hchars := (congrArg String.toList h).trans (numberText_complex x y)
    exact hblank (q := q) (hchars ▸ by simp)
  rcases Number.exact_cases hv with ⟨p, rfl⟩ | ⟨x, y, rfl⟩ <;>
    rcases Number.exact_cases hw with ⟨q, rfl⟩ | ⟨x', y', rfl⟩
  · exact congrArg Number.ofRat (ratText_injective h)
  · exact absurd h hdiffer
  · exact absurd h.symm hdiffer
  · have hchars := congrArg String.toList h
    rw [numberText_complex, numberText_complex] at hchars
    obtain ⟨hx, hrest⟩ := eq_of_append_cons hblank hblank hchars
    obtain ⟨hsign, hrest⟩ := List.cons.inj hrest
    have habs := List.append_cancel_right (List.cons.inj hrest).2
    rw [String.toList_inj] at hx habs
    obtain rfl := ratText_injective hx
    have hy : y = y' := by
      rcases abs_eq_abs.1 (ratText_injective habs) with hy | hy
      · exact hy
      · rw [hy] at hsign
        rcases lt_trichotomy y' 0 with h' | h' | h'
        · simp [h', h'.not_gt] at hsign
        · rw [hy, h', neg_zero]
        · simp [h', h'.not_gt] at hsign
    rw [hy]

end SymbolicAlgebra
