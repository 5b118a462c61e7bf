import SymbolicAlgebra.Proofs.Construction
import SymbolicAlgebra.Proofs.Shortest
import SymbolicAlgebra.Proofs.TextPieces

/-!
# Proofs/Writing — what expressions are written with

Numbers are written with *figures*, and begin with a digit, a minus, or one of the letters that the special
numbers begin with (`Text.IsFigures`).  An expression is written with its names, figures, and lists of these in
parentheses.  So a property of texts that figures have, and lists if their pieces do, holds of the text of an
expression if it holds of the names in it (`Text.CarriesOver.expr`).
-/

namespace SymbolicAlgebra

/-! ## Figures -/

namespace Text

/-- A character that numbers are written with. -/
def isFigure (c : Char) : Bool := c.isAlphanum || c == '+' || c == '-' || c == '.'

/-- A text that a number may have. -/
structure IsFigures (s : List Char) : Prop where
  mem : ∀ c ∈ s, isFigure c = true
  head : ∃ c rest, s = c :: rest ∧ (c.isDigit = true ∨ c = '-' ∨ c = 'N' ∨ c = 'I')

theorem isFigure_of_isDigit {c : Char} (h : c.isDigit = true) : isFigure c = true := by
  simp [isFigure, Char.isAlphanum, h]

theorem isFigures_of_digit {c : Char} {rest : List Char} (hc : c.isDigit = true)
    (hrest : ∀ d ∈ rest, isFigure d = true) : IsFigures (c :: rest) :=
  ⟨List.forall_mem_cons.2 ⟨isFigure_of_isDigit hc, hrest⟩, c, rest, rfl, .inl hc⟩

/-- A minus may stand in front. -/
theorem IsFigures.signed {s : List Char} (h : IsFigures s) (negative : Bool) :
    IsFigures (Decimal.signChars negative ++ s) := by
  cases negative with
  | false => exact h
  | true => exact ⟨List.forall_mem_cons.2 ⟨by decide, h.mem⟩, '-', s, rfl, .inr (.inl rfl)⟩

theorem IsFigures.append {s t : List Char} (hs : IsFigures s) (ht : ∀ c ∈ t, isFigure c = true) :
    IsFigures (s ++ t) := by
  obtain ⟨c, rest, rfl, hc⟩ := hs.head
  exact ⟨List.forall_mem_append.2 ⟨hs.mem, ht⟩, c, rest ++ t, rfl, hc⟩

theorem isFigures_nan : IsFigures "NaN".toList := ⟨List.all_eq_true.1 rfl, 'N', ['a', 'N'], rfl, by simp⟩

theorem isFigures_infinity : IsFigures "Infinity".toList :=
  ⟨List.all_eq_true.1 rfl, 'I', "nfinity".toList, rfl, by simp⟩

theorem isFigure_digitChars (n : ℕ) : ∀ c ∈ Decimal.digitChars n, isFigure c = true := fun _ hc =>
  isFigure_of_isDigit (isDigit_of_mem_digitChars hc)

theorem isFigures_digitChars (n : ℕ) : IsFigures (Decimal.digitChars n) := by
  obtain ⟨c, rest, hn⟩ := List.exists_cons_of_ne_nil (digitChars_ne_nil n)
  have hdigits : ∀ d ∈ c :: rest, d.isDigit = true := fun _ hd => isDigit_of_mem_digitChars (hn ▸ hd)
  rw [List.forall_mem_cons] at hdigits
  exact hn ▸ isFigures_of_digit hdigits.1 fun d hd => isFigure_of_isDigit (hdigits.2 d hd)

theorem isFigures_intText (n : Int) : IsFigures (intText n).toList := by
  rw [intText_toList]
  split
  next => exact (isFigures_digitChars _).signed true
  next => exact isFigures_digitChars _

end Text

open Text

namespace Decimal

theorem isFigure_signedText (x : Int) : ∀ c ∈ (signedText x).toList, isFigure c = true := by
  rw [signedText_toList, List.forall_mem_cons]
  refine ⟨?_, isFigure_digitChars _⟩
  split <;> decide

theorem isFigures_scientific (n : ℕ) (x : Int) : IsFigures (scientific (digitChars n) x).toList := by
  have hpower : ∀ c ∈ 'E' :: (signedText x).toList, isFigure c = true :=
    List.forall_mem_cons.2 ⟨by decide, isFigure_signedText x⟩
  have hdigits := isFigures_digitChars n
  unfold scientific
  generalize digitChars n = digits at hdigits
  obtain ⟨c, rest, rfl, hc⟩ := hdigits.head
  cases rest with
  | nil => simpa using hdigits.append hpower
  | cons d rest =>
      have hmem := hdigits.mem
      have hpointed : IsFigures (c :: '.' :: d :: rest) := by
        rw [List.forall_mem_cons] at hmem
        exact ⟨List.forall_mem_cons.2 ⟨hmem.1, List.forall_mem_cons.2 ⟨by decide, hmem.2⟩⟩, c, _, rfl, hc⟩
      simpa using hpointed.append hpower

theorem isFigures_positional (n places : ℕ) : IsFigures (positional (digitChars n) places).toList := by
  unfold positional
  split
  next => simpa using isFigures_digitChars n
  next hplaces =>
    simp only [String.toList_ofList]
    generalize hpadded : List.replicate (places + 1 - (digitChars n).length) '0' ++ digitChars n = padded
    have hdigit : ∀ c ∈ padded, c.isDigit = true := by
      rw [← hpadded, List.forall_mem_append]
      refine ⟨fun c hc => ?_, fun c hc => isDigit_of_mem_digitChars hc⟩
      rw [List.eq_of_mem_replicate hc]
      rfl
    have hlength : places < padded.length := by
      rw [← hpadded, List.length_append, List.length_replicate]
      omega
    obtain ⟨c, rest, hwhole⟩ := List.exists_cons_of_length_pos
      (l := padded.take (padded.length - places)) (by rw [List.length_take]; omega)
    have hmem : ∀ d ∈ c :: rest, d.isDigit = true := fun d hd =>
      hdigit d (List.mem_of_mem_take (hwhole ▸ hd))
    rw [List.forall_mem_cons] at hmem
    rw [hwhole, List.cons_append]
    refine isFigures_of_digit hmem.1 (List.forall_mem_append.2 ⟨?_, List.forall_mem_cons.2 ⟨by decide, ?_⟩⟩)
    · exact fun d hd => isFigure_of_isDigit (hmem.2 d hd)
    · exact fun d hd => isFigure_of_isDigit (hdigit d (List.mem_of_mem_drop hd))

theorem sign_toList (s : Bool) (body : String) :
    ((if s then "-" else "") ++ body).toList = signChars s ++ body.toList := by
  cases s <;> simp [signChars]

/-- **A decimal is written with figures.** -/
theorem isFigures_decimalText (d : Decimal) : IsFigures (Raw.decimalText d).toList := by
  unfold Raw.decimalText
  split
  next => exact isFigures_nan
  next s _ =>
    cases s with
    | false => exact isFigures_infinity
    | true => exact isFigures_infinity.signed true
  next s c e _ =>
    split
    next =>
      simp only [toScientific, sign_toList]
      exact (isFigures_scientific _ _).signed s
    next =>
      simp only [toText, sign_toList]
      split
      next => exact (isFigures_positional _ _).signed s
      next => exact (isFigures_scientific _ _).signed s

end Decimal

namespace Double

theorem isFinite_of_not {x : Float} (hnan : x.isNaN = false) (hinf : x.isInf = false) : x.isFinite = true := by
  change (unpacked x).isNaN = false at hnan
  change (unpacked x).isInf = false at hinf
  change (unpacked x).isFinite = true
  generalize unpacked x = u at hnan hinf
  cases u with
  | notANumber => cases hnan
  | infinity => cases hinf
  | zero | finite => rfl

/-- **A double is written with figures.** -/
theorem isFigures_doubleText (x : Float) : IsFigures (Raw.doubleText x).toList := by
  unfold Raw.doubleText
  split
  next => exact isFigures_nan
  next hnan =>
    split
    next hinf =>
      split
      next => exact isFigures_infinity
      next => exact isFigures_infinity.signed true
    next hinf =>
      obtain ⟨c, e, body, htext, hnumeral, -⟩ :=
        exists_numeral (isFinite_of_not (Bool.not_eq_true _ ▸ hnan) (Bool.not_eq_true _ ▸ hinf))
      obtain ⟨d, rest, rfl, hd⟩ := hnumeral.head
      rw [htext]
      refine IsFigures.signed (isFigures_of_digit hd fun a ha => ?_) _
      rcases hnumeral.mem a (List.mem_cons_of_mem _ ha) with ha | ha
      · exact isFigure_of_isDigit ha
      · simp only [List.mem_cons, List.not_mem_nil, or_false] at ha
        rcases ha with rfl | rfl | rfl | rfl | rfl <;> decide

end Double

/-! ## Lists -/

theorem Raw.namesAll_append_names (ns : List String) (rs : List Raw) :
    namesAll (ns.map name ++ rs) = ns ++ namesAll rs := by
  induction ns with
  | nil => rfl
  | cons n rest ih => simp [namesAll, names, ih]

namespace Text

/-- A property of texts that carries over from the names and figures in an expression to its text. -/
structure CarriesOver (P : List Char → Prop) : Prop where
  figures : ∀ {s}, (∀ c ∈ s, isFigure c = true) → P s
  spaced : ∀ {s t}, P s → P t → P (s ++ ' ' :: t)
  enclosed : ∀ {s}, P s → P ('(' :: (s ++ [')']))

namespace CarriesOver

variable {P : List Char → Prop}

section

variable (hP : CarriesOver P)

include hP

theorem items : ∀ {rs : List Raw}, (∀ r ∈ rs, P r.text.toList) → P (Raw.itemsText rs)
  | [], _ => hP.figures (by simp [Raw.itemsText, Raw.textAll])
  | [r], h => by simpa [Raw.itemsText, Raw.textAll] using h r (by simp)
  | r :: s :: rest, h => by
      rw [List.forall_mem_cons] at h
      rw [Raw.itemsText_cons]
      exact hP.spaced h.1 (items h.2)

theorem list {rs : List Raw} (h : ∀ r ∈ rs, P r.text.toList) : P (Raw.list rs).text.toList :=
  Raw.text_list rs ▸ hP.enclosed (hP.items h)

theorem int (n : Int) : P (Raw.int n).text.toList := hP.figures (isFigures_intText n).mem

theorem scalar : ∀ x : Scalar, P (Expr.scalarRaw x).text.toList
  | .exact q => by
      rw [Expr.scalarRaw]
      split
      next => exact hP.int _
      next =>
        refine hP.list ?_
        simp only [List.forall_mem_cons]
        exact ⟨hP.figures (List.all_eq_true.1 rfl), hP.int _, hP.int _, by simp⟩
  | .big d p => hP.figures (Decimal.isFigures_decimalText (d.pad p)).mem
  | .machine x => hP.figures (Double.isFigures_doubleText x).mem

theorem number : ∀ v : Number, P (Expr.numberRaw v).text.toList
  | .real x => hP.scalar x
  | .complex x y => by
      refine hP.list ?_
      simp only [List.forall_mem_cons]
      exact ⟨hP.figures (List.all_eq_true.1 rfl), hP.scalar x, hP.scalar y, by simp⟩

end

mutual

/-- **What carries over from the names in an expression to its text.** -/
theorem expr (hP : CarriesOver P) : ∀ e : Expr, (∀ n ∈ e.toRaw.names, P n.toList) → P e.text.toList
  | .number v, _ => hP.number v
  | .symbol n _ _, h => h n (by simp [Expr.toRaw, Raw.names])
  | .application f ops _ _, h => by
      simp only [Expr.toRaw, Raw.names, Raw.namesAll, List.forall_mem_append, List.forall_mem_singleton] at h
      refine hP.list (List.forall_mem_cons.2 ⟨h.1, exprs hP ops h.2⟩)
  | .error code details none, h => by
      have hshape : (Expr.error code details none).toRaw =
          .list (("Error" :: code :: details).map .name ++ []) := rfl
      rw [hshape, Raw.names, Raw.namesAll_append_names, List.forall_mem_append] at h
      rw [Expr.text, hshape]
      exact hP.list (List.forall_mem_append.2 ⟨by simpa [Raw.text] using h.1, by simp⟩)
  | .error code details (some e), h => by
      have hshape : (Expr.error code details (some e)).toRaw =
          .list (("Error" :: code :: details).map .name ++ [e.toRaw]) := rfl
      rw [hshape, Raw.names, Raw.namesAll_append_names, List.forall_mem_append] at h
      have he : P e.text.toList := expr hP e (by simpa [Raw.namesAll] using h.2)
      rw [Expr.text, hshape]
      exact hP.list (List.forall_mem_append.2 ⟨by simpa [Raw.text] using h.1, List.forall_mem_singleton.2 he⟩)

theorem exprs (hP : CarriesOver P) : ∀ es : List Expr, (∀ n ∈ Raw.namesAll (Expr.toRawAll es), P n.toList) →
    ∀ r ∈ Expr.toRawAll es, P r.text.toList
  | [], _ => by simp [Expr.toRawAll]
  | e :: rest, h => by
      simp only [Expr.toRawAll, Raw.namesAll, List.forall_mem_append] at h
      exact List.forall_mem_cons.2 ⟨expr hP e h.1, exprs hP rest h.2⟩

end

/-- What carries over to the text of an application carries over to what stands between its parentheses. -/
theorem application (hP : CarriesOver P) {e : Expr} (he : e.isApplication = true)
    (h : ∀ n ∈ e.toRaw.names, P n.toList) : ∃ s, e.text.toList = '(' :: (s ++ [')']) ∧ P s := by
  cases e with
  | application f ops d c =>
      simp only [Expr.toRaw, Raw.names, Raw.namesAll, List.forall_mem_append, List.forall_mem_singleton] at h
      exact ⟨_, Raw.text_list _, hP.items (List.forall_mem_cons.2 ⟨h.1, exprs hP ops h.2⟩)⟩
  | _ => cases he

end CarriesOver

end Text

end SymbolicAlgebra
