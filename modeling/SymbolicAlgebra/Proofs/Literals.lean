import SymbolicAlgebra.Proofs.Currency
import SymbolicAlgebra.Proofs.Representation

/-!
# Proofs/Literals — what a literal shows of what was built before it

Equal numbers are built once, in the form that was seen first.  The form of an exact number, and of a
double that is not zero, is settled by its value, so nothing shows.  A decimal has its digits and the
precision it is recorded at, and a zero may have a sign: there the number that is given may be an
earlier one (`literal_of_history`), even one that was recorded before the precision was changed
(`literal_keeps_precision`).
-/

namespace SymbolicAlgebra

/-! ## Decimals filled up to a precision -/

namespace Decimal

/-- **Decimals of one value that are not zero have one form, filled up to as many digits as either
has.** -/
theorem pad_eq_of_same {s t : Bool} {c d : ℕ} {e f : ℤ} {p : ℕ} (hc : c ≠ 0)
    (h : trace (.finite s c e) = trace (.finite t d f)) (hcp : digitCount c ≤ p)
    (hdp : digitCount d ≤ p) : pad (.finite s c e) p = pad (.finite t d f) p := by
  simp only [trace, if_neg hc, Option.some.injEq, Sum.inr.injEq] at h
  split at h
  next => cases h
  next =>
    simp only [sizeTrace, Option.some.injEq, Prod.mk.injEq] at h
    obtain ⟨rfl, hleading, hvalue⟩ := h
    have hexponent : e - ((p - digitCount c : ℕ) : ℤ) = f - ((p - digitCount d : ℕ) : ℤ) := by omega
    have hfill : ∀ {c : ℕ} {e : ℤ} (n : ℕ),
        ((c * Nat.pow 10 n : ℕ) : ℚ) * 10 ^ (e - n) = (c : ℚ) * 10 ^ e := fun {c e} n => by
      rw [zpow_sub₀ (by norm_num), Nat.pow_eq, Nat.cast_mul, Nat.cast_pow, zpow_natCast]
      field_simp
      norm_num
    have hcoefficient : c * Nat.pow 10 (p - digitCount c) = d * Nat.pow 10 (p - digitCount d) := by
      have h : ((c * Nat.pow 10 (p - digitCount c) : ℕ) : ℚ) = (d * Nat.pow 10 (p - digitCount d) : ℕ) := by
        have hpos : (10 : ℚ) ^ (e - ((p - digitCount c : ℕ) : ℤ)) ≠ 0 := zpow_ne_zero _ (by norm_num)
        refine mul_right_cancel₀ hpos ?_
        rw [hfill, hexponent, hfill, hvalue]
      exact_mod_cast h
    simp only [pad, hcoefficient, hexponent]

/-- The number of digits that a finite decimal is written with. -/
def digits : Decimal → ℕ
  | .finite _ c _ => digitCount c
  | _ => 0

theorem pad_eq {x y : Decimal} {p : ℕ} (hfinite : x.isFinite = true) (hzero : x.isZero = false)
    (h : x.trace = y.trace) (hx : x.digits ≤ p) (hy : y.digits ≤ p) : x.pad p = y.pad p := by
  cases x with
  | finite s c e =>
      cases y with
      | finite t d f => exact pad_eq_of_same (by simpa [isZero] using hzero) h hx hy
      | infinite _ => cases h
      | nan _ _ => cases h
  | infinite _ => cases hfinite
  | nan _ _ => cases hfinite

end Decimal

/-! ## Literals -/

namespace Raw

/-- Whether a shape is a finite real number. -/
def isLiteral : Raw → Bool
  | .int _ | .fraction _ => true
  | .double x => Double.isFinite x
  | .decimal d => d.isFinite
  | _ => false

/-- Whether a shape is a number that is the only one of its value. -/
def hasOneForm : Raw → Bool
  | .int _ | .fraction _ => true
  | .double x => !(x == 0)
  | _ => false

variable {p : ℕ} {r : Raw}

/-- The number that a literal stands for at a precision. -/
def literal (p : ℕ) : Raw → Number
  | .int n => .ofInt n
  | .fraction q => .real (.exact q)
  | .double x => .real (.machine x)
  | .decimal d => .real (.big d p)
  | _ => .zero

theorem numberOf_literal (h : r.isLiteral = true) : Definition.numberOf p r = .ok (r.literal p) := by
  cases r with
  | int _ => rfl
  | fraction _ => rfl
  | double _ => rfl
  | decimal _ => rfl
  | _ => cases h

theorem hasOneForm_literal (h : r.hasOneForm = true) : (r.literal p).hasOneForm = true := by
  cases r with
  | int _ => rfl
  | fraction _ => rfl
  | double x =>
      simpa [hasOneForm, literal, Number.hasOneForm, Number.re, Number.im, Scalar.hasOneForm,
        Scalar.isNegatable, Scalar.isFloatingZero, Scalar.zero] using h
  | _ => cases h

end Raw

namespace Kernel

variable {p : ℕ} {r : Raw} {k : Kernel}

/-- A literal is boxed as itself, or as an equal number that was boxed before. -/
theorem run_box_literal (hr : r.isLiteral = true) (hp : k.settings.precision = p) :
    ∃ w k', (box r).run.run k = (.ok (.number w), k') ∧ (r.literal p).same w = true ∧
      (w = r.literal p ∨ Expr.number w ∈ k.pool) := by
  have hbox : box r = boxNumber r := by cases r <;> first | rfl | cases hr
  have hrun : Yields Never (boxNumber r) k fun e _ => ∃ w, e = .number w ∧
      (r.literal p).same w = true ∧ (w = r.literal p ∨ Expr.number w ∈ k.pool) := by
    unfold boxNumber
    refine Yields.bind (P := fun q k' => q = p ∧ k' = k) ⟨hp, rfl⟩ ?_
    rintro _ k ⟨rfl, rfl⟩
    rw [Raw.numberOf_literal hr]
    refine yields_intern (fun x hx h => ?_) ⟨_, rfl, ?_, .inl rfl⟩
    · cases x with
      | number w => exact ⟨w, rfl, h, .inr hx⟩
      | _ => cases h
    · exact (Number.same_iff_trace _ _).2 rfl
  obtain ⟨_, k', hrun, w, rfl, h⟩ := hrun.exists_run
  exact ⟨w, k', hbox ▸ hrun, h⟩

/-- **What a literal shows of what was built before it.**  Boxed in a kernel that may have gone through
anything, a finite real literal is a number of the same value as in a new engine of the same precision,
and any other form of it was boxed earlier.  It is the very same number if it is an integer, a fraction,
or a double that is not zero; a decimal in a new engine is recorded at the precision, and if what was
boxed earlier is as well, the texts are the same, unless the decimal is zero or either has more digits
than that. -/
theorem literal_of_history {unit : Raw} {strict : Bool} {library : List (String × Declaration)}
    {k₀ : Kernel} (hr : r.isLiteral = true) (hp : k.settings.precision = p)
    (hnew : (configure (.int p) unit strict library).run.run {} = (.ok (), k₀)) :
    ∃ w k' k₀', (box r).run.run k₀ = (.ok (.number (r.literal p)), k₀') ∧
      (box r).run.run k = (.ok (.number w), k') ∧ (r.literal p).same w = true ∧
      (w = r.literal p ∨ Expr.number w ∈ k.pool) ∧ (r.hasOneForm = true → w = r.literal p) ∧
      ∀ d d', r = .decimal d → w = .real (.big d' p) → d.isZero = false → d.digits ≤ p →
        d'.digits ≤ p → (Expr.number w).text = (Expr.number (r.literal p)).text := by
  obtain ⟨hk₀, hprecision⟩ := (isNew_configure _ _ _ _).of_run hnew
  obtain ⟨v, k₀', hfresh, -, hv⟩ := run_box_literal hr (hprecision p rfl)
  obtain ⟨w, k', hbox, hsame, hw⟩ := run_box_literal hr hp
  obtain rfl : v = r.literal p := hv.resolve_right (by simp [hk₀.pool])
  refine ⟨w, k', k₀', hfresh, hbox, hsame, hw, fun h => ?_, ?_⟩
  · exact (Number.eq_of_same (Raw.hasOneForm_literal h) hsame).symm
  · rintro d d' rfl rfl hzero hd hd'
    have htrace : d.trace = d'.trace := (Decimal.same_iff d d').1 hsame
    have hpad : d.pad p = d'.pad p := Decimal.pad_eq hr hzero htrace hd hd'
    simp only [Expr.text, Expr.toRaw, Expr.numberRaw, Expr.scalarRaw, Raw.literal, hpad]

/-- `1.50`, where `1.5` was boxed before. -/
theorem literal_of_history_trailingZero :
    ∃ w k', (box (.decimal (.finite false 150 (-2)))).run.run
        (standard.after [.box (.decimal (.finite false 15 (-1)))]) = (.ok (.number w), k') ∧
      (Number.real (.big (.finite false 150 (-2)) 15)).same w = true := by
  obtain ⟨_, k₀, hnew, -⟩ := run_of_any (x := configure (.int 15) (.name "rad") true []) (k := {})
    (p := fun _ => true) (by decide +kernel)
  obtain ⟨w, k', -, -, hbox, hsame, -⟩ := literal_of_history (r := .decimal (.finite false 150 (-2)))
    (k := standard.after [.box (.decimal (.finite false 15 (-1)))]) rfl
    (by rw [standard_eq]; decide +kernel) hnew
  exact ⟨w, k', hbox, hsame⟩

/-- **A decimal that was boxed before the precision was changed is given as it was recorded then.** -/
theorem literal_keeps_precision : ∃ e k e' k',
    (do
      configure (.int 20) (.name "rad") true []
      let _ ← box (.decimal (.finite false 15 (-1)))
      setPrecision (.int 30)
      box (.decimal (.finite false 15 (-1)))).run.run {} = (.ok e, k) ∧
    (do
      configure (.int 30) (.name "rad") true []
      box (.decimal (.finite false 15 (-1)))).run.run {} = (.ok e', k') ∧
    k.settings.precision = k'.settings.precision ∧
    e.identical (.number (.real (.big (.finite false 15 (-1)) 20))) = true ∧
    e'.identical (.number (.real (.big (.finite false 15 (-1)) 30))) = true ∧
    e.text = "1.5000000000000000000" ∧ e'.text = "1.50000000000000000000000000000" := by
  obtain ⟨e, k, hrun, h⟩ := run_of_any_after (k := {}) (p := fun e k =>
    e.identical (.number (.real (.big (.finite false 15 (-1)) 20))) && k.settings.precision == 30 &&
      e.text == "1.5000000000000000000")
    (x := do
      configure (.int 20) (.name "rad") true []
      let _ ← box (.decimal (.finite false 15 (-1)))
      setPrecision (.int 30)
      box (.decimal (.finite false 15 (-1)))) (by decide +kernel)
  obtain ⟨e', k', hrun', h'⟩ := run_of_any_after (k := {}) (p := fun e k =>
    e.identical (.number (.real (.big (.finite false 15 (-1)) 30))) && k.settings.precision == 30 &&
      e.text == "1.50000000000000000000000000000")
    (x := do
      configure (.int 30) (.name "rad") true []
      box (.decimal (.finite false 15 (-1)))) (by decide +kernel)
  simp only [Bool.and_eq_true, beq_iff_eq] at h h'
  exact ⟨e, k, e', k', hrun, hrun', h.1.2.trans h'.1.2.symm, h.1.1, h'.1.1, h.2, h'.2⟩

end Kernel

end SymbolicAlgebra
