import SymbolicAlgebra.Proofs.Literals
import SymbolicAlgebra.Proofs.Shortest
import SymbolicAlgebra.Proofs.Standard

/-!
# Proofs/Lanes — approximate literals are read back

The lane of a literal is not written: a numeral is read as a double if it has no more digits than a double
carries, and as a decimal else.  A double whose shortest text is that short is read back as itself; the text
of any other is read as a decimal that has it as its nearest double.  Decimals are always written with more
digits, so those that can be printed are read back as decimals of the same value
(`Kernel.literal_lanes`).
-/

namespace SymbolicAlgebra

/-! ## Atoms -/

namespace Decimal

theorem isFinite_pad (d : Decimal) (n : ℕ) : (d.pad n).isFinite = d.isFinite := by
  cases d <;> rfl

theorem trace_pad {d : Decimal} (h : d.isFinite = true) (n : ℕ) : (d.pad n).trace = d.trace :=
  ((same_iff d (d.pad n)).1 (by rw [equal_pad h n, Bool.or_true])).symm

/-- What is the same as a decimal that was filled up twice is the same as the decimal. -/
theorem same_of_same_pad {d : Decimal} (h : d.isFinite = true) {m n p q : ℕ} {w : Number}
    (hw : (Number.real (.big ((d.pad m).pad n) p)).same w = true) :
    (Number.real (.big d q)).same w = true := by
  rw [Number.same_iff_trace] at hw ⊢
  rw [← hw]
  simp [Number.trace, Scalar.trace, trace_pad h, trace_pad ((isFinite_pad d m).trans h)]

end Decimal

namespace Double

variable {x : Float}

theorem doubleText_eq (hx : x.isFinite = true) : Raw.doubleText x = toText x := by
  have hnan : isNaN x = false := isNaN_of_isFinite hx
  have hinf : isInfinite x = false := isInf_of_isFinite hx
  simp [Raw.doubleText, hnan, hinf]

/-- **A double with a short text is read as itself.** -/
theorem readsAs_double (hx : x.isFinite = true)
    (hshort : Sexpr.significantDigits (toText x) ≤ machinePrecision) :
    (Raw.double x).ReadsAs (.double x) := by
  obtain ⟨c, e, body, htext, hnumeral, -, -, hdecimal⟩ := exists_numeral hx
  have hatom := hnumeral.atom_double htext hshort
  rw [hdecimal] at hatom
  refine .atom rfl ?_ ?_ <;> rw [Raw.text, doubleText_eq hx]
  · exact hnumeral.isAtom htext
  · exact hatom

/-- **A double with a long text is read as a decimal**, whose nearest double it is. -/
theorem readsAs_decimal (hx : x.isFinite = true)
    (hlong : machinePrecision < Sexpr.significantDigits (toText x)) :
    ∃ d : Decimal, d.isFinite = true ∧ ofDecimal d = x ∧ (Raw.double x).ReadsAs (.decimal d) := by
  obtain ⟨c, e, body, htext, hnumeral, hmin, hmax, hdecimal⟩ := exists_numeral hx
  have hm : (decode x).1 ≠ 0 := fun hm => by
    obtain ⟨negative, rfl⟩ := exists_zero (isNaN_of_isFinite hx) ((beq_zero_iff_decode hx).2 hm)
    exact absurd hlong (by cases negative <;> decide +kernel)
  obtain ⟨hc, htop⟩ := hmax hm
  have hatom := hnumeral.atom_decimal htext hlong hc ?_ ?_
  · refine ⟨_, rfl, hdecimal, .atom rfl ?_ ?_⟩ <;> rw [Raw.text, doubleText_eq hx]
    · exact hnumeral.isAtom htext
    · exact hatom
  · exact le_trans (by decide) hmin
  · unfold Decimal.maxReadExponent
    omega

end Double

namespace Kernel

/-- **The text of a literal is read back**, up to the pool. -/
theorem run_parse_literal (k : Kernel) (canonical : Bool) {r x : Raw} (h : r.ReadsAs x)
    (hx : x.isLiteral = true) : ∃ w k', (parse r.text canonical).run.run k = (.ok (some (.number w)), k') ∧
      (x.literal k.settings.precision).same w = true := by
  obtain ⟨w, k', hrun, hsame, -⟩ := run_box_literal hx (k := k) rfl
  have hhold : hold x = box x := by cases x <;> first | rfl | cases hx
  refine ⟨w, k', ?_, hsame⟩
  have hread : parse r.text canonical = (do return some (← box x)) := by
    rw [parse, h.parse_text]
    cases canonical <;> simp [ofExcept, hhold]
  rw [hread, run_bind, hrun]
  rfl

/-- **Approximate literals are read back**, in any kernel, whatever was called.  A finite double whose text
has no more digits than a double carries is read as a literal equal to it, and as itself if it is not zero;
one with a longer text is read as a decimal whose nearest double it is.  A decimal other than zero is read as
a decimal of the same value, if the exponents of its digits can be read. -/
theorem literal_lanes (k : Kernel) (canonical : Bool) :
    (∀ x : Float, x.isFinite = true → Sexpr.significantDigits (Double.toText x) ≤ machinePrecision →
      ∃ w k', (parse (Expr.number (.real (.machine x))).text canonical).run.run k =
          (.ok (some (.number w)), k') ∧
        (Number.real (.machine x)).same w = true ∧ ((x == 0) = false → w = .real (.machine x))) ∧
    (∀ x : Float, x.isFinite = true → machinePrecision < Sexpr.significantDigits (Double.toText x) →
      ∃ d w k', (parse (Expr.number (.real (.machine x))).text canonical).run.run k =
          (.ok (some (.number w)), k') ∧
        Double.ofDecimal d = x ∧ (Number.real (.big d k.settings.precision)).same w = true) ∧
    (∀ (d : Decimal) (p : ℕ), (d.pad p).isPrintable = true →
      ∃ w k', (parse (Expr.number (.real (.big d p))).text canonical).run.run k =
          (.ok (some (.number w)), k') ∧
        (Number.real (.big d p)).same w = true) := by
  refine ⟨fun x hx hshort => ?_, fun x hx hlong => ?_, fun d p hd => ?_⟩
  · obtain ⟨w, k', hrun, hsame⟩ :=
      run_parse_literal k canonical (Double.readsAs_double hx hshort) hx
    refine ⟨w, k', hrun, hsame, fun hzero => (Number.eq_of_same (v := .real (.machine x)) ?_ hsame).symm⟩
    exact Raw.hasOneForm_literal (r := .double x) (p := 0) (by simp [Raw.hasOneForm, hzero])
  · obtain ⟨d, hfinite, hd, hread⟩ := Double.readsAs_decimal hx hlong
    obtain ⟨w, k', hrun, hsame⟩ := run_parse_literal k canonical hread hfinite
    exact ⟨d, w, k', hrun, hd, hsame⟩
  · obtain ⟨hatom, hread⟩ := Decimal.atom_decimalText hd
    have hfinite : d.isFinite = true :=
      (Decimal.isFinite_pad d p).symm.trans (Decimal.isFinite_of_isPrintable hd)
    have hliteral : (Raw.decimal ((d.pad p).pad (machinePrecision + 1))).isLiteral = true :=
      (Decimal.isFinite_pad _ _).trans ((Decimal.isFinite_pad d p).trans hfinite)
    obtain ⟨w, k', hrun, hsame⟩ := run_parse_literal k canonical
      (.atom rfl hatom hread : (Raw.decimal (d.pad p)).ReadsAs _) hliteral
    exact ⟨w, k', hrun, Decimal.same_of_same_pad hfinite hsame⟩

/-- `1.5` is read as itself, `0.1 + 0.2` as a decimal near it, and the decimal `3` as an equal decimal. -/
theorem literal_lanes_sum :
    (∃ k', (parse (Expr.number (.real (.machine 1.5))).text true).run.run standard =
      (.ok (some (.number (.real (.machine 1.5)))), k')) ∧
    (∃ d w k', (parse (Expr.number (.real (.machine (0.1 + 0.2)))).text true).run.run standard =
        (.ok (some (.number w)), k') ∧
      Double.ofDecimal d = 0.1 + 0.2 ∧ (Number.real (.big d standard.settings.precision)).same w = true) ∧
    ∃ w k', (parse (Expr.number (.real (.big (.finite false 3 0) 20))).text true).run.run standard =
        (.ok (some (.number w)), k') ∧
      (Number.real (.big (.finite false 3 0) 20)).same w = true := by
  obtain ⟨hshort, hlong, hdecimal⟩ := literal_lanes standard true
  obtain ⟨w, k', hrun, -, hw⟩ := hshort 1.5 (by decide +kernel) (by decide +kernel)
  obtain rfl := hw (by decide +kernel)
  exact ⟨⟨k', hrun⟩, hlong (0.1 + 0.2) (by decide +kernel) (by decide +kernel),
    hdecimal (.finite false 3 0) 20 (by decide +kernel)⟩

/-- **A double can be read as a decimal**: the text of `0.1 + 0.2` has 17 digits. -/
theorem double_changes_lane : (0.1 + 0.2 : Float).isFinite = true ∧
    ∃ w k', (parse (Expr.number (.real (.machine (0.1 + 0.2)))).text true).run.run standard =
        (.ok (some (.number w)), k') ∧
      (Number.real (.machine (0.1 + 0.2))).same w = false := by
  have hfinite : (0.1 + 0.2 : Float).isFinite = true := by decide +kernel
  obtain ⟨d, hd, -, hread⟩ := Double.readsAs_decimal hfinite (by decide +kernel)
  obtain ⟨w, k', hrun, hsame⟩ := run_parse_literal standard true hread hd
  refine ⟨hfinite, w, k', hrun, ?_⟩
  rcases w with (_ | _ | _) | _ <;> first | rfl | cases hsame

end Kernel

end SymbolicAlgebra
