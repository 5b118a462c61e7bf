import SymbolicAlgebra.Proofs.Development
import SymbolicAlgebra.Proofs.Gaussian
import SymbolicAlgebra.Proofs.Reading

/-!
# Proofs/Legibility — expressions that are read back from their texts

A number is readable if its parts are exact or not a number: then its text is made of integers and names
only, and no other number is the same.  Building keeps to readable expressions (`Kernel.legibility`):
what is built of a readable shape has a readable shape again (`Expr.isReadable_toRaw`).
-/

namespace SymbolicAlgebra

/-! ## Numbers -/

/-- Whether a scalar is exact or not a number. -/
def Scalar.isReadable : Scalar → Bool
  | .exact _ => true
  | .big _ _ => false
  | .machine x => Double.isNaN x

namespace Scalar

variable {a b : Scalar}

/-- **A readable scalar is the only one that is the same.** -/
theorem eq_of_same_of_isReadable (ha : a.isReadable = true) (h : a.same b = true) : a = b := by
  cases a with
  | exact p =>
      cases b with
      | exact q => simpa [same] using h
      | _ => cases h
  | big d p => cases ha
  | machine x =>
      cases b with
      | machine y =>
          obtain rfl := Double.eq_notANumber ha
          have hy : Double.isNaN y = true := by
            have hbeq : (Double.notANumber == y) = false := Double.beq_of_isNaN rfl
            rw [same, hbeq, Bool.or_false, Bool.and_eq_true] at h
            exact h.2
          rw [Double.eq_notANumber hy]
      | _ => cases h

theorem isReadable_neg (ha : a.isReadable = true) (h : a.neg = .ok b) : b.isReadable = true := by
  cases a with
  | exact q =>
      cases h
      rfl
  | big d p => cases ha
  | machine x =>
      cases h
      exact (Double.isNaN_neg x).trans ha

theorem isReadable_toRaw (ha : a.isReadable = true) : (Expr.scalarRaw a).isReadable = true := by
  cases a with
  | exact q =>
      rw [Expr.scalarRaw]
      split
      next => rfl
      next =>
        have hrational : Sexpr.isName "Rational" = true := by decide +kernel
        simp [Raw.isReadable, Raw.allReadable, hrational]
  | big d p => cases ha
  | machine x => exact ha

end Scalar

/-- Whether the parts of a number are exact or not a number. -/
def Number.isReadable : Number → Bool
  | .real x => x.isReadable
  | .complex x y => x.isReadable && y.isReadable && !y.isZero

namespace Number

variable {v w x : Number}

theorem eq_of_same_of_isReadable (hv : v.isReadable = true) (h : v.same w = true) : v = w := by
  cases v with
  | real a =>
      cases w with
      | real b => rw [Scalar.eq_of_same_of_isReadable hv h]
      | complex _ _ => cases h
  | complex a b =>
      cases w with
      | real _ => cases h
      | complex c d =>
          rw [isReadable, Bool.and_eq_true, Bool.and_eq_true] at hv
          rw [same, Bool.and_eq_true] at h
          rw [Scalar.eq_of_same_of_isReadable hv.1.1 h.1, Scalar.eq_of_same_of_isReadable hv.1.2 h.2]

theorem isReadable_ofParts {a b : Scalar} (ha : a.isReadable = true) (hb : b.isReadable = true) :
    (ofParts a b).isReadable = true := by
  rw [ofParts]
  split
  next => exact ha
  next h =>
    rw [Bool.not_eq_true] at h
    rw [isReadable, ha, hb, h]
    rfl

theorem isReadable_neg (hv : v.isReadable = true) (h : v.neg = .ok w) : w.isReadable = true := by
  cases v with
  | real a =>
      cases ha : a.neg with
      | error e =>
          rw [neg, ha] at h
          cases h
      | ok b =>
          rw [neg, ha] at h
          cases h
          exact Scalar.isReadable_neg hv ha
  | complex a b =>
      rw [isReadable, Bool.and_eq_true, Bool.and_eq_true] at hv
      cases ha : a.neg with
      | error e =>
          rw [neg, ha] at h
          cases h
      | ok c =>
          cases hb : b.neg with
          | error e =>
              rw [neg, ha, hb] at h
              cases h
          | ok d =>
              rw [neg, ha, hb] at h
              cases h
              exact isReadable_ofParts (Scalar.isReadable_neg hv.1.1 ha)
                (Scalar.isReadable_neg hv.1.2 hb)

theorem isReadable_of_isProper (h : v.isProper = true) : v.isReadable = true := by
  match v, h with
  | .real (.exact _), _ => rfl
  | .complex (.exact _) (.exact y), h =>
      rw [isProper, bne, Bool.not_eq_true'] at h
      rw [isReadable, Scalar.isZero, h]
      rfl

theorem isProper_of_isReadable (hv : v.isReadable = true) (h : v.isExact = true) :
    v.isProper = true := by
  rcases exact_cases h with ⟨q, rfl⟩ | ⟨p, q, rfl⟩
  · rfl
  · rw [isReadable, Bool.and_eq_true, Scalar.isZero, Bool.not_eq_true'] at hv
    rw [isProper, bne, hv.2]
    rfl

/-- An exact quotient is exact or not a number. -/
theorem isReadable_div (hv : v.isReadable = true) (hw : w.isReadable = true) (hv' : v.isExact = true)
    (hw' : w.isExact = true) (h : v.div w = .ok x) : x.isReadable = true := by
  have hv := represents_gaussian (isProper_of_isReadable hv hv')
  have hw := represents_gaussian (isProper_of_isReadable hw hw')
  by_cases hzero : w.gaussian = 0
  · rw [hzero] at hw
    rw [hv.div_zero hw] at h
    cases h
    rfl
  · obtain ⟨c, hc, hcx⟩ := hv.div hw hzero
    rw [hc] at h
    cases h
    rcases hcx.cases with ⟨q, rfl, -⟩ | ⟨p, q, rfl, -, hq⟩
    · rfl
    · exact isReadable_of_isProper (bne_iff_ne.2 hq)

theorem isReadable_toRaw (hv : v.isReadable = true) : (Expr.numberRaw v).isReadable = true := by
  cases v with
  | real x => exact Scalar.isReadable_toRaw hv
  | complex x y =>
      rw [isReadable, Bool.and_eq_true, Bool.and_eq_true] at hv
      have hcomplex : Sexpr.isName "Complex" = true := by decide +kernel
      simp [Expr.numberRaw, Raw.isReadable, Raw.allReadable, hcomplex, Scalar.isReadable_toRaw hv.1.1,
        Scalar.isReadable_toRaw hv.1.2]

end Number

/-! ## Expressions -/

namespace Expr

mutual

/-- Whether the names and the numbers of an expression are read back from their texts. -/
def isReadable : Expr → Bool
  | number v => v.isReadable
  | symbol n _ _ => Sexpr.isName n
  | application f ops _ _ => Sexpr.isName f && f != "Error" && allReadable ops
  | error _ _ _ => true

def allReadable : List Expr → Bool
  | [] => true
  | e :: rest => isReadable e && allReadable rest

end

theorem allReadable_iff {es : List Expr} :
    allReadable es = true ↔ ∀ e ∈ es, e.isReadable = true := by
  induction es with
  | nil => simp [allReadable]
  | cons e rest ih => simp [allReadable, ih]

theorem isReadable_application {f : String} {ops : List Expr} {d : Option Nat} {c : Bool} :
    (application f ops d c).isReadable = true ↔
      (Sexpr.isName f = true ∧ f ≠ "Error") ∧ ∀ e ∈ ops, e.isReadable = true := by
  rw [isReadable, Bool.and_eq_true, Bool.and_eq_true, bne_iff_ne, allReadable_iff]

theorem congruence_isReadable :
    Congruence (fun e x => e.isReadable = true → x.isReadable = true)
      fun xs ys => allReadable xs = true → allReadable ys = true where
  number h he := by
    obtain rfl := Number.eq_of_same_of_isReadable he h
    exact he
  symbol := id
  application _ h he := by
    rw [isReadable, Bool.and_eq_true] at he ⊢
    exact ⟨he.1, h he.2⟩
  error _ _ := rfl
  nil _ := rfl
  cons _ hx hxs he := by
    rw [allReadable, Bool.and_eq_true] at he ⊢
    exact ⟨hx he.1, hxs he.2⟩

/-- What has the structure of a readable expression is readable. -/
theorem isReadable_of_same {e x : Expr} (he : e.isReadable = true) (h : e.same x = true) :
    x.isReadable = true :=
  congruence_isReadable.of_same h he

mutual

/-- **A readable expression has a readable shape.** -/
theorem isReadable_toRaw : ∀ {e : Expr}, e.isReadable = true → e.isValid = true →
    e.toRaw.isReadable = true
  | number _, h, _ => Number.isReadable_toRaw h
  | symbol _ _ _, h, _ => h
  | error _ _ _, _, h => by cases h
  | application f ops _ _, h, hv => by
      rw [isReadable, Bool.and_eq_true, Bool.and_eq_true] at h
      rw [toRaw, Raw.isReadable, Raw.allReadable, Raw.isReadable, h.1.1, allReadable_toRaw h.2 hv]
      rfl

theorem allReadable_toRaw : ∀ {es : List Expr}, allReadable es = true → allValid es = true →
    Raw.allReadable (toRawAll es) = true
  | [], _, _ => rfl
  | e :: rest, h, hv => by
      rw [allReadable, Bool.and_eq_true] at h
      rw [allValid, Bool.and_eq_true] at hv
      rw [toRawAll, Raw.allReadable, isReadable_toRaw h.1 hv.1, allReadable_toRaw h.2 hv.2]
      rfl

end

/-- **A readable expression is read back from its text**, as its shape. -/
theorem parse_text {e : Expr} (h : e.isReadable = true) (hv : e.isValid = true) :
    Sexpr.parse e.text = .ok (some e.toRaw) :=
  (Raw.readsAs_self (isReadable_toRaw h hv)).parse_text

end Expr

namespace Kernel

/-! ## Building -/

/-- The name of an operator that is read back. -/
abbrev IsHead (f : String) : Prop := Sexpr.isName f = true ∧ f ≠ "Error"

theorem isHead_forms {f : String} (hf : f ∈ formOperators) : IsHead f := by
  revert f
  decide +kernel

/-- **Building keeps expressions readable.** -/
def legibility : Development where
  Holds _ := True
  Built _ e := e.isReadable = true
  Stands _ e := e.isReadable = true
  Keeps _ := True
  Reads r := r.isReadable = true
  Names n := Sexpr.isName n = true
  Heads := IsHead
  Admits v := v.isReadable = true
  Mode _ _ := True
  stands h := h
  built h _ := h
  keeps _ _ := trivial
  name h := h
  truth h := by cases h
  head h hf := by
    rw [Raw.isReadable, Raw.allReadable, Bool.and_eq_true] at h
    exact ⟨h.1, hf⟩
  item h := by
    rw [Raw.isReadable, Raw.allReadable, Bool.and_eq_true] at h
    exact Raw.allReadable_iff.1 h.2
  literal {r _ _} hr h := by
    cases r with
    | int n =>
        cases h
        rfl
    | double x =>
        cases h
        exact hr
    | name n => cases h
    | list items => cases h
    | _ => cases hr
  zero := rfl
  neg := Number.isReadable_neg
  div := Number.isReadable_div
  parts := Number.isReadable_ofParts
  number h := h
  admits h := h
  error {_ e} h := by cases e <;> first | rfl | cases h
  wildcard h _ := h
  symbol _ h _ _ := h
  heldSymbol _ h _ := h
  heldApplication _ hf hops := Expr.isReadable_application.2 ⟨hf, hops⟩
  plain _ _ _ hf _ hops := Expr.isReadable_application.2 ⟨hf, hops⟩
  lazy _ hf _ _ _ _ hops _ := Expr.isReadable_application.2 ⟨hf, hops⟩
  checked _ _ _ _ _ hf _ _ _ _ _ _ hrs := Expr.isReadable_application.2 ⟨hf, hrs⟩
  negated _ _ _ _ _ hrs _ _ := Expr.isReadable_application.2 ⟨isHead_forms (by decide), hrs⟩
  paired _ _ _ _ _ hrs hf := by
    refine Expr.isReadable_application.2 ⟨isHead_forms ?_, hrs⟩
    rcases hf with ⟨rfl, -⟩ | ⟨rfl, -⟩ <;> decide
  operand _ h := (Expr.isReadable_application.1 h).2
  heldOperand h := (Expr.isReadable_application.1 h).2
  mode _ _ := trivial
  sequence := trivial
  negate := trivial
  pooling _ _ := trivial
  pooled _ he _ h := Expr.isReadable_of_same he h
  noted _ _ := trivial
  narrowed _ _ _ := ⟨trivial, fun _ h => h, fun _ h => h⟩
  met _ _ _ _ := ⟨trivial, fun _ h => h, fun _ h => h⟩

end Kernel

end SymbolicAlgebra
