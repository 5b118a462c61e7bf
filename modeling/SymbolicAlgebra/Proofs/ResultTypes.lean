import SymbolicAlgebra.Proofs.Acceptance
import SymbolicAlgebra.Proofs.Signs
import SymbolicAlgebra.Proofs.Undefined

/-!
# Proofs/ResultTypes — the value of an expression has the type of the expression

The type of an application follows from the types of its operands by the rule of its operator, the value
follows from their values.  What a type promises of a value is `Number.Carries`: to be real below `real`,
to be whole at `integer`, and to be of the type itself unless that is one of complex numbers, since
products and sums of those can be real.  Exact numbers need more, as a quotient of whole doubles need not
be rational: what is typed as an exact number must be made of exact numbers (`isExactlyTyped`), and then
its values are in the lane of the type (`Number.InLane`).

Rules keep both (`Evaluation.apply_isReal`, `Evaluation.apply_inLane`), so the values that an expression
may have (`Expr.HasValue`) keep them (`Expr.carries_typeOf`), and evaluation gives one of those
(`TypesSoundly.yields_evaluateWith`).  The values of constants are cached, so soundness is an invariant of
runs.
-/

namespace SymbolicAlgebra

/-! ## Types of values -/

namespace TypeName

theorem isSubtype_real_iff {t : TypeName} :
    t.isSubtype .real = true ↔ t = nothing ∨ t = real ∨ t = rational ∨ t = integer := by
  cases t <;> simp [isSubtype, ancestors, parent]

theorem isSubtype_rational_iff {t : TypeName} :
    t.isSubtype .rational = true ↔ t = nothing ∨ t = rational ∨ t = integer := by
  cases t <;> simp [isSubtype, ancestors, parent]

theorem rational_isSubtype_real : rational.isSubtype .real = true := isSubtype_real_iff.2 (by simp)

theorem integer_isSubtype_rational : integer.isSubtype .rational = true :=
  isSubtype_rational_iff.2 (by simp)

theorem isSubtype_integer_iff {t : TypeName} :
    t.isSubtype .integer = true ↔ t = nothing ∨ t = integer := by
  cases t <;> simp [isSubtype, ancestors, parent]

/-- Whether a type is that of numbers, other than of no numbers at all. -/
def isNumberType (t : TypeName) : Bool :=
  [number, complex, imaginary, real, rational, integer].contains t

theorem isNumberType_iff {t : TypeName} :
    t.isNumberType = true ↔ t.isSubtype .number = true ∧ t ≠ nothing := by
  cases t <;> simp [isNumberType, isSubtype, ancestors, parent]

/-- What is left of a chain of ancestors. -/
theorem mem_foldl_filter {u : TypeName} : ∀ {rest chain : List TypeName},
    u ∈ rest.foldl (fun chain t => chain.filter t.ancestors.contains) chain ↔
      u ∈ chain ∧ ∀ t ∈ rest, u ∈ t.ancestors
  | [], chain => by simp
  | t :: rest, chain => by
      rw [List.foldl_cons, mem_foldl_filter, List.mem_filter, List.contains_iff_mem,
        List.forall_mem_cons, and_assoc]

/-- **The widest of number types is above each of them**, and a type of numbers. -/
theorem widen_spec {types : List TypeName} (hne : types ≠ [])
    (h : ∀ t ∈ types, t.isNumberType = true) :
    (widen types).isNumberType = true ∧ ∀ t ∈ types, t.isSubtype (widen types) = true := by
  have hfilter : (types.filter fun t => t != nothing && t != unknown) = types := by
    refine List.filter_eq_self.2 fun t ht => ?_
    have := h t ht
    cases t <;> first | rfl | cases this
  have hnumber : ∀ t ∈ types, number ∈ t.ancestors := by
    intro t ht
    have := h t ht
    simp only [isNumberType, List.contains_iff_mem, List.mem_cons, List.not_mem_nil, or_false] at this
    rcases this with rfl | rfl | rfl | rfl | rfl | rfl <;> simp [TypeName.ancestors, TypeName.parent]
  obtain ⟨t, rest, rfl⟩ := List.exists_cons_of_ne_nil hne
  rw [List.forall_mem_cons] at hnumber
  have hmem : number ∈ rest.foldl (fun chain u => chain.filter u.ancestors.contains) t.ancestors :=
    mem_foldl_filter.2 hnumber
  obtain ⟨c, tail, hc⟩ := List.exists_cons_of_ne_nil (List.ne_nil_of_mem hmem)
  have hwiden : widen (t :: rest) = c := by
    unfold widen
    rw [hfilter]
    simp only [hc, List.head?_cons, Option.getD_some]
  obtain ⟨ht, hrest⟩ := (mem_foldl_filter (u := c)).1 (by rw [hc]; exact List.mem_cons_self)
  rw [List.forall_mem_cons] at h ⊢
  refine ⟨isNumberType_iff.2 ⟨?_, ?_⟩, ?_, ?_⟩
  · refine widen_isSubtype ?_
    rw [List.forall_mem_cons]
    exact ⟨(isNumberType_iff.1 h.1).1, fun u hu => (isNumberType_iff.1 (h.2 u hu)).1⟩
  · rw [hwiden]
    rintro rfl
    revert ht
    have := h.1
    cases t <;> first | (cases this; done) | simp [TypeName.ancestors, TypeName.parent]
  · rw [hwiden]
    exact isSubtype_of_mem_ancestors ht
  · rw [hwiden]
    exact fun u hu => isSubtype_of_mem_ancestors (hrest u hu)

theorem isSubtype_trans {t u x : TypeName} (hx : x = .real ∨ x = .rational)
    (h : t.isSubtype u = true) (hu : u.isSubtype x = true) : t.isSubtype x = true := by
  rcases hx with rfl | rfl
  · rcases isSubtype_real_iff.1 hu with rfl | rfl | rfl | rfl <;>
      cases t <;> simp_all [isSubtype, ancestors, parent]
  · rcases isSubtype_rational_iff.1 hu with rfl | rfl | rfl <;>
      cases t <;> simp_all [isSubtype, ancestors, parent]

theorem isNumberType_ne {t : TypeName} (h : t.isNumberType = true) : t ≠ nothing :=
  (isNumberType_iff.1 h).2

end TypeName

namespace Number

/-- A real value that is a number has a type of reals. -/
theorem type_isSubtype_real {v : Number} (hv : v.isComplex = false) (h : v.isNaN = false) :
    v.type.isSubtype .real = true := by
  cases v with
  | real x =>
      have hx : x.isNaN = false := (Bool.or_eq_false_iff.1 h).1
      rw [type, Scalar.type, hx, if_neg Bool.false_ne_true]
      split
      · simp [TypeName.isSubtype, TypeName.ancestors, TypeName.parent]
      split <;> simp [TypeName.isSubtype, TypeName.ancestors, TypeName.parent]
  | complex x y => cases hv

/-- An integer has the type of integers. -/
theorem type_ofInt (n : ℤ) : (ofInt n).type = .integer := by
  simp [ofInt, Scalar.ofInt, type, Scalar.type, Scalar.isNaN, Scalar.isInteger]

theorem eq_real_of_isComplex {v : Number} (h : v.isComplex = false) : ∃ x, v = .real x := by
  cases v with
  | real x => exact ⟨x, rfl⟩
  | complex x y => cases h

/-- What has the type of integers is a whole scalar. -/
theorem eq_real_of_type {v : Number} (h : v.type = .integer) :
    ∃ x, v = .real x ∧ x.isInteger = true := by
  cases v with
  | real x =>
      refine ⟨x, rfl, ?_⟩
      rw [type, Scalar.type] at h
      split at h
      · cases h
      split at h
      · assumption
      split at h <;> cases h
  | complex x y =>
      rw [type] at h
      split at h <;> cases h

/-! ### Values of a type -/

/-- The value is what its type says: real, or whole, and of the type itself if that is not one of complex
numbers. -/
structure Carries (v : Number) (t : TypeName) : Prop where
  real : t.isSubtype .real = true → v.isComplex = false
  whole : t = .integer → v.type = .integer
  typed : t.isSubtype .complex = false → v.isNaN = false → v.type.isSubtype t = true

theorem type_isNumberType (v : Number) : v.type.isNumberType = true := by
  cases v with
  | real x =>
      rw [type, Scalar.type]
      split
      · rfl
      split
      · rfl
      split <;> rfl
  | complex x y =>
      rw [type]
      split <;> rfl

/-- Literals carry their types. -/
theorem carries_type (v : Number) : v.Carries v.type where
  real h := by
    cases v with
    | real x => rfl
    | complex x y =>
        rw [type] at h
        split at h <;> exact absurd h (by simp [TypeName.isSubtype, TypeName.ancestors, TypeName.parent])
  whole h := h
  typed _ _ := by
    have := type_isNumberType v
    revert this
    generalize v.type = t
    intro h
    cases t <;> first | (cases h; done) | simp [TypeName.isSubtype, TypeName.ancestors, TypeName.parent]

/-- The value is of the type itself, also if that is one of complex numbers. -/
structure Fits (v : Number) (t : TypeName) : Prop extends v.Carries t where
  subtype : v.isNaN = false → v.type.isSubtype t = true

theorem fits_type (v : Number) : v.Fits v.type :=
  ⟨v.carries_type, fun _ => TypeName.isSubtype_refl _⟩

/-! ### Exact lanes -/

/-- What a type of exact numbers promises of a value: an integer, or a rational that may be
undefined. -/
def InLane (v : Number) : TypeName → Prop
  | .integer => ∃ n : ℤ, v = .ofInt n
  | _ => (v.isRational || v.isUndefined) = true

theorem InLane.rational {v : Number} {t : TypeName} (h : v.InLane t) :
    (v.isRational || v.isUndefined) = true := by
  unfold InLane at h
  split at h
  · obtain ⟨n, rfl⟩ := h
    rfl
  · exact h

theorem InLane.mono {v : Number} {t u : TypeName} (h : v.InLane t) (ht : t ≠ .nothing)
    (htu : t.isSubtype u = true) : v.InLane u := by
  by_cases hu : u = .integer
  · subst hu
    rcases TypeName.isSubtype_integer_iff.1 htu with rfl | rfl
    · exact absurd rfl ht
    · exact h
  · unfold InLane
    split
    · exact absurd rfl hu
    · exact h.rational

theorem Denotes.rational {v : Number} {o : Option ℚ} (h : v.Denotes o) :
    (v.isRational || v.isUndefined) = true := by
  rcases h.cases with ⟨q, -, rfl⟩ | ⟨x, -, rfl, hx⟩
  · rfl
  · change (false || x.isNaN) = true
    rw [Bool.false_or, hx]

/-- Values in a lane of exact numbers have its type, if they are numbers. -/
theorem InLane.type_isSubtype {v : Number} {t : TypeName} (ht : t = .rational ∨ t = .integer)
    (h : v.InLane t) (hnan : v.isNaN = false) : v.type.isSubtype t = true := by
  rcases ht with rfl | rfl
  · rcases Bool.or_eq_true_iff.1 h.rational with hv | hv
    · obtain ⟨q, rfl⟩ := eq_ofRat hv
      change (Scalar.exact q).type.isSubtype .rational = true
      rw [Scalar.type]
      split
      next hq => cases hq
      split
      · simp [TypeName.isSubtype, TypeName.ancestors, TypeName.parent]
      · exact TypeName.isSubtype_refl _
    · rw [isNaN_of_isUndefined hv] at hnan
      cases hnan
  · obtain ⟨n, rfl⟩ := h
    rw [type_ofInt]
    simp [TypeName.isSubtype, TypeName.ancestors, TypeName.parent]

/-- Exact literals are in the lane of their type. -/
theorem inLane_type {v : Number} (h : v.isExact = true) (hrational : v.type.isSubtype .rational = true) :
    v.InLane v.type := by
  rcases exact_cases h with ⟨q, rfl⟩ | ⟨x, y, rfl⟩
  · unfold InLane
    split
    next hinteger =>
      obtain ⟨x, hx, hwhole⟩ := eq_real_of_type hinteger
      cases hx
      obtain ⟨n, rfl⟩ : ∃ n : ℤ, (n : ℚ) = q := ⟨q.num, Rat.den_eq_one_iff q |>.1 (of_decide_eq_true hwhole)⟩
      exact ⟨n, rfl⟩
    next => rfl
  · rw [type] at hrational
    split at hrational <;> exact absurd hrational (by simp [TypeName.isSubtype, TypeName.ancestors, TypeName.parent])

section Lanes

variable {a b : Number} {t : TypeName}

/-- An operation on exact values stays in their lane. -/
theorem inLane_binary {op : Number → Number → Except NumberFault Number} {f : ℚ → ℚ → ℚ}
    {g : ℤ → ℤ → ℤ}
    (hrational : ∀ {a b : Number} {o p : Option ℚ}, a.Denotes o → b.Denotes p →
      ∃ c, op a b = .ok c ∧ c.Denotes (Option.map₂ f o p))
    (hinteger : ∀ m n, op (.ofInt m) (.ofInt n) = .ok (.ofInt (g m n)))
    (ha : a.InLane t) (hb : b.InLane t) : ∃ c, op a b = .ok c ∧ c.InLane t := by
  by_cases ht : t = .integer
  · subst ht
    obtain ⟨m, rfl⟩ := ha
    obtain ⟨n, rfl⟩ := hb
    exact ⟨_, hinteger m n, _, rfl⟩
  · obtain ⟨c, hc, hdenotes⟩ := hrational (denotes_rational? ha.rational)
      (denotes_rational? hb.rational)
    refine ⟨c, hc, ?_⟩
    unfold InLane
    split
    · exact absurd rfl ht
    · exact hdenotes.rational

theorem add_inLane (ha : a.InLane t) (hb : b.InLane t) : ∃ c, a.add b = .ok c ∧ c.InLane t :=
  inLane_binary add_denotes add_ofInt ha hb

theorem mul_inLane (ha : a.InLane t) (hb : b.InLane t) : ∃ c, a.mul b = .ok c ∧ c.InLane t :=
  inLane_binary mul_denotes mul_ofInt ha hb

theorem sub_inLane (ha : a.InLane t) (hb : b.InLane t) : ∃ c, a.sub b = .ok c ∧ c.InLane t :=
  inLane_binary (g := (· - ·)) sub_denotes (fun m n => by
    change Except.ok (ofRat ((m : ℚ) - n)) = _
    rw [← Int.cast_sub]
    rfl) ha hb

theorem neg_inLane (ha : a.InLane t) : ∃ c, a.neg = .ok c ∧ c.InLane t := by
  by_cases ht : t = .integer
  · subst ht
    obtain ⟨m, rfl⟩ := ha
    exact ⟨_, neg_ofInt m, _, rfl⟩
  · obtain ⟨c, hc, hdenotes⟩ := neg_denotes (denotes_rational? ha.rational)
    refine ⟨c, hc, ?_⟩
    unfold InLane
    split
    · exact absurd rfl ht
    · exact hdenotes.rational

theorem foldlM_inLane {f : Number → Number → Except NumberFault Number}
    (hf : ∀ {a b : Number}, a.InLane t → b.InLane t → ∃ c, f a b = .ok c ∧ c.InLane t) :
    ∀ {vs : List Number} {a : Number}, a.InLane t → (∀ v ∈ vs, v.InLane t) →
      ∃ c, vs.foldlM f a = .ok c ∧ c.InLane t
  | [], a, ha, _ => ⟨a, rfl, ha⟩
  | v :: vs, a, ha, hvs => by
      rw [List.forall_mem_cons] at hvs
      obtain ⟨c, hc, hlane⟩ := hf ha hvs.1
      rw [List.foldlM_cons, hc]
      exact foldlM_inLane hf hlane hvs.2

/-- A quotient of rationals is one, or undefined, or a fault. -/
theorem div_inLane (ha : a.InLane t) (hb : b.InLane t) {c : Number} (h : a.div b = .ok c) :
    c.InLane .rational := by
  have ha := denotes_rational? ha.rational
  have hb := denotes_rational? hb.rational
  cases hunderflows : quotientUnderflows a.rational? b.rational? with
  | true =>
      rw [div_underflows ha hb hunderflows] at h
      cases h
  | false =>
      obtain ⟨d, hd, hdenotes⟩ := div_denotes ha hb hunderflows
      rw [hd] at h
      cases h
      exact hdenotes.rational

/-- A whole power of a rational is one, or undefined. -/
theorem pow_inLane (precision : Nat) (ha : a.InLane t) (n : ℤ) {c : Number}
    (h : a.pow precision (.ofInt n) = .ok c) : c.InLane .rational := by
  obtain ⟨d, hd, hdenotes⟩ := pow_denotes precision (denotes_rational? ha.rational) n
  rw [hd] at h
  cases h
  exact hdenotes.rational

/-! ### The real line -/

theorem binary_isReal {op : Operation} (ha : a.isComplex = false) (hb : b.isComplex = false)
    {c : Number} (h : binary op a b = .ok c) : c.isComplex = false := by
  cases a with
  | real x =>
      cases b with
      | real y => exact isComplex_of_bind (f := id) h
      | complex y y' => cases hb
  | complex x x' => cases ha

theorem neg_isReal (ha : a.isComplex = false) {c : Number} (h : a.neg = .ok c) :
    c.isComplex = false := by
  cases a with
  | real x => exact isComplex_of_bind (f := id) h
  | complex x x' => cases ha

theorem foldlM_isReal {op : Operation} : ∀ {vs : List Number} {a c : Number}, a.isComplex = false →
    (∀ v ∈ vs, v.isComplex = false) → vs.foldlM (binary op) a = .ok c → c.isComplex = false
  | [], a, c, ha, _, h => by
      cases h
      exact ha
  | v :: vs, a, c, ha, hvs, h => by
      rw [List.forall_mem_cons] at hvs
      rw [List.foldlM_cons] at h
      obtain ⟨d, hd, h⟩ := Kernel.exists_of_bind_ok h
      exact foldlM_isReal (binary_isReal ha hvs.1 hd) hvs.2 h

end Lanes

end Number

/-! ## Elementary expressions -/

/-- How an elementary operator is evaluated, and how its result is typed. -/
def elementary? : String → Option (Evaluation × ResultRule)
  | "Add" => some (.sum, .numeric)
  | "Multiply" => some (.product, .numeric)
  | "Negate" => some (.negation, .numeric)
  | "Subtract" => some (.difference, .numeric)
  | "Divide" => some (.quotient, .quotient)
  | "Power" => some (.power, .power)
  | "Abs" => some (.absolute, .fixed .real)
  | _ => none

/-- The constants with a value that is a number. -/
def constantNames : List String := ["Pi", "ExponentialE", "ImaginaryUnit"]

/-- Whether a rule takes a number of operands. -/
def Evaluation.takesCount (count : Nat) : Evaluation → Bool
  | sum | product => true
  | negation | absolute => count == 1
  | difference | quotient | power => count == 2
  | _ => false

namespace Expr

mutual

/-- Whether an expression is built of numbers and constants by elementary operators, each applied to as
many operands as it takes. -/
def isElementary (t : DefinitionTable) : Expr → Bool
  | number _ => true
  | symbol n d _ => constantNames.contains n && d == t.number? n
  | application f ops d _ =>
      (d == t.functionNumber? f && (elementary? f).any (·.1.takesCount ops.length)) &&
        allElementary t ops
  | error _ _ _ => false

def allElementary (t : DefinitionTable) : List Expr → Bool
  | [] => true
  | e :: rest => isElementary t e && allElementary t rest

end

mutual

/-- Whether types are what they seem: no operator is applied to nothing, and what is typed as an exact
number is made of exact numbers. -/
def isExactlyTyped (t : DefinitionTable) : Expr → Bool
  | application f ops d c =>
      (!ops.isEmpty && (!(t.typeOf (application f ops d c)).isSubtype .rational ||
        allOver Number.isExact ops)) && allExactlyTyped t ops
  | _ => true

def allExactlyTyped (t : DefinitionTable) : List Expr → Bool
  | [] => true
  | e :: rest => isExactlyTyped t e && allExactlyTyped t rest

end

mutual

/-- The values that an elementary expression may have, given those of constants. -/
def HasValue (constant : String → Number → Prop) (precision : Nat) : Expr → Number → Prop
  | number v, w => w = v
  | symbol n _ _, w => constant n w
  | application f ops _ _, w => ∃ r rule vs, elementary? f = some (r, rule) ∧
      HaveValues constant precision ops vs ∧ r.apply precision vs = .ok (some w)
  | error _ _ _, _ => False

def HaveValues (constant : String → Number → Prop) (precision : Nat) :
    List Expr → List Number → Prop
  | [], vs => vs = []
  | e :: rest, vs => ∃ w ws, vs = w :: ws ∧ HasValue constant precision e w ∧
      HaveValues constant precision rest ws

end

theorem haveValues_iff {constant : String → Number → Prop} {precision : Nat} :
    ∀ {es : List Expr} {vs : List Number},
      HaveValues constant precision es vs ↔ List.Forall₂ (HasValue constant precision) es vs
  | [], vs => by
      rw [HaveValues]
      constructor
      · rintro rfl
        exact .nil
      · rintro ⟨⟩
        rfl
  | e :: rest, vs => by
      rw [HaveValues]
      constructor
      · rintro ⟨w, ws, rfl, hw, hws⟩
        exact .cons hw (haveValues_iff.1 hws)
      · rintro (_ | ⟨hw, hws⟩)
        exact ⟨_, _, rfl, hw, haveValues_iff.2 hws⟩

end Expr

theorem DefinitionTable.typesOf_eq_map (t : DefinitionTable) (es : List Expr) :
    t.typesOf es = es.map t.typeOf := by
  induction es with
  | nil => rfl
  | cons e rest ih => rw [typesOf, ih, List.map_cons]

/-- The type of a constant. -/
def constantType : String → TypeName
  | "ImaginaryUnit" => .imaginary
  | _ => .real

theorem isNumberType_constantType (n : String) : (constantType n).isNumberType = true := by
  unfold constantType
  split <;> rfl

theorem isSubtype_rational_constantType (n : String) :
    (constantType n).isSubtype .rational = false := by
  unfold constantType
  split <;> simp [TypeName.isSubtype, TypeName.ancestors, TypeName.parent]

/-- A table in which elementary operators and constants are typed as they should. -/
structure DefinitionTable.TypesElementary (t : DefinitionTable) : Prop where
  operator : ∀ {f r rule}, elementary? f = some (r, rule) →
    ∃ g, (t.functionNumber? f).bind t.get? = some (.function g) ∧ g.isEvaluatedBy r = true ∧
      g.signature.result = rule
  constant : ∀ {n}, n ∈ constantNames → ∃ d, t.find? n = some (.symbol d) ∧ d.type = constantType n

namespace Expr

variable {t : DefinitionTable}

theorem isElementary_symbol {n : String} {d : Option Nat} {c : Bool}
    (h : (symbol n d c).isElementary t = true) : n ∈ constantNames ∧ d = t.number? n := by
  rwa [isElementary, Bool.and_eq_true, beq_iff_eq, List.contains_iff_mem] at h

theorem isElementary_application {f : String} {ops : List Expr} {d : Option Nat} {c : Bool}
    (h : (application f ops d c).isElementary t = true) :
    d = t.functionNumber? f ∧ (∃ r rule, elementary? f = some (r, rule) ∧
      r.takesCount ops.length = true) ∧ allElementary t ops = true := by
  rw [isElementary, Bool.and_eq_true, Bool.and_eq_true, beq_iff_eq] at h
  obtain ⟨⟨hd, h⟩, hops⟩ := h
  obtain ⟨⟨r, rule⟩, hr, htakes⟩ := (Option.any_eq_true _ _).1 h
  exact ⟨hd, ⟨r, rule, hr, htakes⟩, hops⟩

theorem isExactlyTyped_application {f : String} {ops : List Expr} {d : Option Nat} {c : Bool}
    (h : (application f ops d c).isExactlyTyped t = true) :
    ops ≠ [] ∧ ((t.typeOf (application f ops d c)).isSubtype .rational = true →
      allOver Number.isExact ops = true) ∧ allExactlyTyped t ops = true := by
  rw [isExactlyTyped, Bool.and_eq_true, Bool.and_eq_true, Bool.or_eq_true, Bool.not_eq_true',
    Bool.not_eq_true'] at h
  obtain ⟨⟨hne, hexact⟩, hops⟩ := h
  refine ⟨by simpa using hne, fun hrational => ?_, hops⟩
  rcases hexact with hexact | hexact
  · rw [hrational] at hexact
    cases hexact
  · exact hexact

mutual

theorem isValid_of_isElementary : ∀ {e : Expr}, e.isElementary t = true → e.isValid = true
  | number _, _ => rfl
  | symbol _ _ _, _ => rfl
  | application _ _ _ _, h => allValid_of_allElementary (isElementary_application h).2.2
  | error _ _ _, h => by cases h

theorem allValid_of_allElementary : ∀ {es : List Expr}, allElementary t es = true →
    allValid es = true
  | [], _ => rfl
  | e :: rest, h => by
      rw [allElementary, Bool.and_eq_true] at h
      rw [allValid, isValid_of_isElementary h.1, allValid_of_allElementary h.2, Bool.true_and]

end

/-- The type of a constant is that of its definition. -/
theorem typeOf_constant (ht : t.TypesElementary) {n : String} (hn : n ∈ constantNames) {c : Bool} :
    t.typeOf (symbol n (t.number? n) c) = constantType n := by
  obtain ⟨s, hs, htype⟩ := ht.constant hn
  rw [DefinitionTable.find?] at hs
  rw [DefinitionTable.typeOf, hs, ← htype]

/-- The type of an elementary application follows from those of its operands. -/
theorem typeOf_application (ht : t.TypesElementary) {f : String} {ops : List Expr} {c : Bool}
    {r : Evaluation} {rule : ResultRule} (hr : elementary? f = some (r, rule)) :
    t.typeOf (application f ops (t.functionNumber? f) c) = rule.apply (ops.map t.typeOf) := by
  obtain ⟨g, hg, -, hresult⟩ := ht.operator hr
  rw [DefinitionTable.typeOf, hg, ← hresult]
  change g.signature.result.apply (t.typesOf ops) = _
  rw [t.typesOf_eq_map]

end Expr

/-! ## Rules -/

theorem elementary?_cases {f : String} {r : Evaluation} {rule : ResultRule}
    (h : elementary? f = some (r, rule)) :
    (r = .sum ∨ r = .product ∨ r = .negation ∨ r = .difference) ∧ rule = .numeric ∨
      r = .quotient ∧ rule = .quotient ∨ r = .power ∧ rule = .power ∨
        r = .absolute ∧ rule = .fixed .real := by
  unfold elementary? at h
  split at h <;> cases h <;> simp

namespace ResultRule

variable {types : List TypeName}

theorem numericType_spec (hne : types ≠ []) (h : ∀ t ∈ types, t.isNumberType = true) :
    (numericType types).isNumberType = true ∧
      ∀ t ∈ types, t.isSubtype (numericType types) = true := by
  have hall : types.all (·.isSubtype .number) = true :=
    List.all_eq_true.2 fun t ht => (TypeName.isNumberType_iff.1 (h t ht)).1
  rw [numericType, hall, if_pos rfl]
  exact TypeName.widen_spec hne h

theorem isSubtype_numericType_single {t : TypeName} (h : t.isNumberType = true) :
    t.isSubtype (numericType [t]) = true :=
  (numericType_spec (List.cons_ne_nil t []) (by simpa using h)).2 t (by simp)

theorem isNumberType_integerToRational {t : TypeName} (h : t.isNumberType = true) :
    (integerToRational t).isNumberType = true := by
  rw [integerToRational]
  split
  · rfl
  · exact h

/-- Integers are widened, nothing else. -/
theorem isSubtype_of_integerToRational {t u : TypeName} (hu : u.isSubtype .real = true)
    (hne : u ≠ .integer) (h : (integerToRational t).isSubtype u = true) : t.isSubtype u = true := by
  rw [integerToRational] at h
  split at h
  next ht =>
    subst ht
    rcases TypeName.isSubtype_real_iff.1 hu with rfl | rfl | rfl | rfl
    · simp [TypeName.isSubtype, TypeName.ancestors, TypeName.parent] at h
    · simp [TypeName.isSubtype, TypeName.ancestors, TypeName.parent]
    · simp [TypeName.isSubtype, TypeName.ancestors, TypeName.parent]
    · exact absurd rfl hne
  next => exact h

theorem inLane_integerToRational {v : Number} (h : v.InLane .rational) (t : TypeName) :
    v.InLane (integerToRational t) := by
  rw [integerToRational]
  split
  next => exact h
  next ht =>
    unfold Number.InLane
    split
    next => exact absurd rfl ht
    next => exact h

/-- A power has a type below `real` only if its exponent is an integer. -/
theorem apply_power {t u x : TypeName} (hu : u.isNumberType = true) (hx : x.isSubtype .real = true)
    (hne : x ≠ .integer) (h : (apply .power [t, u]).isSubtype x = true) :
    u = .integer ∧ (numericType [t]).isSubtype x = true ∧
      apply .power [t, u] = integerToRational (numericType [t]) := by
  have hunless : TypeName.isSubtype .number x = false := by
    rcases TypeName.isSubtype_real_iff.1 hx with rfl | rfl | rfl | rfl <;>
      simp [TypeName.isSubtype, TypeName.ancestors, TypeName.parent]
  rw [apply] at h ⊢
  split at h
  next hinteger =>
    rw [if_pos hinteger]
    rcases TypeName.isSubtype_integer_iff.1 hinteger with rfl | rfl
    · exact absurd rfl (TypeName.isNumberType_ne hu)
    · exact ⟨rfl, isSubtype_of_integerToRational hx hne h, rfl⟩
  next =>
    rw [hunless] at h
    cases h

/-- **The type of an elementary application is one of numbers.** -/
theorem isNumberType_apply {f : String} {r : Evaluation} {rule : ResultRule}
    (hr : elementary? f = some (r, rule)) (hne : types ≠ []) (h : ∀ t ∈ types, t.isNumberType = true) :
    (rule.apply types).isNumberType = true := by
  rcases elementary?_cases hr with ⟨-, rfl⟩ | ⟨-, rfl⟩ | ⟨-, rfl⟩ | ⟨-, rfl⟩
  · exact (numericType_spec hne h).1
  · exact isNumberType_integerToRational (numericType_spec hne h).1
  · rcases types with _ | ⟨base, _ | ⟨exponent, _ | ⟨x, rest⟩⟩⟩
    · rfl
    · rfl
    · rw [apply]
      split
      · refine isNumberType_integerToRational (numericType_spec (by simp) ?_).1
        simpa using h base (by simp)
      · rfl
    · rfl
  · rfl

end ResultRule

namespace Evaluation

variable {r : Evaluation} {rule : ResultRule} {f : String} {types : List TypeName} {vs : List Number}
  {w : Number} {precision : Nat}

theorem ok_of_some {x : Except NumberFault Number}
    (h : (do return some (← x) : Except NumberFault (Option Number)) = .ok (some w)) : x = .ok w := by
  obtain ⟨a, ha, h⟩ := Kernel.exists_of_bind_ok h
  cases h
  exact ha

theorem of_unary {g : Number → Except NumberFault Number} (h : unary g vs = .ok (some w)) :
    ∃ v, vs = [v] ∧ g v = .ok w := by
  unfold unary at h
  split at h
  next v => exact ⟨v, rfl, ok_of_some h⟩
  next => cases h

theorem of_binary {g : Number → Number → Except NumberFault Number}
    (h : binary g vs = .ok (some w)) : ∃ a b, vs = [a, b] ∧ g a b = .ok w := by
  unfold binary at h
  split at h
  next a b => exact ⟨a, b, rfl, ok_of_some h⟩
  next => cases h

/-- What holds of the values of all operands. -/
theorem forall_of_forall₂ {α : Type} {P : TypeName → α → Prop} {Q : α → Prop} {types : List TypeName}
    {vs : List α} (h : List.Forall₂ P types vs) (hP : ∀ t ∈ types, ∀ v, P t v → Q v) :
    ∀ v ∈ vs, Q v := by
  induction h with
  | nil => simp
  | cons hv _ ih =>
      rw [List.forall_mem_cons] at hP ⊢
      exact ⟨hP.1 _ hv, ih hP.2⟩

theorem inLane_ofInt (n : ℤ) (t : TypeName) : (Number.ofInt n).InLane t := by
  unfold Number.InLane
  split
  · exact ⟨n, rfl⟩
  · rfl

/-- Sums, products, opposites and differences of exact values. -/
theorem numeric_inLane {t : TypeName} (hr : r = .sum ∨ r = .product ∨ r = .negation ∨ r = .difference)
    (hvs : ∀ v ∈ vs, v.InLane t) (hw : r.apply precision vs = .ok (some w)) : w.InLane t := by
  have hunique : ∀ {x : Except NumberFault Number}, (∃ c, x = .ok c ∧ c.InLane t) → x = .ok w →
      w.InLane t := by
    rintro _ ⟨c, rfl, hc⟩ h
    cases h
    exact hc
  rcases hr with rfl | rfl | rfl | rfl
  · exact hunique (Number.foldlM_inLane Number.add_inLane (inLane_ofInt 0 t) hvs) (ok_of_some hw)
  · exact hunique (Number.foldlM_inLane Number.mul_inLane (inLane_ofInt 1 t) hvs) (ok_of_some hw)
  · obtain ⟨v, rfl, hv⟩ := of_unary hw
    exact hunique (Number.neg_inLane (hvs v (by simp))) hv
  · obtain ⟨a, b, rfl, hab⟩ := of_binary hw
    exact hunique (Number.sub_inLane (hvs a (by simp)) (hvs b (by simp))) hab

/-- Sums, products, opposites and differences of real values. -/
theorem numeric_isReal (hr : r = .sum ∨ r = .product ∨ r = .negation ∨ r = .difference)
    (hvs : ∀ v ∈ vs, v.isComplex = false) (hw : r.apply precision vs = .ok (some w)) :
    w.isComplex = false := by
  rcases hr with rfl | rfl | rfl | rfl
  · exact Number.foldlM_isReal rfl hvs (ok_of_some hw)
  · exact Number.foldlM_isReal rfl hvs (ok_of_some hw)
  · obtain ⟨v, rfl, hv⟩ := of_unary hw
    exact Number.neg_isReal (hvs v (by simp)) hv
  · obtain ⟨a, b, rfl, hab⟩ := of_binary hw
    exact Number.binary_isReal (hvs a (by simp)) (hvs b (by simp)) hab

/-- **Exact values stay in the lane of their type.** -/
theorem apply_inLane (hf : elementary? f = some (r, rule)) (hne : types ≠ [])
    (htypes : ∀ t ∈ types, t.isNumberType = true)
    (hvs : List.Forall₂ (fun t (v : Number) => t.isSubtype .rational = true → v.InLane t) types vs)
    (hrational : (rule.apply types).isSubtype .rational = true)
    (hw : r.apply precision vs = .ok (some w)) : w.InLane (rule.apply types) := by
  have hspec := ResultRule.numericType_spec hne htypes
  -- operands of exact types are in the lane of every exact type above theirs
  have hall : ∀ {u : TypeName}, u.isSubtype .rational = true →
      (∀ t ∈ types, t.isSubtype u = true) → ∀ v ∈ vs, v.InLane u := by
    intro u hu hle
    refine forall_of_forall₂ hvs fun t ht v hv => ?_
    exact (hv (TypeName.isSubtype_trans (.inr rfl) (hle t ht) hu)).mono
      (TypeName.isNumberType_ne (htypes t ht)) (hle t ht)
  rcases elementary?_cases hf with ⟨hr, rfl⟩ | ⟨rfl, rfl⟩ | ⟨rfl, rfl⟩ | ⟨rfl, rfl⟩
  · exact numeric_inLane hr (hall hrational hspec.2) hw
  · obtain ⟨a, b, rfl, hab⟩ := of_binary hw
    have hlane := hall (ResultRule.isSubtype_of_integerToRational TypeName.rational_isSubtype_real
      (by decide) hrational) hspec.2
    exact ResultRule.inLane_integerToRational
      (Number.div_inLane (hlane a (by simp)) (hlane b (by simp)) hab) _
  · obtain ⟨a, b, rfl, hab⟩ := of_binary hw
    rcases hvs with _ | ⟨ha, _ | ⟨hb, _ | _⟩⟩
    rename_i t u
    obtain ⟨rfl, hbase, happly⟩ := ResultRule.apply_power (htypes u (by simp)) TypeName.rational_isSubtype_real
      (by decide) hrational
    obtain ⟨n, rfl⟩ := hb TypeName.integer_isSubtype_rational
    have ht := ResultRule.isSubtype_numericType_single (htypes t (by simp))
    rw [happly]
    exact ResultRule.inLane_integerToRational
      (Number.pow_inLane precision (ha (TypeName.isSubtype_trans (.inr rfl) ht hbase)) n hab) _
  · rw [ResultRule.apply, TypeName.isSubtype_rational_iff] at hrational
    simp at hrational

/-- **Real values stay on the real line**, and so do absolute values. -/
theorem apply_isReal (hf : elementary? f = some (r, rule)) (hne : types ≠ [])
    (htypes : ∀ t ∈ types, t.isNumberType = true)
    (hvs : List.Forall₂ (fun t (v : Number) => v.Carries t) types vs)
    (hreal : (rule.apply types).isSubtype .real = true)
    (hw : r.apply precision vs = .ok (some w)) : w.isComplex = false := by
  have hspec := ResultRule.numericType_spec hne htypes
  have hall : ∀ {u : TypeName}, u.isSubtype .real = true →
      (∀ t ∈ types, t.isSubtype u = true) → ∀ v ∈ vs, v.isComplex = false := by
    intro u hu hle
    exact forall_of_forall₂ hvs fun t ht v hv =>
      hv.real (TypeName.isSubtype_trans (.inl rfl) (hle t ht) hu)
  rcases elementary?_cases hf with ⟨hr, rfl⟩ | ⟨rfl, rfl⟩ | ⟨rfl, rfl⟩ | ⟨rfl, rfl⟩
  · exact numeric_isReal hr (hall hreal hspec.2) hw
  · obtain ⟨a, b, rfl, hab⟩ := of_binary hw
    have hoperands := hall (ResultRule.isSubtype_of_integerToRational (TypeName.isSubtype_refl _) (by decide)
      hreal) hspec.2
    exact Number.binary_isReal (hoperands a (by simp)) (hoperands b (by simp)) hab
  · obtain ⟨a, b, rfl, hab⟩ := of_binary hw
    rcases hvs with _ | ⟨ha, _ | ⟨hb, _ | _⟩⟩
    rename_i t u
    obtain ⟨rfl, hbase, -⟩ := ResultRule.apply_power (htypes u (by simp)) (TypeName.isSubtype_refl _)
      (by decide) hreal
    have ht := ResultRule.isSubtype_numericType_single (htypes t (by simp))
    obtain ⟨x, rfl⟩ := Number.eq_real_of_isComplex
      (ha.real (TypeName.isSubtype_trans (.inl rfl) ht hbase))
    obtain ⟨y, rfl, hy⟩ := Number.eq_real_of_type (hb.whole rfl)
    exact Number.pow_isReal (.inr hy) hab
  · obtain ⟨v, rfl, hv⟩ := of_unary hw
    exact Number.abs_isReal hv

end Evaluation

/-! ## Values and types of expressions -/

namespace Expr

variable {t : DefinitionTable} {constant : String → Number → Prop} {precision : Nat}

mutual

/-- **The type of an elementary expression is one of numbers.** -/
theorem isNumberType_typeOf (ht : t.TypesElementary) : ∀ {e : Expr}, e.isElementary t = true →
    e.isExactlyTyped t = true → (t.typeOf e).isNumberType = true
  | number v, _, _ => v.type_isNumberType
  | symbol n d c, h, _ => by
      obtain ⟨hn, rfl⟩ := isElementary_symbol h
      rw [typeOf_constant ht hn]
      exact isNumberType_constantType n
  | application f ops d c, h, hx => by
      obtain ⟨rfl, ⟨r, rule, hr, -⟩, hops⟩ := isElementary_application h
      obtain ⟨hne, -, hxs⟩ := isExactlyTyped_application hx
      rw [typeOf_application ht hr]
      exact ResultRule.isNumberType_apply hr (by simpa using hne) (areNumberTypes ht hops hxs)

theorem areNumberTypes (ht : t.TypesElementary) : ∀ {es : List Expr}, allElementary t es = true →
    allExactlyTyped t es = true → ∀ u ∈ es.map t.typeOf, u.isNumberType = true
  | [], _, _ => by simp
  | e :: rest, h, hx => by
      rw [allElementary, Bool.and_eq_true] at h
      rw [allExactlyTyped, Bool.and_eq_true] at hx
      rw [List.map_cons, List.forall_mem_cons]
      exact ⟨isNumberType_typeOf ht h.1 hx.1, areNumberTypes ht h.2 hx.2⟩

end

mutual

/-- **What is typed as an exact number and made of exact numbers has an exact value.** -/
theorem inLane_typeOf (ht : t.TypesElementary) : ∀ {e : Expr} {v : Number}, e.isElementary t = true →
    e.isExactlyTyped t = true → e.isExact = true → (t.typeOf e).isSubtype .rational = true →
    HasValue constant precision e v → v.InLane (t.typeOf e)
  | number v, w, _, _, hexact, hrational, hv => by
      obtain rfl : w = v := hv
      exact Number.inLane_type hexact hrational
  | symbol n d c, _, h, _, _, hrational, _ => by
      obtain ⟨hn, rfl⟩ := isElementary_symbol h
      rw [typeOf_constant ht hn] at hrational
      exact absurd hrational (Bool.eq_false_iff.1 (isSubtype_rational_constantType n))
  | application f ops d c, w, h, hx, hexact, hrational, hv => by
      obtain ⟨rfl, ⟨r, rule, hr, -⟩, hops⟩ := isElementary_application h
      obtain ⟨hne, -, hxs⟩ := isExactlyTyped_application hx
      rw [HasValue] at hv
      obtain ⟨r', rule', vs, hr', hvs, hw⟩ := hv
      obtain ⟨rfl, rfl⟩ : r = r' ∧ rule = rule' := by simpa [hr] using hr'
      rw [typeOf_application ht hr] at hrational ⊢
      exact Evaluation.apply_inLane hr (by simpa using hne) (areNumberTypes ht hops hxs)
        (areInLane ht hops hxs hexact hvs) hrational hw

theorem areInLane (ht : t.TypesElementary) : ∀ {es : List Expr} {vs : List Number},
    allElementary t es = true → allExactlyTyped t es = true → allOver Number.isExact es = true →
    HaveValues constant precision es vs → List.Forall₂ (fun u (v : Number) =>
      u.isSubtype .rational = true → v.InLane u) (es.map t.typeOf) vs
  | [], vs, _, _, _, hvs => by
      obtain rfl : vs = [] := hvs
      exact .nil
  | e :: rest, vs, h, hx, hexact, hvs => by
      rw [allElementary, Bool.and_eq_true] at h
      rw [allExactlyTyped, Bool.and_eq_true] at hx
      rw [allOver, Bool.and_eq_true] at hexact
      rw [HaveValues] at hvs
      obtain ⟨w, ws, rfl, hw, hws⟩ := hvs
      exact .cons (fun hu => inLane_typeOf ht h.1 hx.1 hexact.1 hu hw)
        (areInLane ht h.2 hx.2 hexact.2 hws)

end

mutual

/-- **Values carry the types of their expressions.** -/
theorem carries_typeOf (ht : t.TypesElementary)
    (hconstant : ∀ {n v}, n ∈ constantNames → constant n v → v.Carries (constantType n)) :
    ∀ {e : Expr} {v : Number}, e.isElementary t = true → e.isExactlyTyped t = true →
      HasValue constant precision e v → v.Carries (t.typeOf e)
  | number v, w, _, _, hv => by
      obtain rfl : w = v := hv
      exact Number.carries_type _
  | symbol n d c, w, h, _, hv => by
      obtain ⟨hn, rfl⟩ := isElementary_symbol h
      rw [typeOf_constant ht hn]
      exact hconstant hn hv
  | application f ops d c, w, h, hx, hv => by
      have hlane := fun hexact hrational =>
        inLane_typeOf (e := application f ops d c) ht h hx hexact hrational hv
      have hnumber := isNumberType_typeOf ht h hx
      obtain ⟨rfl, ⟨r, rule, hr, -⟩, hops⟩ := isElementary_application h
      obtain ⟨hne, hexact, hxs⟩ := isExactlyTyped_application hx
      rw [HasValue] at hv
      obtain ⟨r', rule', vs, hr', hvs, hw⟩ := hv
      obtain ⟨rfl, rfl⟩ : r = r' ∧ rule = rule' := by simpa [hr] using hr'
      have hreal : (t.typeOf (application f ops (t.functionNumber? f) c)).isSubtype .real = true →
          w.isComplex = false := by
        rw [typeOf_application ht hr]
        exact fun hreal => Evaluation.apply_isReal hr (by simpa using hne)
          (areNumberTypes ht hops hxs) (allCarry ht hconstant hops hxs hvs) hreal hw
      refine ⟨hreal, fun hinteger => ?_, fun hcomplex hnan => ?_⟩
      · rw [hinteger] at hlane hexact
        obtain ⟨n, rfl⟩ := hlane (hexact TypeName.integer_isSubtype_rational) TypeName.integer_isSubtype_rational
        exact Number.type_ofInt n
      · generalize t.typeOf (application f ops (t.functionNumber? f) c) = u at *
        cases u with
        | number => exact Number.type_isSubtype w
        | real => exact Number.type_isSubtype_real (hreal (TypeName.isSubtype_refl _)) hnan
        | rational =>
            have hrational := hlane (hexact (TypeName.isSubtype_refl _)) (TypeName.isSubtype_refl _)
            exact hrational.type_isSubtype (.inl rfl) hnan
        | integer =>
            exact (hlane (hexact TypeName.integer_isSubtype_rational)
              TypeName.integer_isSubtype_rational).type_isSubtype (.inr rfl) hnan
        | complex => exact absurd hcomplex (by simp [TypeName.isSubtype, TypeName.ancestors, TypeName.parent])
        | imaginary => exact absurd hcomplex (by simp [TypeName.isSubtype, TypeName.ancestors, TypeName.parent])
        | _ => cases hnumber

theorem allCarry (ht : t.TypesElementary)
    (hconstant : ∀ {n v}, n ∈ constantNames → constant n v → v.Carries (constantType n)) :
    ∀ {es : List Expr} {vs : List Number}, allElementary t es = true → allExactlyTyped t es = true →
      HaveValues constant precision es vs →
        List.Forall₂ (fun u (v : Number) => v.Carries u) (es.map t.typeOf) vs
  | [], vs, _, _, hvs => by
      obtain rfl : vs = [] := hvs
      exact .nil
  | e :: rest, vs, h, hx, hvs => by
      rw [allElementary, Bool.and_eq_true] at h
      rw [allExactlyTyped, Bool.and_eq_true] at hx
      rw [HaveValues] at hvs
      obtain ⟨w, ws, rfl, hw, hws⟩ := hvs
      exact .cons (carries_typeOf ht hconstant h.1 hx.1 hw) (allCarry ht hconstant h.2 hx.2 hws)

end

end Expr

/-! ## Evaluation -/

/-- Whether a value field gives values of a type only. -/
def Datum.givesType (t : TypeName) : Datum → Bool
  | .callback (.value .pi) | .callback (.value .euler) => t == .real
  | .raw (.value v) => v.type == t
  | _ => false

/-- Whether a definition is that of a constant, with a value of its type. -/
def Definition.isConstant (n : String) : Definition → Bool
  | .symbol d => d.type == constantType n && d.value.givesType d.type
  | .function _ => false

/-- Whether a definition is that of an elementary operator. -/
def Definition.isOperator (f : String) : Definition → Bool
  | .symbol _ => false
  | .function g => (elementary? f).any fun (r, rule) =>
      g.isEvaluatedBy r && g.signature.result == rule

/-- The elementary operators. -/
def elementaryOperators : List String :=
  ["Add", "Multiply", "Negate", "Subtract", "Divide", "Power", "Abs"]

theorem mem_elementaryOperators {f : String} {r : Evaluation} {rule : ResultRule}
    (h : elementary? f = some (r, rule)) : f ∈ elementaryOperators := by
  unfold elementary? at h
  split at h
  all_goals first
    | (simp [elementaryOperators]; done)
    | cases h

namespace Kernel

variable {k : Kernel} {n : String}

/-- What computes a real number fits the type of reals. -/
theorem fits_real {x : Except NumberFault Scalar} {v : Number}
    (h : (do return Number.real (← x) : Except NumberFault Number) = .ok v) : v.Fits .real := by
  obtain ⟨y, -, hy⟩ := exists_of_bind_ok h
  cases hy
  exact ⟨⟨fun _ => rfl, nofun, fun _ => Number.type_isSubtype_real rfl⟩, Number.type_isSubtype_real rfl⟩

theorem fits_of_fieldGives {d : Datum} {t : TypeName} {v : Number} (h : d.givesType t = true)
    (hv : FieldGives d (some v)) : v.Fits t := by
  unfold Datum.givesType at h
  split at h
  · rw [beq_iff_eq] at h
    obtain ⟨digits, x, hx, hv⟩ := hv
    cases hv
    exact h ▸ fits_real hx
  · rw [beq_iff_eq] at h
    obtain ⟨digits, x, hx, hv⟩ := hv
    cases hv
    exact h ▸ fits_real hx
  · rw [beq_iff_eq] at h
    cases hv
    exact h ▸ Number.fits_type _
  · cases h

/-- A value field of a constant is evaluated without any change to the kernel. -/
theorem yields_fieldValue_constant {constant : String → Action (Option Number)} {d : Datum}
    {t : TypeName} (h : d.givesType t = true) :
    Yields Anyhow (fieldValue constant d) k fun o k' => k = k' ∧ ∀ v, o = some v → v.Fits t := by
  have hsame : Yields Anyhow (fieldValue constant d) k fun _ k' => k = k' := by
    unfold Datum.givesType at h
    unfold fieldValue
    split at h
    · refine Yields.bind (P := fun _ k' => k = k') rfl fun _ _ hk => ?_
      exact Yields.bind (P := fun _ k' => k = k')
        (yields_number (fun _ _ => trivial) fun _ _ => hk) fun _ _ hk => hk
    · refine Yields.bind (P := fun _ k' => k = k') rfl fun _ _ hk => ?_
      exact Yields.bind (P := fun _ k' => k = k')
        (yields_number (fun _ _ => trivial) fun _ _ => hk) fun _ _ hk => hk
    · exact rfl
    · cases h
  refine (hsame.and (yields_fieldValue d)).mono fun o k' ⟨hk, ho⟩ => ⟨hk, ?_⟩
  rintro v rfl
  exact fits_of_fieldGives h ho

/-- The standard definitions are there, and the cached values of constants fit their types. -/
structure TypesSoundly (k : Kernel) : Prop where
  persists : standard.table.Persists k.table
  cached : ∀ {n v}, n ∈ constantNames → (n, some v) ∈ k.constants → v.Fits (constantType n)

theorem standard_elementary :
    elementaryOperators.all (fun f =>
      (standard.table.find? f).any fun d => !d.isInferred && d.isOperator f) = true ∧
    constantNames.all (fun n =>
      (standard.table.find? n).any fun d => !d.isInferred && d.isConstant n) = true := by
  constructor <;> (rw [standard_eq]; decide +kernel)

namespace TypesSoundly

theorem symbol (hk : k.TypesSoundly) (hn : n ∈ constantNames) :
    ∃ d, k.table.find? n = some (.symbol d) ∧ d.type = constantType n ∧
      d.value.givesType d.type = true := by
  obtain ⟨d, hd, h⟩ :=
    (Option.any_eq_true _ _).1 (List.all_eq_true.1 standard_elementary.2 n hn)
  rw [Bool.and_eq_true, Bool.not_eq_true'] at h
  obtain ⟨d', hd', hpersists⟩ := hk.persists.definition n d hd
  obtain rfl := hpersists.fixed h.1
  cases d' with
  | symbol s =>
      obtain ⟨htype, hvalue⟩ := (Bool.and_eq_true _ _).mp h.2
      exact ⟨s, hd', beq_iff_eq.1 htype, hvalue⟩
  | function g => cases h.2

theorem typesElementary (hk : k.TypesSoundly) : k.table.TypesElementary where
  operator {f r rule} hr := by
    obtain ⟨d, hd, h⟩ := (Option.any_eq_true _ _).1
      (List.all_eq_true.1 standard_elementary.1 f (mem_elementaryOperators hr))
    rw [Bool.and_eq_true, Bool.not_eq_true'] at h
    obtain ⟨d', hd', hpersists⟩ := hk.persists.definition f d hd
    obtain rfl := hpersists.fixed h.1
    cases d' with
    | symbol s => cases h.2
    | function g =>
        have hg := h.2
        rw [Definition.isOperator, hr, Option.any_some, Bool.and_eq_true, beq_iff_eq] at hg
        refine ⟨g, ?_, hg⟩
        rw [DefinitionTable.functionNumber?, hd']
        exact hd'
  constant hn := by
    obtain ⟨d, hd, htype, -⟩ := hk.symbol hn
    exact ⟨d, hd, htype⟩

end TypesSoundly

/-- **No call makes a type unsound.** -/
theorem permanent_typesSoundly : Permanent TypesSoundly where
  noted _ hk := ⟨hk.persists, hk.cached⟩
  pooled _ hk := ⟨hk.persists, hk.cached⟩
  cached {k k' name d v} hk hd hgives hk' := by
    refine ⟨hk'.persists, fun {n w} hn hw => ?_⟩
    rcases List.mem_cons.1 hw with h | h
    · cases h
      obtain ⟨s, hs, htype, hvalue⟩ := hk.symbol hn
      rw [DefinitionTable.symbol?, hs] at hd
      cases hd
      exact htype ▸ fits_of_fieldGives hvalue hgives.fieldGives
    · exact hk'.cached hn h
  configured _ hk := ⟨hk.persists, hk.cached⟩
  forgotten _ hsub hk := ⟨hk.persists, fun hn hv => hk.cached hn (hsub.subset hv)⟩
  narrowed hk hd haccepts :=
    ⟨hk.persists.trans (.narrow hd (Definition.persists_narrow haccepts)), hk.cached⟩
  met hk hname d := ⟨(permanent_persists standard.table).met hk.persists hname d, hk.cached⟩
  declared d hk hold := ⟨(permanent_persists standard.table).declared d hk.persists hold, hk.cached⟩

theorem typesSoundly_after (run : List Call) : (standard.after run).TypesSoundly :=
  permanent_typesSoundly.after ⟨.refl _, fun _ h => by
    rw [standard_constants] at h
    cases h⟩ run

/-- The second kernel differs from the first at most in the values of constants that are cached. -/
structure Caches (k k' : Kernel) : Prop where
  sound : k'.TypesSoundly
  table : k'.table = k.table
  precision : k'.settings.precision = k.settings.precision

/-- **The value of a constant fits its type.** -/
theorem TypesSoundly.yields_constant (hk : k.TypesSoundly) (hn : n ∈ constantNames) :
    Yields Anyhow (constant n) k fun o k' => k.Caches k' ∧
      ∀ v, o = some v → v.Fits (constantType n) := by
  obtain ⟨d, hd, htype, hvalue⟩ := hk.symbol hn
  refine Yields.bind (P := fun u k' => u = k.table ∧ k = k') ⟨rfl, rfl⟩ ?_
  rintro _ _ ⟨rfl, rfl⟩
  refine Yields.bind (P := fun u k' => k = u ∧ k = k') ⟨rfl, rfl⟩ ?_
  rintro _ _ ⟨rfl, rfl⟩
  cases hc : k.constants.lookup n with
  | some o =>
      refine Yields.pure ⟨⟨hk, rfl, rfl⟩, ?_⟩
      rintro v rfl
      obtain ⟨l, l', hl, -⟩ := List.lookup_eq_some_iff.1 hc
      exact hk.cached hn (hl ▸ by simp)
  | none =>
      refine Yields.bind (P := fun u k' => u = k.table ∧ k = k') ⟨rfl, rfl⟩ ?_
      rintro _ _ ⟨rfl, rfl⟩
      rw [DefinitionTable.symbol?, hd]
      simp only [Option.bind_some, Definition.symbol?]
      split
      next => exact Yields.pure ⟨⟨hk, rfl, rfl⟩, by simp⟩
      next =>
        refine (yields_fieldValue_constant hvalue).bind ?_
        rintro o _ ⟨rfl, ho⟩
        refine Yields.bind (P := fun _ k' => k.Caches k') ⟨⟨hk.persists, fun {m v} hm hv => ?_⟩, rfl, rfl⟩
          fun _ _ hk' => Yields.pure ⟨hk', fun v hv => htype ▸ ho v hv⟩
        rcases List.mem_cons.1 hv with h | h
        · cases h
          exact htype ▸ ho v rfl
        · exact hk.cached hm h

theorem Caches.trans {k₁ k₂ k₃ : Kernel} (h : k₁.Caches k₂) (h' : k₂.Caches k₃) : k₁.Caches k₃ :=
  ⟨h'.sound, h'.table.trans h.table, h'.precision.trans h.precision⟩

/-- What the values of constants may be. -/
def ConstantValue (n : String) (v : Number) : Prop := v.Fits (constantType n)

mutual

/-- **Evaluation gives a value that the expression may have.** -/
theorem TypesSoundly.yields_evaluateWith {p : Nat} : ∀ {e : Expr} {k : Kernel}, k.TypesSoundly →
    k.settings.precision = p → e.isElementary k.table = true →
    Yields Anyhow (evaluateWith constant false e) k fun o k' => k.Caches k' ∧
      ∀ v, o = some v → e.HasValue ConstantValue p v
  | .number v, k, hk, _, _ => by
      refine Yields.pure ⟨⟨hk, rfl, rfl⟩, ?_⟩
      rintro w ⟨⟩
      rfl
  | .symbol n d c, k, hk, _, h => by
      refine (hk.yields_constant (Expr.isElementary_symbol h).1).bind ?_
      rintro o k' ⟨hk', ho⟩
      have hsame : Kernel.approximateIf false o = (Pure.pure o : Action (Option Number)) := by
        cases o <;> rfl
      rw [hsame]
      exact Yields.pure ⟨hk', ho⟩
  | .application f ops d c, k, hk, hp, h => by
      obtain ⟨rfl, ⟨r, rule, hr, -⟩, hops⟩ := Expr.isElementary_application h
      obtain ⟨g, hg, hrule, -⟩ := hk.typesElementary.operator hr
      refine yields_evaluateWith_application hg hrule (Expr.allValid_of_allElementary hops) ?_
      refine (TypesSoundly.yields_evaluateEach hk hp hops).bind ?_
      rintro (_ | vs) k₁ ⟨hk₁, hvs⟩
      · exact Yields.pure ⟨hk₁, nofun⟩
      · refine Yields.bind (P := fun o k' => k.Caches k' ∧ ∀ v, o = some v →
          r.apply p vs = .ok (some v)) ?_ ?_
        · refine Yields.bind (P := fun u k' => u = p ∧ k₁ = k') ⟨hk₁.precision.trans hp, rfl⟩ ?_
          rintro _ _ ⟨rfl, rfl⟩
          exact yields_number (fun _ _ => trivial) fun o ho => ⟨hk₁, fun v hv => hv ▸ ho⟩
        · rintro o k₂ ⟨hk₂, ho⟩
          have hsame : Kernel.approximateIf false o = (Pure.pure o : Action (Option Number)) := by
            cases o <;> rfl
          rw [hsame]
          exact Yields.pure ⟨hk₂, fun v hv => ⟨r, rule, vs, hr, hvs vs rfl, ho v hv⟩⟩
  | .error _ _ _, _, _, _, h => by cases h

theorem TypesSoundly.yields_evaluateEach {p : Nat} : ∀ {es : List Expr} {k : Kernel},
    k.TypesSoundly → k.settings.precision = p → Expr.allElementary k.table es = true →
    Yields Anyhow (evaluateEach constant false es) k fun o k' => k.Caches k' ∧
      ∀ vs, o = some vs → Expr.HaveValues ConstantValue p es vs
  | [], k, hk, _, _ => by
      refine Yields.pure ⟨⟨hk, rfl, rfl⟩, ?_⟩
      rintro vs ⟨⟩
      rfl
  | e :: rest, k, hk, hp, h => by
      rw [Expr.allElementary, Bool.and_eq_true] at h
      unfold evaluateEach
      refine (TypesSoundly.yields_evaluateWith hk hp h.1).bind ?_
      rintro (_ | v) k₁ ⟨hk₁, hv⟩
      · exact Yields.pure ⟨hk₁, nofun⟩
      · have hrest : Expr.allElementary k₁.table rest = true := hk₁.table ▸ h.2
        refine (TypesSoundly.yields_evaluateEach hk₁.sound (hk₁.precision.trans hp) hrest).bind ?_
        rintro (_ | vs) k₂ ⟨hk₂, hvs⟩
        · exact Yields.pure ⟨hk₁.trans hk₂, nofun⟩
        · refine Yields.pure ⟨hk₁.trans hk₂, ?_⟩
          rintro _ ⟨⟩
          exact ⟨v, vs, rfl, hv v rfl, hvs vs rfl⟩

end

/-! ## The main result -/

/-- **Values have the types of their expressions.**  In any kernel with the standard definitions: what
evaluation of an elementary expression gives is not a number, or of a type below that of the expression,
as long as no operator is applied to nothing, what is typed as an exact number is made of exact numbers,
and the expression is not an application that is typed as a complex or imaginary number. -/
theorem evaluation_type (run : List Call) (e : Expr) (v : Number) (k' : Kernel)
    (h : e.isElementary (standard.after run).table = true)
    (hexact : e.isExactlyTyped (standard.after run).table = true)
    (hcomplex : e.isApplication = true →
      ((standard.after run).table.typeOf e).isSubtype .complex = false)
    (hv : (evaluate e false).run.run (standard.after run) = (.ok (some v), k'))
    (hnan : v.isNaN = false) :
    v.type.isSubtype ((standard.after run).table.typeOf e) = true := by
  have hk := typesSoundly_after run
  have hvalue := ((hk.yields_evaluateWith rfl h).of_run hv).2 v rfl
  have hcarries := e.carries_typeOf hk.typesElementary (fun _ h => h.toCarries) h hexact hvalue
  cases e with
  | number w =>
      obtain rfl : v = w := hvalue
      exact TypeName.isSubtype_refl _
  | symbol n d c =>
      obtain ⟨hn, rfl⟩ := Expr.isElementary_symbol h
      rw [Expr.typeOf_constant hk.typesElementary hn]
      exact hvalue.subtype hnan
  | application f ops d c => exact hcarries.typed (hcomplex rfl) hnan
  | error _ _ _ => cases h

/-- `Pi + (1 / 2) ^ -3`. -/
def shiftedPi : Expr :=
  .application "Add" [.symbol "Pi" (some 0) true,
    .application "Power" [.application "Divide" [.number .one, .number (.ofInt 2)] (some 10) true,
      .number (.ofInt (-3))] (some 11) true] (some 6) true

/-- It has a real value. -/
theorem evaluation_type_shiftedPi :
    ∃ v k', (evaluate shiftedPi false).run.run standard = (.ok (some v), k') ∧
      v.type.isSubtype (standard.table.typeOf shiftedPi) = true := by
  obtain ⟨o, k', hrun, ho⟩ := run_of_any (x := evaluate shiftedPi false) (k := standard)
    (p := fun o => o.any fun v => !v.isNaN) (by rw [standard_eq]; decide +kernel)
  obtain ⟨v, rfl, hnan⟩ := (Option.any_eq_true _ _).1 ho
  have h := evaluation_type [] shiftedPi v k'
  rw [after_nil] at h
  exact ⟨v, k', hrun, h (by rw [standard_eq]; decide +kernel) (by rw [standard_eq]; decide +kernel)
    (fun _ => by rw [standard_eq]; decide +kernel) hrun
    (by simpa using hnan)⟩

/-- `i * i`. -/
def squaredUnit : Expr :=
  .application "Multiply" [.symbol "ImaginaryUnit" (some 2) true,
    .symbol "ImaginaryUnit" (some 2) true] (some 7) true

/-- The shape that it is built of. -/
def squaredUnitShape : Raw :=
  .list [.name "Multiply", .name "ImaginaryUnit", .name "ImaginaryUnit"]

/-- **A product of imaginary numbers is typed as imaginary, but it may be real.** -/
theorem squaredUnit_isReal :
    (∃ k, (box squaredUnitShape).run.run standard = (.ok squaredUnit, k) ∧
      k.table.typeOf squaredUnit = .imaginary ∧
      ∃ k', (evaluate squaredUnit false).run.run k = (.ok (some (.ofInt (-1))), k')) ∧
      squaredUnit.isValid = true ∧ (Number.ofInt (-1)).isNaN = false ∧
      (Number.ofInt (-1)).type.isSubtype .imaginary = false := by
  obtain ⟨k, hbox⟩ := run_eq (x := box squaredUnitShape) (k := standard) (e := squaredUnit) (by decide)
    (by rw [standard_eq]; decide +kernel)
  refine ⟨⟨k, hbox, ?_, ?_⟩, by decide +kernel, by decide +kernel, by decide +kernel⟩
  · rw [← after_box hbox]
    rw [standard_eq]
    decide +kernel
  · rw [← after_box hbox]
    obtain ⟨o, k', hrun, ho⟩ := run_of_any (x := evaluate squaredUnit false)
      (k := standard.after [.box squaredUnitShape]) (p := fun o => o.any (Number.ofInt (-1)).same)
      (by rw [standard_eq]; decide +kernel)
    obtain ⟨v, rfl, hv⟩ := (Option.any_eq_true _ _).1 ho
    exact ⟨k', by rw [hrun, (Number.same_iff rfl).1 hv]⟩

end Kernel

end SymbolicAlgebra
