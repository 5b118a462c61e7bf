import SymbolicAlgebra.Definition.Library
import SymbolicAlgebra.Kernel.Construct
import SymbolicAlgebra.Proofs.Structure

/-!
# Proofs/Standard — the kernel a dialogue starts with

Runs in it are evaluated: `run_of_any` and `run_eq` turn what was evaluated into a statement about
the run.  `Kernel.standard_eq` writes the kernel out, every signature and flag read: what is
evaluated in it is evaluated in the written kernel.
-/

namespace SymbolicAlgebra

namespace Expr

mutual

/-- Exact expressions are equal if they are in every respect. -/
theorem eq_of_identical : ∀ {x e : Expr}, e.isExact = true → x.identical e = true → x = e
  | x, number v, he, h => by
      cases x with
      | number w =>
          rcases Number.exact_cases he with ⟨q, rfl⟩ | ⟨p, q, rfl⟩ <;>
            rcases w with (_ | _ | _) | ⟨_ | _ | _, _ | _ | _⟩ <;>
              simp_all [identical, Number.identical, Scalar.identical, Number.ofRat]
      | _ => cases h
  | x, symbol n d c, _, h => by
      cases x with
      | symbol n' d' c' => simp_all [identical]
      | _ => cases h
  | _, error _ _ _, he, _ => by cases he
  | x, application f ys d c, he, h => by
      cases x with
      | application f' xs d' c' =>
          simp only [identical, Bool.and_eq_true, beq_iff_eq] at h
          obtain ⟨⟨⟨rfl, rfl⟩, rfl⟩, h⟩ := h
          rw [eq_of_identicalAll he h]
      | _ => cases h

theorem eq_of_identicalAll : ∀ {xs es : List Expr}, allOver Number.isExact es = true →
    identicalAll xs es = true → xs = es
  | [], [], _, _ => rfl
  | [], _ :: _, _, h => by cases h
  | _ :: _, [], _, h => by cases h
  | x :: xs, e :: es, he, h => by
      rw [allOver, Bool.and_eq_true] at he
      rw [identicalAll, Bool.and_eq_true] at h
      rw [eq_of_identical he.1 h.1, eq_of_identicalAll he.2 h.2]

end

end Expr

deriving instance DecidableEq for LogRecord
deriving instance DecidableEq for Settings

namespace Datum

/-- Whether two plain fields are equal; no number but an exact one is compared. -/
def identical : Datum → Datum → Bool
  | raw .null, raw .null => true
  | raw (.bool a), raw (.bool b) => a == b
  | raw (.name s), raw (.name t) => s == t
  | raw (.value v), raw (.value w) => w.isExact && (Expr.number v).identical (.number w)
  | callback (.value v), callback (.value w) => v = w
  | _, _ => false

theorem eq_of_identical {d d' : Datum} (h : d.identical d' = true) : d = d' := by
  unfold identical at h
  split at h
  · rfl
  · rw [beq_iff_eq.mp h]
  · rw [beq_iff_eq.mp h]
  · rw [Bool.and_eq_true] at h
    obtain ⟨hw, hi⟩ := h
    injection Expr.eq_of_identical (e := .number _) hw hi with hv
    rw [hv]
  · rw [of_decide_eq_true h]
  · cases h

end Datum

namespace Callback

/-- Whether two behaviours are equal, guards apart. -/
def identical : Option Callback → Option Callback → Bool
  | none, none => true
  | some (.evaluation a), some (.evaluation b) => a = b
  | some (.canonicalForm a), some (.canonicalForm b) => a = b
  | some (.sign a), some (.sign b) => a = b
  | _, _ => false

theorem eq_of_identical {c c' : Option Callback} (h : identical c c' = true) : c = c' := by
  unfold identical at h
  split at h
  · rfl
  · rw [of_decide_eq_true h]
  · rw [of_decide_eq_true h]
  · rw [of_decide_eq_true h]
  · cases h

end Callback

namespace Definition

/-- Whether two definitions are equal, in all that is compared of their fields. -/
def identical : Definition → Definition → Bool
  | symbol a, symbol b =>
      a.name == b.name && a.value.identical b.value && a.type == b.type &&
        a.constant.identical b.constant && a.flags == b.flags &&
        a.description.identical b.description && a.inferred == b.inferred
  | function a, function b =>
      a.name == b.name && a.signature == b.signature && Callback.identical a.sign b.sign &&
        a.complexity == b.complexity && a.associative.identical b.associative &&
        a.threadable.identical b.threadable && a.isLazy.identical b.isLazy &&
        a.isPure.identical b.isPure && a.numeric.identical b.numeric &&
        Callback.identical a.evaluate b.evaluate &&
        Callback.identical a.canonical b.canonical && a.description.identical b.description &&
        a.inferred.identical b.inferred
  | _, _ => false

theorem eq_of_identical : ∀ {d d' : Definition}, d.identical d' = true → d = d'
  | symbol ⟨_, _, _, _, _, _, _⟩, symbol ⟨_, _, _, _, _, _, _⟩, h => by
      simp only [identical, Bool.and_eq_true, beq_iff_eq] at h
      obtain ⟨⟨⟨⟨⟨⟨rfl, hv⟩, rfl⟩, hc⟩, rfl⟩, hd⟩, rfl⟩ := h
      rw [Datum.eq_of_identical hv, Datum.eq_of_identical hc, Datum.eq_of_identical hd]
  | function ⟨_, _, _, _, _, _, _, _, _, _, _, _, _⟩,
      function ⟨_, _, _, _, _, _, _, _, _, _, _, _, _⟩, h => by
      simp only [identical, Bool.and_eq_true, beq_iff_eq] at h
      obtain ⟨⟨⟨⟨⟨⟨⟨⟨⟨⟨⟨⟨rfl, rfl⟩, hs⟩, rfl⟩, ha⟩, ht⟩, hl⟩, hp⟩, hn⟩, he⟩, hc⟩, hd⟩, hi⟩ := h
      rw [Callback.eq_of_identical hs, Callback.eq_of_identical he, Callback.eq_of_identical hc,
        Datum.eq_of_identical ha, Datum.eq_of_identical ht, Datum.eq_of_identical hl,
        Datum.eq_of_identical hp, Datum.eq_of_identical hn, Datum.eq_of_identical hd,
        Datum.eq_of_identical hi]
  | symbol _, function _, h => by cases h
  | function _, symbol _, h => by cases h

/-- Whether definitions are equal one by one. -/
def identicalAll : List Definition → List Definition → Bool
  | [], [] => true
  | d :: ds, d' :: ds' => d.identical d' && identicalAll ds ds'
  | _, _ => false

theorem eq_of_identicalAll : ∀ {ds ds' : List Definition}, identicalAll ds ds' = true → ds = ds'
  | [], [], _ => rfl
  | [], _ :: _, h => by cases h
  | _ :: _, [], h => by cases h
  | _ :: _, _ :: _, h => by
      rw [identicalAll, Bool.and_eq_true] at h
      rw [eq_of_identical h.1, eq_of_identicalAll h.2]

end Definition

/-! ## The standard definitions, registered -/

namespace Library

/-- A constant as it is registered. -/
def registeredConstant (name : String) (type : TypeName) (value : Datum) (flags : Option Flags)
    (description : Datum) : Definition :=
  .symbol { name, value, type, constant := yes, flags, description, inferred := false }

/-- A positive constant as it is registered. -/
def registeredPositive (name : String) (value : ComputedValue) (description : String) :
    Definition :=
  registeredConstant name .real (.callback (.value value))
    (some [("positive", some true), ("negative", some false), ("zero", some false)])
    (text description)

/-- A function as it is registered, if it has no value. -/
def registeredFunction (name : String) (signature : Signature) (complexity : Int) :
    FunctionDefinition where
  name := name
  signature := signature
  sign := none
  complexity := complexity
  associative := .ofBool false
  threadable := .ofBool false
  isLazy := .ofBool false
  isPure := .ofBool true
  numeric := .ofBool false
  evaluate := none
  canonical := none
  description := .null
  inferred := .ofBool false

/-- A function that takes numbers, as it is registered. -/
def registeredNumeric (name : String) (required : List TypeName) (rest : Option TypeName)
    (result : ResultRule) (complexity : Int) (evaluate : Evaluation) : FunctionDefinition :=
  { registeredFunction name { required, rest, result } complexity with
    threadable := yes, numeric := yes, evaluate := some (.evaluation evaluate) }

/-- A function that builds number literals, as it is registered. -/
def registeredConstructor (name : String) (operand result : TypeName) (form : CanonicalForm)
    (evaluate : Evaluation) : FunctionDefinition :=
  { registeredFunction name { required := [operand, operand], result := .fixed result } 2400 with
    numeric := yes, evaluate := some (.evaluation evaluate), canonical := some (.canonicalForm form) }

/-- A relation between two operands, as it is registered. -/
def registeredRelation (name : String) (operand : TypeName) : Definition :=
  .function (registeredFunction name { required := [operand, operand], result := .fixed .boolean }
    11000)

/-- The standard definitions as they are registered. -/
def registered : List Definition :=
  [ registeredPositive "Pi" .pi "Ratio of a circle's circumference to its diameter",
    registeredPositive "ExponentialE" .euler "Euler's number",
    registeredConstant "ImaginaryUnit" .imaginary (.raw (.value .imaginaryUnit)) none .null,
    registeredConstant "True" .boolean .null none .null,
    registeredConstant "False" .boolean .null none .null,
    registeredConstant "Nothing" .nothing .null none .null,
    .function { registeredNumeric "Add" [] (some .number) .numeric 1300 .sum with
      associative := yes },
    .function { registeredNumeric "Multiply" [] (some .number) .numeric 2100 .product with
      associative := yes },
    .function { registeredNumeric "Negate" [.number] none .numeric 2000 .negation with
      canonical := some (.canonicalForm .negation) },
    .function (registeredNumeric "Subtract" [.number, .number] none .numeric 1350 .difference),
    .function (registeredNumeric "Divide" [.number, .number] none .quotient 2500 .quotient),
    .function (registeredNumeric "Power" [.number, .number] none .power 3500 .power),
    .function (registeredNumeric "Sqrt" [.number] none (.fixed .number) 3600 .squareRoot),
    .function { registeredNumeric "Abs" [.number] none (.fixed .real) 1200 .absolute with
      sign := some (.sign .absolute) },
    .function (registeredNumeric "Sin" [.number] none .realOrNumber 5000 .sine),
    .function (registeredNumeric "Cos" [.number] none .realOrNumber 5000 .cosine),
    .function (registeredNumeric "Tan" [.number] none .realOrNumber 5000 .tangent),
    .function (registeredNumeric "Exp" [.number] none .realOrNumber 3500 .exponential),
    .function (registeredNumeric "Ln" [.number] none (.fixed .number) 4000 .logarithm),
    .function (registeredConstructor "Rational" .integer .rational .rational .quotient),
    .function (registeredConstructor "Complex" .real .complex .complexPair .complexPair),
    .function (registeredFunction "Sequence" { rest := some .any } 9000),
    .function (registeredFunction "List" { rest := some .any, result := .fixed .list } 8200),
    .function { registeredFunction "Hold" { required := [.any] } 9000 with isLazy := yes },
    registeredRelation "Equal" .any,
    registeredRelation "NotEqual" .any,
    registeredRelation "Less" .real,
    registeredRelation "LessEqual" .real,
    registeredRelation "Greater" .real,
    registeredRelation "GreaterEqual" .real,
    .function { registeredFunction "And" { rest := some .boolean, result := .fixed .boolean } 10000 with
      associative := yes },
    .function { registeredFunction "Or" { rest := some .boolean, result := .fixed .boolean } 10000 with
      associative := yes },
    .function (registeredFunction "Not" { required := [.boolean], result := .fixed .boolean } 10100),
    .function { registeredFunction "Random" { result := .fixed .real } 8000 with
      isPure := .ofBool false, evaluate := some (.evaluation .sample) } ]

end Library

namespace Kernel

/-- The kernel with the standard definitions, in which nothing was built yet. -/
def standard : Kernel :=
  ((configure (.name "machine") (.name "rad") true
    (Library.standard.map fun (name, r) => (name, .record r))).run.run {}).2

/-- The standard kernel, written out. -/
def evaluated : Kernel where
  table :=
    { entries := Library.registered.toArray
      names := Library.registered.zipIdx.map fun (d, i) => (d.name, i) }
  journal := Library.registered.reverse.map fun d =>
    ⟨.debug, .definitions, "Declared " ++ d.kindName ++ " " ++ d.name⟩

/-- Whether a kernel in which nothing was built yet is another one. -/
def identical (k k' : Kernel) : Bool :=
  k.settings = k'.settings &&
    Definition.identicalAll k.table.entries.toList k'.table.entries.toList &&
    k.table.names == k'.table.names && k.pool.isEmpty && k'.pool.isEmpty &&
    k.constants.isEmpty && k'.constants.isEmpty && k.journal = k'.journal

theorem eq_of_identical : ∀ {k k' : Kernel}, k.identical k' = true → k = k'
  | ⟨_, ⟨⟨_⟩, _⟩, _, _, _⟩, ⟨_, ⟨⟨_⟩, _⟩, _, _, _⟩, h => by
      simp only [identical, Bool.and_eq_true, beq_iff_eq, decide_eq_true_eq, List.isEmpty_iff] at h
      obtain ⟨⟨⟨⟨⟨⟨⟨rfl, he⟩, rfl⟩, rfl⟩, rfl⟩, rfl⟩, rfl⟩, rfl⟩ := h
      rw [Definition.eq_of_identicalAll he]

/-- **The standard kernel, written out.**  Whatever is evaluated in it starts from here, so that the
library is read only once. -/
theorem standard_eq : standard = evaluated := eq_of_identical (by decide +kernel)

theorem standard_isStrict : standard.settings.strict = true := by
  rw [standard_eq]
  rfl

theorem standard_pool : standard.pool = [] := by
  rw [standard_eq]
  rfl

theorem standard_constants : standard.constants = [] := by
  rw [standard_eq]
  rfl

/-- What evaluating an action shows of its result and of the kernel after it. -/
theorem run_of_any_after {α : Type} {x : Action α} {k : Kernel} {p : α → Kernel → Bool}
    (h : (x.run.run k).1.toOption.any (p · (x.run.run k).2) = true) :
    ∃ a k', x.run.run k = (.ok a, k') ∧ p a k' = true := by
  rcases hr : x.run.run k with ⟨f | a, k'⟩
  · rw [hr] at h
    cases h
  · rw [hr] at h
    exact ⟨a, k', rfl, h⟩

/-- What evaluating an action shows of its result. -/
theorem run_of_any {α : Type} {x : Action α} {k : Kernel} {p : α → Bool}
    (h : (x.run.run k).1.toOption.any p = true) :
    ∃ a k', x.run.run k = (.ok a, k') ∧ p a = true :=
  run_of_any_after (p := fun a _ => p a) h

/-- What evaluating an outcome shows of it. -/
theorem forall_of_all {ε α : Type} {x : Except ε α} {p : α → Bool} (h : x.toOption.all p = true) :
    ∀ a, x = .ok a → p a = true := by
  rintro a rfl
  exact h

/-- An exact expression that an action gives. -/
theorem run_eq {x : Action Expr} {k : Kernel} {e : Expr} (he : e.isExact = true)
    (h : (x.run.run k).1.toOption.any (·.identical e) = true) :
    ∃ k', x.run.run k = (.ok e, k') := by
  obtain ⟨a, k', hr, ha⟩ := run_of_any h
  exact ⟨k', by rw [hr, Expr.eq_of_identical he ha]⟩

end Kernel

end SymbolicAlgebra
