import SymbolicAlgebra.Proofs.Checking
import SymbolicAlgebra.Proofs.Currency
import SymbolicAlgebra.Proofs.Inference

/-!
# Proofs/Regularity — tables in which checking twice is checking once

A check narrows types, so the operands that passed it may not pass it again: an operand that stands at
two places with different parameters is accepted at both while its type is open, and only at one of
them afterwards.  The standard functions are *regular*: each takes operands of one type, and functions
whose result depends on the operands take numbers (`FunctionDefinition.isRegular`).  Tables of regular
definitions stay regular while they grow (`DefinitionTable.IsRegular.grown`).

`DefinitionTable.Accepts` says that a check passes and leaves everything as it is.
-/

namespace SymbolicAlgebra

/-! ## Regular definitions -/

/-- The parameter types of a signature. -/
def Signature.parameters (s : Signature) : List TypeName := s.required ++ s.optional ++ s.rest.toList

/-- Whether all parameters have one type, which is any type or a known one. -/
def Signature.isUniform (s : Signature) : Bool :=
  s.parameters.all fun p => (p = .any || !p.isOpen) && s.parameters.all fun q => q = p

theorem Signature.mem_parametersFor {s : Signature} {n : Nat} {p : TypeName}
    (h : p ∈ Kernel.parametersFor s n) : p ∈ s.parameters := by
  unfold Kernel.parametersFor at h
  unfold parameters
  simp only at h
  split at h
  next r hr =>
    rw [List.mem_append] at h ⊢
    exact h.imp_right fun h => by simp [hr, List.eq_of_mem_replicate h]
  next => exact List.mem_append_left _ h

/-- The parameters that operands meet are of one type. -/
theorem Signature.exists_uniform {s : Signature} (h : s.isUniform = true) (n : Nat) :
    ∃ type : TypeName, (type = .any ∨ type.isOpen = false) ∧
      ∀ p ∈ Kernel.parametersFor s n, p = type := by
  rw [isUniform, List.all_eq_true] at h
  cases hps : Kernel.parametersFor s n with
  | nil => exact ⟨.any, .inl rfl, by simp⟩
  | cons type rest =>
      have htype := h type (mem_parametersFor (by rw [hps]; simp))
      rw [Bool.and_eq_true, Bool.or_eq_true, decide_eq_true_eq, Bool.not_eq_true',
        List.all_eq_true] at htype
      refine ⟨type, htype.1, fun p hp => ?_⟩
      exact of_decide_eq_true (htype.2 p (mem_parametersFor (by rw [hps]; exact hp)))

/-- The form of its own that an operator is built in, and the number of its operands. -/
def ownForm? (f : String) : Option (CanonicalForm × Nat) :=
  if f = "Negate" then some (.negation, 1)
  else if f = "Rational" then some (.rational, 2)
  else if f = "Complex" then some (.complexPair, 2)
  else none

theorem ownForm?_cases {f : String} {form : CanonicalForm} {count : Nat}
    (h : ownForm? f = some (form, count)) :
    (f = "Negate" ∧ form = .negation ∧ count = 1) ∨ (f = "Rational" ∧ form = .rational ∧ count = 2) ∨
      f = "Complex" ∧ form = .complexPair ∧ count = 2 := by
  unfold ownForm? at h
  split at h
  next hf =>
    cases h
    exact .inl ⟨hf, rfl, rfl⟩
  split at h
  next hf =>
    cases h
    exact .inr (.inl ⟨hf, rfl, rfl⟩)
  split at h
  next hf =>
    cases h
    exact .inr (.inr ⟨hf, rfl, rfl⟩)
  next => cases h

/-- A form of its own checks as many operands as it is said to. -/
theorem arity?_of_ownForm? {f : String} {form : CanonicalForm} {count : Nat}
    (h : ownForm? f = some (form, count)) : form.arity? = some count := by
  obtain ⟨-, rfl, rfl⟩ | ⟨-, rfl, rfl⟩ | ⟨-, rfl, rfl⟩ := ownForm?_cases h <;> rfl

theorem ownForm?_eq_none {f : String} (hf : f ∉ Kernel.formOperators) : ownForm? f = none := by
  simp only [Kernel.formOperators, List.mem_cons, List.not_mem_nil, or_false, not_or] at hf
  rw [ownForm?, if_neg hf.1, if_neg hf.2.1, if_neg hf.2.2]

namespace FunctionDefinition

/-- Whether a function takes so many numbers, without splicing. -/
def takesNumbers (d : FunctionDefinition) (count : Nat) : Bool :=
  d.numeric.truthy && !d.associative.truthy && d.signature.isFixedArity &&
    d.signature.required.length == count

/-- Whether a function is built in the form of its own that its name has, if any. -/
def hasForm (f : String) (d : FunctionDefinition) : Bool :=
  match ownForm? f, d.canonical with
  | none, none => true
  | some (form, count), some (.canonicalForm form') => form = form' && d.takesNumbers count
  | _, _ => false

theorem hasForm_cases {f : String} {d : FunctionDefinition} (h : d.hasForm f = true) :
    ownForm? f = none ∧ d.canonical = none ∨
      ∃ form count, ownForm? f = some (form, count) ∧ d.canonical = some (.canonicalForm form) ∧
        d.takesNumbers count = true := by
  unfold hasForm at h
  split at h
  next hf hd => exact .inl ⟨hf, hd⟩
  next form count form' hf hd =>
    rw [Bool.and_eq_true, decide_eq_true_eq] at h
    obtain ⟨rfl, h⟩ := h
    exact .inr ⟨form, count, hf, hd, h⟩
  next => cases h

/-- Whether the definition of a function is like that of the standard one of the name, or of one that was
met: only `Hold` holds its operands back, lists are declared, and a function that takes other operands
than numbers takes operands of one type and has results of one type. -/
def isRegular (f : String) (d : FunctionDefinition) : Bool :=
  d.hasForm f && d.isLazy.truthy == (f == "Hold") && !(d.isLazy.truthy && d.numeric.truthy) &&
    (f != "List" || !d.inferred.truthy) &&
    (d.numeric.truthy ||
      !d.threadable.truthy && d.signature.result.fixed?.isSome && d.signature.isUniform)

end FunctionDefinition

/-- The names that stand for functions in a regular table. -/
def regularOperators : List String := ["Hold", "List"] ++ Kernel.formOperators

/-- Whether a definition is regular. -/
def Definition.isRegular (f : String) : Definition → Bool
  | .symbol _ => !regularOperators.contains f
  | .function d => d.isRegular f

/-- The parts of a regular definition. -/
structure FunctionDefinition.Regular (f : String) (d : FunctionDefinition) : Prop where
  form : d.hasForm f = true
  isLazy_iff : d.isLazy.truthy = true ↔ f = "Hold"
  numeric : d.numeric.truthy = true → d.isLazy.truthy = false
  list : f = "List" → d.inferred.truthy = false
  threadable : d.numeric.truthy = false → d.threadable.truthy = false
  fixed : d.numeric.truthy = false → ∃ type, d.signature.result = .fixed type
  uniform : d.numeric.truthy = false → d.signature.isUniform = true

theorem FunctionDefinition.regular {f : String} {d : FunctionDefinition} (h : d.isRegular f = true) :
    d.Regular f := by
  simp only [isRegular, Bool.and_eq_true, Bool.or_eq_true, Bool.not_eq_true', beq_iff_eq, bne_iff_ne,
    Bool.and_eq_false_imp] at h
  obtain ⟨⟨⟨⟨hform, hlazy⟩, hnumeric⟩, hlist⟩, hother⟩ := h
  have hplain : d.numeric.truthy = false → _ := fun hn => hother.resolve_left (by simp [hn])
  refine ⟨hform, by rw [hlazy, beq_iff_eq], fun hn => ?_, fun hf => ?_, fun hn => (hplain hn).1.1,
    fun hn => ?_, fun hn => (hplain hn).2⟩
  · cases hl : d.isLazy.truthy with
    | false => rfl
    | true =>
        rw [hnumeric hl] at hn
        cases hn
  · exact hlist.resolve_left (fun h => h hf)
  · have hfixed := (hplain hn).1.2
    cases hr : d.signature.result with
    | fixed type => exact ⟨type, rfl⟩
    | _ =>
        rw [hr] at hfixed
        cases hfixed

/-- A function that does not hold its operands back is not `Hold`. -/
theorem FunctionDefinition.Regular.ne_hold {f : String} {d : FunctionDefinition} (h : d.Regular f)
    (hlazy : d.isLazy.truthy = false) : f ≠ "Hold" := fun hf => by
  rw [h.isLazy_iff.2 hf] at hlazy
  cases hlazy

/-- Narrowing keeps a definition regular. -/
theorem Definition.isRegular_narrow {f : String} {d : Definition} (type : TypeName)
    (h : d.isRegular f = true) : (d.narrow type).isRegular f = true := by
  cases d with
  | symbol d => exact h
  | function d =>
      change FunctionDefinition.isRegular _ _ = true at h ⊢
      simp only [FunctionDefinition.isRegular, Bool.and_eq_true, Bool.or_eq_true] at h ⊢
      exact ⟨h.1, h.2.imp_right fun h => ⟨⟨h.1.1, rfl⟩, h.2⟩⟩

/-- A name that is met is regular. -/
theorem Definition.isRegular_of_isMet {f : String} {d : Definition} (hf : f ∉ regularOperators)
    (h : IsMet f d) : d.isRegular f = true := by
  have hcontains : regularOperators.contains f = false := by simpa using hf
  have hforms : ownForm? f = none :=
    ownForm?_eq_none fun h => hf (List.mem_append_right _ h)
  cases h with
  | symbol => rw [isRegular, hcontains]; rfl
  | function =>
      have hhold : (f == "Hold") = false := by
        rw [beq_eq_false_iff_ne]
        rintro rfl
        exact hf (by decide)
      have hlist : (f != "List") = true := by
        rw [bne_iff_ne]
        rintro rfl
        exact hf (by decide)
      simp only [isRegular, FunctionDefinition.isRegular, FunctionDefinition.hasForm,
        FunctionDefinition.met, hforms, hhold, hlist]
      decide

/-! ## Regular tables -/

namespace DefinitionTable

/-- A table of regular definitions, which has those of the operators that matter, and none of
wildcards. -/
structure IsRegular (t : DefinitionTable) : Prop where
  sound : t.IsSound
  regular : ∀ {f d}, t.find? f = some d → d.isRegular f = true
  operators : ∀ f ∈ regularOperators, t.contains f = true
  wildcards : ∀ {f}, Expr.isWildcardName f = true → t.contains f = false

variable {t t' : DefinitionTable}

/-- Whether a table is regular is settled by its names. -/
theorem isRegular_of_names (hnames : t.names.all (fun p =>
      !Expr.isWildcardName p.1 && (t.find? p.1).any (·.isRegular p.1)) = true)
    (hoperators : regularOperators.all t.contains = true) : t.IsRegular := by
  have hname : ∀ {f}, t.contains f = true →
      Expr.isWildcardName f = false ∧ (t.find? f).any (·.isRegular f) = true := fun {f} hf => by
    obtain ⟨i, hi⟩ := Option.isSome_iff_exists.1 hf
    obtain ⟨l, l', hl, -⟩ := List.lookup_eq_some_iff.1 hi
    have h := List.all_eq_true.1 hnames (f, i) (by simp [hl])
    rwa [Bool.and_eq_true, Bool.not_eq_true'] at h
  refine ⟨fun f hf => ?_, fun {f d} hd => ?_, List.all_eq_true.1 hoperators, fun {f} hf => ?_⟩
  · obtain ⟨d, hd, -⟩ := (Option.any_eq_true _ _).1 (hname hf).2
    exact Option.isSome_iff_exists.2 ⟨d, hd⟩
  · have h := (hname (contains_of_find? hd)).2
    rwa [hd] at h
  · rw [Bool.eq_false_iff]
    intro hcontains
    rw [(hname hcontains).1] at hf
    cases hf

namespace IsRegular

/-- What has a definition is no wildcard. -/
theorem isWildcardName_eq_false (ht : t.IsRegular) {f : String} (hf : t.contains f = true) :
    Expr.isWildcardName f = false := by
  rw [Bool.eq_false_iff]
  intro h
  rw [ht.wildcards h] at hf
  cases hf

theorem function (ht : t.IsRegular) {f : String} {d : FunctionDefinition}
    (h : t.find? f = some (.function d)) : d.Regular f :=
  FunctionDefinition.regular (ht.regular h)

/-- An operator that matters is a function. -/
theorem exists_function (ht : t.IsRegular) {f : String} (hf : f ∈ regularOperators) :
    ∃ d, t.find? f = some (.function d) := by
  obtain ⟨d, hd⟩ := Option.isSome_iff_exists.1 (ht.sound f (ht.operators f hf))
  cases d with
  | function d => exact ⟨d, hd⟩
  | symbol d =>
      have hregular := ht.regular hd
      rw [Definition.isRegular, Bool.not_eq_true', List.contains_eq_mem, decide_eq_false_iff_not]
        at hregular
      exact absurd hf hregular

theorem narrow (ht : t.IsRegular) {i : Nat} {d : Definition} (hd : t.get? i = some d)
    (type : TypeName) : (t.modify i fun _ => d.narrow type).IsRegular where
  sound := ht.sound.narrow hd type
  regular {f x} h := by
    rw [find?, number?_modify] at h
    obtain ⟨j, hj, hx⟩ := Option.bind_eq_some_iff.1 h
    rw [get?_narrow hd] at hx
    split at hx
    next hij =>
      cases hx
      refine Definition.isRegular_narrow type (ht.regular ?_)
      rw [find?, hj, Option.bind_some, ← hij, hd]
    next =>
      refine ht.regular ?_
      rw [find?, hj, Option.bind_some, hx]
  operators f hf := ht.operators f hf
  wildcards hf := ht.wildcards hf

theorem register (ht : t.IsRegular) {name : String} {d : Definition} (hnew : t.contains name = false)
    (hname : Expr.isWildcardName name = false) (hd : Definition.IsMet name d) :
    (t.register name d).IsRegular where
  sound := ht.sound.register name d
  regular {f x} h := by
    by_cases hf : f = name
    · subst hf
      rw [find?, number?_register, if_pos rfl, Option.bind_some, get?_register, if_pos rfl] at h
      cases h
      refine Definition.isRegular_of_isMet (fun hf => ?_) hd
      rw [ht.operators f hf] at hnew
      cases hnew
    · have hcontains : t.contains f = true := by
        have := contains_of_find? h
        rwa [contains_register, beq_eq_false_iff_ne.2 hf, Bool.false_or] at this
      obtain ⟨x', hx'⟩ := Option.isSome_iff_exists.1 (ht.sound f hcontains)
      rw [find?_register name d hx', if_neg hf] at h
      cases h
      exact ht.regular hx'
  operators f hf := by rw [contains_register, ht.operators f hf, Bool.or_true]
  wildcards {f} hf := by
    have hne : (f == name) = false := by
      rw [beq_eq_false_iff_ne]
      rintro rfl
      rw [hf] at hname
      cases hname
    rw [contains_register, hne, ht.wildcards hf]
    rfl

end IsRegular

/-! ## Growth -/

/-- The names of a table stand for the same registrations when it has grown. -/
theorem Grown.keeps (ht : t.IsSound) (h : t.Grown t') : t.Keeps t' where
  number hn := h.number? hn
  function {f} hf := by
    obtain ⟨d, hd⟩ := Option.isSome_iff_exists.1 (ht f hf)
    obtain ⟨i, hi, hget⟩ := Option.bind_eq_some_iff.1 hd
    obtain ⟨d', hd', hor⟩ := h.get? hget
    have hfind : t'.find? f = some d' := by rw [find?, h.number? hf, hi, Option.bind_some, hd']
    rw [functionNumber?_eq, functionNumber?_eq, hfind, hd, h.number? hf]
    rcases hor with rfl | ⟨type, -, rfl⟩
    · rfl
    · cases d <;> rfl

/-- What becomes of the definition that a name stands for. -/
theorem Grown.find? (h : t.Grown t') {f : String} {d : Definition} (hd : t.find? f = some d) :
    ∃ d', t'.find? f = some d' ∧ (d' = d ∨ ∃ type, d.accepts type = true ∧ d' = d.narrow type) := by
  obtain ⟨i, hi, hget⟩ := Option.bind_eq_some_iff.1 hd
  obtain ⟨d', hd', hor⟩ := h.get? hget
  exact ⟨d', by rw [DefinitionTable.find?, h.number? (contains_of_find? hd), hi, Option.bind_some, hd'],
    hor⟩

/-- A function that a name stands for was the function before, up to its result. -/
theorem Grown.function_of_contains (ht : t.IsSound) (h : t.Grown t') {f : String}
    {d : FunctionDefinition} (hf : t.contains f = true) (hd : t'.find? f = some (.function d)) :
    ∃ result, t.find? f = some (.function { d with signature := { d.signature with result } }) := by
  obtain ⟨x, hx⟩ := Option.isSome_iff_exists.1 (ht f hf)
  obtain ⟨x', hx', hor⟩ := h.find? hx
  rw [hd] at hx'
  cases hx'
  rcases hor with rfl | ⟨type, -, heq⟩
  · exact ⟨_, hx⟩
  · cases x with
    | symbol s => cases heq
    | function g =>
        cases heq
        exact ⟨g.signature.result, hx⟩

/-! ## What is inferred -/

/-- What is inferred is final: a registration that took a type takes no other one. -/
theorem Infers.narrowable?_eq_none {pairs : List (Expr × TypeName)} (h : t.Infers pairs t') {e : Expr}
    {type : TypeName} (he : (e, type) ∈ pairs) (htype : type.isOpen = false) (type' : TypeName) :
    t'.narrowable? e type' = none := by
  rw [Option.eq_none_iff_forall_ne_some]
  rintro ⟨i, d⟩ hsome
  obtain ⟨hi, hd, hdescribes, haccepts⟩ := narrowable?_eq_some.1 hsome
  obtain ⟨hinferred, hopen, -⟩ := (Definition.accepts_iff d type').1 haccepts
  have hentry := h.entry i
  cases hinfers : t.inferredType? pairs i with
  | some given =>
      rw [hinfers] at hentry
      simp only at hentry
      obtain ⟨p, hp, rfl⟩ := Option.map_eq_some_iff.1 hinfers
      have hnarrows := List.find?_some hp
      obtain ⟨-, x, hx, -, hx'⟩ := narrows_iff.1 hnarrows
      rw [hd, hx, Option.map_some, Option.some.injEq] at hentry
      subst hentry
      rw [Definition.isSettled_narrow hx'] at hopen
      cases hopen
  | none =>
      rw [hinfers] at hentry
      simp only at hentry
      rw [hd] at hentry
      have hnarrows : t.narrows e type i = true :=
        narrows_iff.2 ⟨hi, d, hentry.symm, hdescribes, (Definition.accepts_iff d type).2
          ⟨hinferred, hopen, htype⟩⟩
      rw [inferredType?, Option.map_eq_none_iff, List.find?_eq_none] at hinfers
      exact hinfers _ he hnarrows

/-- Where one type is inferred, it is the one that is taken. -/
theorem Infers.get?_of_narrowable? {pairs : List (Expr × TypeName)} (h : t.Infers pairs t') {e : Expr}
    {type type' : TypeName} (he : (e, type) ∈ pairs) (hpairs : ∀ p ∈ pairs, p.2 = type)
    (htype : type.isOpen = false) {i : Nat} {d : Definition}
    (hd : t.narrowable? e type' = some (i, d)) : t'.get? i = some (d.narrow type) := by
  obtain ⟨hi, hd, hdescribes, haccepts⟩ := narrowable?_eq_some.1 hd
  obtain ⟨hinferred, hopen, -⟩ := (Definition.accepts_iff d type').1 haccepts
  have hnarrows : t.narrows e type i = true :=
    narrows_iff.2 ⟨hi, d, hd, hdescribes, (Definition.accepts_iff d type).2 ⟨hinferred, hopen, htype⟩⟩
  have hentry := h.entry i
  cases hinfers : t.inferredType? pairs i with
  | none =>
      rw [inferredType?, Option.map_eq_none_iff, List.find?_eq_none] at hinfers
      exact absurd hnarrows (hinfers _ he)
  | some given =>
      rw [hinfers, hd] at hentry
      obtain ⟨p, hp, rfl⟩ := Option.map_eq_some_iff.1 hinfers
      rwa [hpairs p (List.mem_of_find?_eq_some hp)] at hentry

/-- Where nothing can be narrowed, nothing is. -/
theorem Infers.eq_of_forall {pairs : List (Expr × TypeName)} (h : t.Infers pairs t')
    (hpairs : ∀ p ∈ pairs, t.narrowable? p.1 p.2 = none) : t' = t := by
  have hinfers : ∀ i, t.inferredType? pairs i = none := fun i => by
    rw [inferredType?, Option.map_eq_none_iff, List.find?_eq_none]
    intro p hp
    rw [narrows, hpairs p hp]
    exact Bool.false_ne_true
  have hentries : t'.entries = t.entries := Array.ext_getElem? fun i => by
    have hentry := h.entry i
    rw [hinfers] at hentry
    exact hentry
  cases t
  cases t'
  cases h.names
  cases hentries
  rfl

/-! ## Checks that change nothing -/

open Kernel

/-- What the check of the operands of a function infers types for, if it accepts them. -/
def inferences (t : DefinitionTable) (d : FunctionDefinition) (ops : List Expr) :
    List (Expr × TypeName) :=
  if d.numeric.truthy then (reached ops).map fun e => (e, groupType t ops)
  else (ops.zip (parametersFor d.signature ops.length)).filter fun p =>
    !(d.threadable.truthy && isCollection p.1)

/-- A function takes the operands, and nothing is left to be inferred. -/
structure Accepts (t : DefinitionTable) (d : FunctionDefinition) (ops : List Expr) : Prop where
  takes : takes t d ops = true
  still : ∀ p ∈ t.inferences d ops, t.narrowable? p.1 p.2 = none

end DefinitionTable

namespace Kernel

variable {k : Kernel} {d : FunctionDefinition} {ops : List Expr}

/-- **A check in a strict kernel**: there is no error among the operands afterwards if the function
takes them, and then they are the same, and types were inferred. -/
theorem yields_checkOperands (hk : k.settings.strict = true) (hlazy : d.isLazy.truthy = false)
    (hflat : Expr.flatten none ops = ops) : Yields Never (checkOperands d ops) k fun rs k' =>
      Expr.allValid rs = takes k.table d ops ∧
        (Expr.allValid rs = true → rs = ops ∧ k.table.Infers (k.table.inferences d ops) k'.table) := by
  have hvalid := allValid_checkedOperands (t := k.table) hlazy ops
  unfold checkOperands
  unfold checkedOperands at hvalid
  unfold DefinitionTable.inferences
  split
  next hn =>
    rw [if_pos hn] at hvalid
    refine (checksNumbers hk ops _ none).mono fun rs k' h => ?_
    rw [hflat, getD_required] at h
    cases h with
    | accepted h hinfers =>
        rw [← hvalid, h]
        rw [checkedNumbers_of_allValid h] at h
        exact ⟨h, fun _ => ⟨rfl, hinfers⟩⟩
    | refused h => exact ⟨hvalid, fun hv => absurd (h.symm.trans hv) (by decide)⟩
  next hn =>
    rw [if_neg hn, hlazy] at hvalid
    rw [hlazy]
    refine (checksOperands hk ops d.signature d.threadable.truthy).bind fun o k' h => Yields.pure ?_
    cases h with
    | accepted h hinfers =>
        rw [← hvalid, h]
        rw [checkedParameters_of_allValid h] at h
        exact ⟨h, fun _ => ⟨rfl, hinfers⟩⟩
    | refused h => exact ⟨hvalid, fun hv => absurd (h.symm.trans hv) (by decide)⟩

/-- **Operands that are accepted pass the check again**, and the table stays as it is. -/
theorem yields_checkOperands_of_accepts (hk : k.settings.strict = true)
    (hlazy : d.isLazy.truthy = false) (hflat : Expr.flatten none ops = ops)
    (h : k.table.Accepts d ops) :
    Yields Never (checkOperands d ops) k fun rs k' => rs = ops ∧ k'.table = k.table := by
  refine (yields_checkOperands hk hlazy hflat).mono ?_
  rintro rs k' ⟨hvalid, hpassed⟩
  obtain ⟨rfl, hinfers⟩ := hpassed (hvalid.trans h.takes)
  exact ⟨rfl, hinfers.eq_of_forall h.still⟩

/-- The check of a form of its own is that of its operator. -/
theorem checkOperands_of_takesNumbers {count : Nat} (h : d.takesNumbers count = true) (ops : List Expr) :
    checkOperands d (Expr.flatten none ops) = checkNumeric ops (some count) none := by
  simp only [FunctionDefinition.takesNumbers, Bool.and_eq_true, beq_iff_eq] at h
  obtain ⟨⟨⟨hn, -⟩, hfixed⟩, hcount⟩ := h
  rw [checkOperands, if_pos hn, if_pos hfixed, hcount, checkNumeric, checkNumeric,
    Expr.flatten_none_flatten]

end Kernel

end SymbolicAlgebra
