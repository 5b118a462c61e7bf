import SymbolicAlgebra.Proofs.Checking
import SymbolicAlgebra.Proofs.Persistence
import SymbolicAlgebra.Proofs.Splicing

/-!
# Proofs/Refusal — which formulas are refused

A *formula* is a shape of integers, names and applications.  Checks put errors in the place of operands
and never fail, so a formula is refused only by an operator with a form of its own: a quotient or a pair
takes two operands, and what its check makes of more of them is no pair.  `DefinitionTable.fault?` tells
from the definitions which formulas are refused, and `DefinitionTable.spread` how many operands a
formula contributes to a list; `formula_construction` says that this is how building a formula ends.
-/

namespace SymbolicAlgebra

mutual

/-- Whether a shape is made of integers, names and applications of operator names. -/
def Raw.isFormula : Raw → Bool
  | .int _ | .name _ => true
  | .list (.name _ :: args) => allFormulas args
  | _ => false

def Raw.allFormulas : List Raw → Bool
  | [] => true
  | r :: rest => isFormula r && allFormulas rest

end

/-! ## Which formulas are refused -/

/-- What a form of its own makes of a number of operands that it does not take. -/
def Callback.refusal? (count : Nat) : Callback → Option Fault
  | .canonicalForm .rational | .canonicalForm .complexPair =>
      if 2 < count then some (.tooManyOperands 2) else none
  | .canonicalForm _ => none
  | _ => some .wrongArguments

theorem Callback.refusal?_cases {form : Callback} {count : Nat} {f : Fault}
    (h : form.refusal? count = some f) : f = .tooManyOperands 2 ∨ f = .wrongArguments := by
  unfold refusal? at h
  split at h
  next => exact .inl (Option.some.inj (Option.ite_none_right_eq_some.1 h).2).symm
  next => exact .inl (Option.some.inj (Option.ite_none_right_eq_some.1 h).2).symm
  next => cases h
  next =>
    cases h
    exact .inr rfl

/-- The operands that a form of its own stands for in a list. -/
def Callback.spread (counts : List Nat) : Callback → Nat
  | .canonicalForm .first => counts.headD 1
  | _ => 1

/-- What building does with the operands of an operator. -/
inductive Treatment
  /-- They are held back. -/
  | held
  /-- They are built, and checked if the operator is a function. -/
  | plain
  /-- They are built and given to a form of its own. -/
  | formed (form : Callback)

namespace Treatment

def ofDefinition : Option Definition → Treatment
  | some (.function d) =>
      if d.isLazy.truthy then held
      else
        match d.canonical with
        | none => plain
        | some form => formed form
  | _ => plain

/-- The fault that building an application ends with, if there is one `among` those of its operands. -/
def fault? (among : Option Fault) (count : Nat) : Treatment → Option Fault
  | held => none
  | plain => among
  | formed form => among.or (form.refusal? count)

/-- The operands that an application of `f` stands for in a list, if its own stand for `counts`. -/
def spread (f : String) (counts : List Nat) : Treatment → Nat
  | held => 1
  | plain => if f = "Sequence" then counts.sum else 1
  | formed form => form.spread counts

def isFormed : Treatment → Bool
  | formed _ => true
  | _ => false

/-- A fault of an operand that is built is one of the application. -/
theorem fault?_some {τ : Treatment} (h : τ ≠ held) (f : Fault) (count : Nat) :
    τ.fault? (some f) count = some f := by
  cases τ with
  | held => exact absurd rfl h
  | _ => rfl

end Treatment

/-- Whether a definition is that of a function that takes any operands and splices none of its own. -/
def Definition.takesAll : Definition → Bool
  | .symbol _ => false
  | .function d =>
      !d.isLazy.truthy && d.canonical.isNone && !d.numeric.truthy && !d.associative.truthy &&
        d.signature.required.isEmpty && d.signature.rest.isSome

namespace DefinitionTable

/-- What building does with the operands of a name; an error is not built of operands. -/
def treatment (t : DefinitionTable) (f : String) : Treatment :=
  if f = "Error" then .held
  else if Expr.isWildcardName f then .plain
  else .ofDefinition (t.find? f)

theorem treatment_eq (t : DefinitionTable) {f : String} (h : f ≠ "Error")
    (hwildcard : Expr.isWildcardName f = false) : t.treatment f = .ofDefinition (t.find? f) := by
  rw [treatment, if_neg h, hwildcard]
  rfl

mutual

/-- The operands that a formula stands for in a list. -/
def spread (t : DefinitionTable) : Raw → Nat
  | .list (.name f :: args) => (t.treatment f).spread f (spreads t args)
  | _ => 1

def spreads (t : DefinitionTable) : List Raw → List Nat
  | [] => []
  | r :: rest => spread t r :: spreads t rest

end

mutual

/-- The fault that building a formula ends with, `none` if it is built. -/
def fault? (t : DefinitionTable) : Raw → Option Fault
  | .list (.name f :: args) => (t.treatment f).fault? (faultAmong? t args) (spreads t args).sum
  | _ => none

def faultAmong? (t : DefinitionTable) : List Raw → Option Fault
  | [] => none
  | r :: rest => (fault? t r).or (faultAmong? t rest)

end

end DefinitionTable

namespace Kernel

open DefinitionTable

variable {E : Fault → Prop} {t : DefinitionTable} {k : Kernel}

/-! ## Building formulas -/

/-- A strict kernel in which names are treated as in the table `t`, sequences take any operands, and
negations have a form of their own. -/
structure Calm (t : DefinitionTable) (k : Kernel) : Prop where
  strict : k.settings.strict = true
  treatment : ∀ f, k.table.treatment f = t.treatment f
  sequence : (k.table.find? "Sequence").any Definition.takesAll = true
  negate : (t.treatment "Negate").isFormed = true

/-- **Building does not change how names are treated.** -/
theorem stable_calm (t : DefinitionTable) : Stable (Calm t) where
  noted _ h := ⟨h.strict, h.treatment, h.sequence, h.negate⟩
  pooled _ h := ⟨h.strict, h.treatment, h.sequence, h.negate⟩
  narrowed {k i d type} h hd _ := by
    refine ⟨h.strict, fun f => ?_, ?_, h.negate⟩
    · have hread : Treatment.ofDefinition ((k.table.modify i fun _ => d.narrow type).find? f) =
          .ofDefinition (k.table.find? f) := read_find?_narrow hd (by cases d <;> rfl) f
      rw [← h.treatment f, treatment, treatment, hread]
    · have hread : ((k.table.modify i fun _ => d.narrow type).find? "Sequence").any
          Definition.takesAll = (k.table.find? "Sequence").any Definition.takesAll :=
        read_find?_narrow hd (by cases d <;> rfl) "Sequence"
      exact hread.trans h.sequence
  met {k name d} h hname hd := by
    refine ⟨h.strict, fun f => ?_, ?_, h.negate⟩
    · have hread : Treatment.ofDefinition ((k.table.register name d).find? f) =
          .ofDefinition (k.table.find? f) := read_find?_register hname (by cases hd <;> rfl) f
      rw [← h.treatment f, treatment, treatment, hread]
    · obtain ⟨s, hs, htakes⟩ := (Option.any_eq_true _ _).1 h.sequence
      have hne : "Sequence" ≠ name := by
        rintro rfl
        rw [find?_of_contains hname] at hs
        cases hs
      rw [find?_register name d hs, if_neg hne, Option.any_some, htakes]

theorem ofDefinition_of_takesAll {o : Option Definition} (h : o.any Definition.takesAll = true) :
    Treatment.ofDefinition o = .plain := by
  obtain ⟨d, rfl, hd⟩ := (Option.any_eq_true _ _).1 h
  cases d with
  | symbol d => cases hd
  | function d =>
      simp only [Definition.takesAll, Bool.and_eq_true, Bool.not_eq_true',
        Option.isNone_iff_eq_none] at hd
      rw [Treatment.ofDefinition, hd.1.1.1.1.1, hd.1.1.1.1.2]
      rfl

namespace Calm

theorem treatment_sequence (hk : Calm t k) : t.treatment "Sequence" = .plain := by
  rw [← hk.treatment, treatment_eq _ (by decide) (by decide +kernel),
    ofDefinition_of_takesAll hk.sequence]

/-- Operators that have no form of their own are not opened, other than sequences. -/
theorem isOpened_eq_false (hk : Calm t k) {f : String} (h : (t.treatment f).isFormed = false)
    (hne : f ≠ "Sequence") : Expr.isOpened f = false := by
  rw [Expr.isOpened, Bool.or_eq_false_iff, beq_eq_false_iff_ne, beq_eq_false_iff_ne]
  refine ⟨hne, ?_⟩
  rintro rfl
  rw [hk.negate] at h
  cases h

theorem intern (hk : Calm t k) {n : Nat} {e : Expr} (he : e.Spreads n) :
    Yields E (Kernel.intern e) k fun x k' => Calm t k' ∧ x.Spreads n :=
  ((yields_intern_same e k).and ((stable_calm t).intern e k hk).yields).mono fun _ _ h =>
    ⟨h.2.1, he.of_same h.1⟩

theorem makeNumber (hk : Calm t k) {v : Number} (hv : v.isNegatable = true) :
    Yields E (Kernel.makeNumber v) k fun e k' => Calm t k' ∧ e.Spreads 1 :=
  hk.intern ⟨hv, rfl⟩

theorem makeSymbol (hk : Calm t k) (n : String) :
    Yields E (Kernel.makeSymbol n) k fun e k' => Calm t k' ∧ e.Spreads 1 := by
  have hsymbol : (Expr.symbol n none true).Spreads 1 := ⟨rfl, rfl⟩
  exact ((yields_makeSymbol_same n none true k).and ((stable_calm t).makeSymbol n k hk).yields).mono
    fun _ _ h => ⟨h.2.1, hsymbol.of_same h.1⟩

theorem apply (hk : Calm t k) {f : String} {ops : List Expr}
    (hops : Expr.isOpened f = true → ∀ e ∈ ops, e.IsSingle) :
    Yields E (Kernel.apply f ops) k fun e k' =>
      Calm t k' ∧ e.Spreads (if f = "Sequence" then ops.length else 1) :=
  yields_apply (hk.intern (Expr.spreads_application hops))

/-- An operator without a form of its own whose operands are not checked. -/
theorem apply_plain (hk : Calm t k) {f : String} (h : (t.treatment f).isFormed = false)
    (hne : f ≠ "Sequence") (ops : List Expr) :
    Yields E (Kernel.apply f ops) k fun e k' => Calm t k' ∧ e.Spreads 1 := by
  have hclosed : Expr.isOpened f = true → ∀ e ∈ ops, e.IsSingle := fun hopened => by
    rw [hk.isOpened_eq_false h hne] at hopened
    cases hopened
  have happly := hk.apply (E := E) hclosed
  rwa [if_neg hne] at happly

end Calm

theorem isSingle_of_refused {ops rs : List Expr} (h : Refused ops rs) (hops : ∀ e ∈ ops, e.IsSingle) :
    ∀ e ∈ rs, e.IsSingle :=
  fun e he => (h.mem e he).elim (hops e) Expr.isSingle_of_isError

theorem yields_some {x : Action Expr} {n : Nat}
    (hx : Yields E x k fun e k' => Calm t k' ∧ e.Spreads n) :
    Yields E (do return some (← x)) k fun o k' =>
      Calm t k' ∧ o.isSome = true ∧ ∀ e, o = some e → e.Spreads n :=
  hx.bind fun _ _ h => Yields.pure ⟨h.1, rfl, fun _ he => by cases he; exact h.2⟩

section Operands

variable {counts : List Nat} {ops : List Expr}

namespace Calm

/-- **A function that is applied to its operands stands for one**, a sequence for as many as its own
stand for. -/
theorem applyChecked (hk : Calm t k) {f : String} {d : FunctionDefinition}
    (hlazy : d.isLazy.truthy = false)
    (hd : f = "Sequence" → Definition.takesAll (.function d) = true)
    (hops : List.Forall₂ Expr.Spreads counts ops) :
    Yields E (Kernel.applyChecked f d ops) k fun e k' =>
      Calm t k' ∧ e.Spreads (if f = "Sequence" then counts.sum else 1) := by
  have hkeeps := ((stable_calm t).construction.applyChecked hk (f := f) trivial trivial d
    (fun e (_ : e ∈ ops) => trivial)).yields
  refine ((yields_applyChecked_strict hk.strict f hlazy ops).and hkeeps).mono ?_
  rintro e k' ⟨⟨i, hsame⟩, hk', -⟩
  refine ⟨hk', ?_⟩
  have hspreads := (Expr.spreads_application (d := i) (c := true) fun hopened => isSingle_of_refused
    (refused_checkedOperands k.table d _) (Expr.isSingle_of_mem_flatten
      (a := if d.associative.truthy then some f else none) (by split <;> simp [hopened])
      (Expr.isTame_of_spreads hops))).of_same hsame
  by_cases hf : f = "Sequence"
  · -- a check without required operands, and with a rest, neither adds one nor drops one
    have htakes := hd hf
    simp only [Definition.takesAll, Bool.and_eq_true, Bool.not_eq_true', List.isEmpty_iff] at htakes
    obtain ⟨⟨⟨⟨-, hnumeric⟩, hassociative⟩, hrequired⟩, hrest⟩ := htakes
    rw [if_pos hf, hassociative, checkedOperands, hnumeric, if_neg (by decide), if_neg (by decide),
      length_checkedParameters hrequired hrest, Expr.length_flatten hops] at hspreads
    rwa [if_pos hf]
  · rw [if_neg hf] at hspreads
    rwa [if_neg hf]

/-! ### Forms of their own -/

theorem checkNumeric (hk : Calm t k) (hops : List.Forall₂ Expr.Spreads counts ops) (n : Nat) :
    Yields E (Kernel.checkNumeric ops (some n) none) k fun rs k' =>
      Calm t k' ∧ rs.length = max n counts.sum ∧ ∀ e ∈ rs, e.IsSingle := by
  have hkeeps := ((stable_calm t).checkNumeric ops (some n) none k hk).yields
  refine ((yields_checkNumeric_strict hk.strict ops (some n)).and hkeeps).mono ?_
  rintro _ k' ⟨rfl, hk', -⟩
  refine ⟨hk', ?_, ?_⟩
  · rw [length_checkedNumbers, Expr.length_flatten hops, Option.getD_some]
  · exact isSingle_of_refused (refused_checkedNumbers k.table _ _)
      (Expr.isSingle_of_mem_flatten (by simp) (Expr.isTame_of_spreads hops))

/-- A form that checks its operands refuses more of them than it asks for. -/
theorem ownForm (hk : Calm t k) (form : CanonicalForm) {count : Nat}
    (hform : form.arity? = some count)
    (hE : form.arity? = some 2 → 2 < counts.sum → E (.tooManyOperands 2))
    (hops : List.Forall₂ Expr.Spreads counts ops) :
    Yields E (Kernel.buildForm (.canonicalForm form) ops) k fun o k' =>
      Calm t k' ∧ (form.arity? = some 2 → counts.sum ≤ 2) ∧ ∀ e, o = some e → e.Spreads 1 := by
  obtain ⟨step, heq, hstep⟩ := exists_forms hform ops
  rw [heq]
  refine (hk.checkNumeric hops count).bind ?_
  rintro rs k₁ ⟨hk₁, hlength, hrs⟩
  have hgives : ∀ {x : Action Expr}, (form.arity? = some 2 → counts.sum ≤ 2) →
      (Yields E x k₁ fun e k' => Calm t k' ∧ e.Spreads 1) →
      Yields E (do return some (← x)) k₁ fun o k' =>
        Calm t k' ∧ (form.arity? = some 2 → counts.sum ≤ 2) ∧ ∀ e, o = some e → e.Spreads 1 :=
    fun hle hx => (yields_some hx).mono fun _ _ h => ⟨h.1, hle, h.2.2⟩
  have hle : rs.length = 2 → form.arity? = some 2 → counts.sum ≤ 2 := fun hrs hpair => by
    obtain rfl := Option.some.inj (hpair.symm.trans hform)
    omega
  have h := hstep rs
  generalize step rs = x at h ⊢
  cases h with
  | nothing =>
      cases hform
      rw [List.length_nil] at hlength
      omega
  | miscounted hpair hne =>
      obtain rfl := Option.some.inj (hpair.symm.trans hform)
      rw [if_pos (by omega)]
      exact Yields.throw (hE hpair (by omega))
  | opposite v =>
      obtain ⟨w, hw, hwn⟩ := Number.neg_isNegatable (hrs _ List.mem_cons_self).tame
      refine (yields_number_ok (P := fun a k' => a = w ∧ k' = k₁) hw ⟨rfl, rfl⟩).bind ?_
      rintro _ _ ⟨rfl, rfl⟩
      exact hgives (fun h => by cases h) (hk₁.makeNumber hwn)
  | negated xs =>
      refine Yields.pure ⟨hk₁, fun h => (by cases h), fun e he => ?_⟩
      -- what a tame negation has for an operand is single
      have htame := (hrs _ List.mem_cons_self).tame
      exact (Expr.isTame_application.1 htame rfl e (List.mem_of_mem_head? he)).spreads
  | negation => exact hgives (fun h => by cases h) (hk₁.apply (f := "Negate") fun _ => hrs)
  | quotient n d h =>
      rw [Bool.and_eq_true] at h
      obtain ⟨w, hw, hwn⟩ := Number.div_isNegatable h.1 h.2
      refine (yields_number_ok (P := fun a k' => a = w ∧ k' = k₁) hw ⟨rfl, rfl⟩).bind ?_
      rintro _ _ ⟨rfl, rfl⟩
      exact hgives (hle rfl) (hk₁.makeNumber hwn)
  | rational =>
      exact hgives (hle rfl) (hk₁.apply (f := "Rational") fun _ => hrs)
  | parts x y =>
      have hx := (hrs (.number (.real x)) (by simp)).tame
      have hy := (hrs (.number (.real y)) (by simp)).tame
      rw [Expr.isTame, Number.isNegatable_real] at hx hy
      exact hgives (hle rfl) (hk₁.makeNumber (Number.isNegatable_ofParts hx hy))
  | complex =>
      exact hgives (hle rfl) (hk₁.apply (f := "Complex") fun _ => hrs)

/-- **A form of its own refuses operands just if it is not made for their number.** -/
theorem buildForm (hk : Calm t k) (form : Callback) (hops : List.Forall₂ Expr.Spreads counts ops) :
    Yields (fun f => form.refusal? counts.sum = some f) (Kernel.buildForm form ops) k
      fun o k' => Calm t k' ∧ form.refusal? counts.sum = none ∧
        (o = none → form.spread counts = 1) ∧
          ∀ e, o = some e → e.Spreads (form.spread counts) := by
  unfold Kernel.buildForm
  split
  next =>
    exact (hk.ownForm .negation rfl (fun h => by cases h) hops).mono fun _ _ h =>
      ⟨h.1, rfl, fun _ => rfl, h.2.2⟩
  next =>
    refine (hk.ownForm .rational rfl (fun _ hlt => ?_) hops).mono fun _ _ h =>
      ⟨h.1, if_neg (Nat.not_lt.2 (h.2.1 rfl)), fun _ => rfl, h.2.2⟩
    exact if_pos hlt
  next =>
    refine (hk.ownForm .complexPair rfl (fun _ hlt => ?_) hops).mono fun _ _ h =>
      ⟨h.1, if_neg (Nat.not_lt.2 (h.2.1 rfl)), fun _ => rfl, h.2.2⟩
    exact if_pos hlt
  next =>
    refine Yields.pure ⟨hk, rfl, ?_⟩
    cases hops with
    | nil => exact ⟨fun _ => rfl, fun e he => by cases he⟩
    | cons he _ => exact ⟨fun h => (by cases h), fun e h => by cases h; exact he⟩
  next =>
    exact (yields_some (hk.makeNumber (v := .zero) rfl)).mono fun _ _ h =>
      ⟨h.1, rfl, fun _ => rfl, h.2.2⟩
  next => exact Yields.pure ⟨hk, rfl, fun _ => rfl, fun e he => by cases he⟩
  next =>
    refine Yields.throw ?_
    cases form with
    | canonicalForm rule => cases rule <;> contradiction
    | _ => rfl

/-! ### Building -/

/-- What is no function is plain, and not what sequences are built with. -/
theorem plain_of_find?_ne (hk : Calm t k) {f : String} (hf : f ≠ "Error")
    (hwildcard : Expr.isWildcardName f = false)
    (h : ∀ d, k.table.find? f ≠ some (.function d)) :
    t.treatment f = .plain ∧ f ≠ "Sequence" := by
  constructor
  · rw [← hk.treatment, treatment_eq _ hf hwildcard]
    cases hd : k.table.find? f with
    | none => rfl
    | some x =>
        cases x with
        | symbol d => rfl
        | function d => exact absurd hd (h d)
  · rintro rfl
    obtain ⟨x, hx, htakes⟩ := (Option.any_eq_true _ _).1 hk.sequence
    cases x with
    | symbol d => cases htakes
    | function d => exact h d hx

theorem meetFunction (hk : Calm t k) (f : String) :
    Yields E (Kernel.meetFunction f) k fun _ k' => Calm t k' :=
  yields_meetFunction (fun _ => hk) fun h => (stable_calm t).met hk h .function

/-- Operands that are not checked, of an operator that has no form of its own. -/
theorem buildPlain {f : String} {among : Option Fault} {canonical : Action (List Expr)}
    (ht : t.treatment f = .plain) (hne : f ≠ "Sequence")
    (hcanonical : Yields (fun e => among = some e) canonical k fun es k' =>
      Calm t k' ∧ among = none ∧ List.Forall₂ Expr.Spreads counts es) :
    Yields (fun e => (t.treatment f).fault? among counts.sum = some e)
      (do Kernel.apply f (← canonical)) k fun e k' =>
        Calm t k' ∧ (t.treatment f).fault? among counts.sum = none ∧
          e.Spreads ((t.treatment f).spread f counts) := by
  have hspread : (t.treatment f).spread f counts = 1 := by
    rw [ht]
    exact if_neg hne
  have hformed : (t.treatment f).isFormed = false := by rw [ht]; rfl
  rw [hspread, ht]
  refine hcanonical.bind ?_
  rintro es k₁ ⟨hk₁, hfault, -⟩
  exact (hk₁.apply_plain hformed hne es).mono fun _ _ he => ⟨he.1, hfault, he.2⟩

/-- Operands of a function that holds them back. -/
theorem buildHeld (hk : Calm t k) {f : String} {among : Option Fault} {held : Action (List Expr)}
    (ht : t.treatment f = .held) (hheld : Yields Never held k fun _ k' => Calm t k') :
    Yields (fun e => (t.treatment f).fault? among counts.sum = some e)
      (do Kernel.apply f (← held)) k fun e k' =>
        Calm t k' ∧ (t.treatment f).fault? among counts.sum = none ∧
          e.Spreads ((t.treatment f).spread f counts) := by
  have hne : f ≠ "Sequence" := by
    rintro rfl
    rw [hk.treatment_sequence] at ht
    cases ht
  have hformed : (t.treatment f).isFormed = false := by rw [ht]; rfl
  rw [ht]
  refine (hheld.imp (fun _ h => h.elim) fun _ _ h => h).bind fun es k₁ hk₁ => ?_
  exact (hk₁.apply_plain hformed hne es).mono fun _ _ he => ⟨he.1, rfl, he.2⟩

/-- A function that is given operands in canonical form. -/
theorem applyFunction (hk : Calm t k) {f : String} {d : FunctionDefinition}
    (hlazy : d.isLazy.truthy = false)
    (ht : t.treatment f = .ofDefinition (some (.function d)))
    (hd : f = "Sequence" → Definition.takesAll (.function d) = true)
    (hops : List.Forall₂ Expr.Spreads counts ops) :
    Yields (fun e => (t.treatment f).fault? none counts.sum = some e)
      (Kernel.applyFunction f d ops) k fun e k' =>
        Calm t k' ∧ (t.treatment f).fault? none counts.sum = none ∧
          e.Spreads ((t.treatment f).spread f counts) := by
  rw [Treatment.ofDefinition, hlazy, if_neg (by decide)] at ht
  unfold Kernel.applyFunction
  cases hform : d.canonical with
  | none =>
      rw [hform] at ht
      rw [ht]
      exact (hk.applyChecked hlazy hd hops).mono fun _ _ he => ⟨he.1, rfl, he.2⟩
  | some form =>
      rw [hform] at ht
      have hne : f ≠ "Sequence" := by
        rintro rfl
        rw [hk.treatment_sequence] at ht
        cases ht
      rw [ht]
      refine (hk.buildForm form hops).bind ?_
      rintro (_ | e) k₁ ⟨hk₁, hrefusal, hnone, hsome⟩
      · refine (hk₁.applyChecked hlazy hd hops).mono fun e k₂ he => ⟨he.1, hrefusal, ?_⟩
        rw [if_neg hne] at he
        rw [Treatment.spread, hnone rfl]
        exact he.2
      · exact Yields.pure ⟨hk₁, hrefusal, hsome e rfl⟩

/-- **An application is refused if an operand is, or its form of its own refuses.** -/
theorem build (hk : Calm t k) {f : String} (hf : f ≠ "Error") {among : Option Fault}
    {canonical held : Action (List Expr)}
    (hcanonical : ∀ k, Calm t k → Yields (fun e => among = some e) canonical k fun es k' =>
      Calm t k' ∧ among = none ∧ List.Forall₂ Expr.Spreads counts es)
    (hheld : ∀ k, Calm t k → Yields Never held k fun _ k' => Calm t k') :
    Yields (fun e => (t.treatment f).fault? among counts.sum = some e)
      (Kernel.build f canonical held) k fun e k' =>
        Calm t k' ∧ (t.treatment f).fault? among counts.sum = none ∧
          e.Spreads ((t.treatment f).spread f counts) := by
  refine yields_build (fun hwildcard => ?_) fun hwildcard => ?_
  · refine buildPlain ?_ ?_ (hcanonical k hk)
    · rw [DefinitionTable.treatment, if_neg hf, if_pos hwildcard]
    · rintro rfl
      exact absurd hwildcard (by decide +kernel)
  refine (hk.meetFunction f).mono fun _ k₁ hk₁ definition x hd hx => ?_
  have ht : t.treatment f = .ofDefinition definition := by
    rw [← hk₁.treatment, treatment_eq _ hf hwildcard, hd]
  cases hx with
  | plain h =>
      obtain ⟨ht, hne⟩ := hk₁.plain_of_find?_ne hf hwildcard (hd ▸ h)
      exact buildPlain ht hne (hcanonical k₁ hk₁)
  | held d hlazy =>
      refine hk₁.buildHeld ?_ (hheld k₁ hk₁)
      rw [ht, Treatment.ofDefinition, if_pos hlazy]
  | function d hlazy =>
      have htakes : f = "Sequence" → Definition.takesAll (.function d) = true := by
        rintro rfl
        have hsequence := hk₁.sequence
        rwa [hd] at hsequence
      have hne : t.treatment f ≠ .held := by
        rw [ht, Treatment.ofDefinition, hlazy, if_neg (by decide)]
        split <;> exact fun h => by cases h
      have hamong : ∀ e, among = some e → (t.treatment f).fault? among counts.sum = some e := by
        rintro e rfl
        exact Treatment.fault?_some hne e _
      refine ((hcanonical k₁ hk₁).imp hamong fun _ _ h => h).bind ?_
      -- `d` was looked up before the operands were built; they may have narrowed it since
      rintro es k₂ ⟨hk₂, rfl, hes⟩
      exact hk₂.applyFunction hlazy ht htakes hes

end Calm

end Operands

/-! ### Formulas as they stand -/

theorem boxNumber_int (n : Int) (k : Kernel) :
    Yields E (boxNumber (.int n)) k fun e _ => e.Spreads 1 :=
  Yields.bind (P := fun _ _ => True) trivial fun _ k₁ _ =>
    (yields_intern_same (.number (.ofInt n)) k₁).mono fun _ _ h =>
      Expr.Spreads.of_same ⟨rfl, rfl⟩ h

mutual

/-- **A formula can always be held.** -/
theorem hold_returns {r : Raw} {k : Kernel} (h : r.isFormula = true) :
    Yields E (hold r) k fun _ _ => True := by
  unfold Raw.isFormula at h
  split at h
  next n => exact (boxNumber_int n k).mono fun _ _ _ => trivial
  next n =>
    unfold hold holdSymbol
    split
    next => exact (yields_intern_same _ k).mono fun _ _ _ => trivial
    next => exact trivial
  next f args =>
    unfold hold
    split
    next => exact (boxError_returns h).mono fun _ _ _ => trivial
    next => exact (holdAll_returns h).bind fun _ _ _ => trivial
  next => cases h
termination_by sizeOf r

theorem holdAll_returns {rs : List Raw} {k : Kernel} (h : Raw.allFormulas rs = true) :
    Yields E (holdAll rs) k fun _ _ => True := by
  unfold holdAll
  split
  next => exact trivial
  next r rest =>
    rw [Raw.allFormulas, Bool.and_eq_true] at h
    exact (hold_returns h.1).bind fun _ _ _ => (holdAll_returns h.2).bind fun _ _ _ => trivial
termination_by sizeOf rs

theorem boxError_returns {rs : List Raw} {k : Kernel} (h : Raw.allFormulas rs = true) :
    Yields E (boxError rs) k fun e _ => e.isError = true := by
  unfold boxError
  split
  next => exact rfl
  next code rest =>
    rw [Raw.allFormulas, Bool.and_eq_true] at h
    exact (errorOperand_returns h.2).bind fun _ _ _ => rfl
termination_by sizeOf rs

theorem errorOperand_returns {rs : List Raw} {k : Kernel} (h : Raw.allFormulas rs = true) :
    Yields E (errorOperand rs) k fun _ _ => True := by
  unfold errorOperand
  split
  next => exact trivial
  next => exact trivial
  next r _ =>
    rw [Raw.allFormulas, Bool.and_eq_true] at h
    exact (hold_returns h.1).bind fun _ _ _ => trivial
  next rest _ _ =>
    rw [Raw.allFormulas, Bool.and_eq_true] at h
    exact errorOperand_returns h.2
termination_by sizeOf rs

end

theorem Calm.holdAll (hk : Calm t k) {rs : List Raw} (h : Raw.allFormulas rs = true) :
    Yields Never (Kernel.holdAll rs) k fun _ k' => Calm t k' :=
  ((holdAll_returns h).and ((stable_calm t).construction.holdAll hk fun _ _ => trivial).yields).mono
    fun _ _ h => h.2.1

theorem Calm.boxError (hk : Calm t k) {rs : List Raw} (h : Raw.allFormulas rs = true) :
    Yields E (Kernel.boxError rs) k fun e k' => Calm t k' ∧ e.Spreads 1 :=
  ((boxError_returns h).and ((stable_calm t).construction.boxError hk fun _ _ => trivial).yields).mono
    fun _ _ h => ⟨h.2.1, (Expr.isSingle_of_isError h.1).spreads⟩

/-! ### Formulas in canonical form -/

mutual

/-- **Building a formula ends with its fault, or with as many operands as it stands for.** -/
theorem Calm.box {k : Kernel} (hk : Calm t k) {r : Raw} (h : r.isFormula = true) :
    Yields (fun f => t.fault? r = some f) (Kernel.box r) k fun e k' =>
      Calm t k' ∧ t.fault? r = none ∧ e.Spreads (t.spread r) := by
  unfold Raw.isFormula at h
  split at h
  next n =>
    exact ((boxNumber_int n k).and ((stable_calm t).boxNumber (.int n) k hk).yields).mono
      fun _ _ h => ⟨h.2.1, rfl, h.1⟩
  next n => exact (hk.makeSymbol n).mono fun _ _ h => ⟨h.1, rfl, h.2⟩
  next f args =>
    unfold Kernel.box
    split
    next hf =>
      have ht : t.treatment f = .held := if_pos (by simpa using hf)
      rw [DefinitionTable.fault?, DefinitionTable.spread, ht]
      exact (hk.boxError h).mono fun _ _ h => ⟨h.1, rfl, h.2⟩
    next hf =>
      exact hk.build (by simpa using hf) (fun k hk => Calm.boxAll hk h) fun k hk => hk.holdAll h
  next => cases h
termination_by sizeOf r

theorem Calm.boxAll {k : Kernel} (hk : Calm t k) {rs : List Raw} (h : Raw.allFormulas rs = true) :
    Yields (fun f => t.faultAmong? rs = some f) (Kernel.boxAll rs) k fun es k' =>
      Calm t k' ∧ t.faultAmong? rs = none ∧ List.Forall₂ Expr.Spreads (t.spreads rs) es := by
  unfold Kernel.boxAll
  split
  next => exact ⟨hk, rfl, .nil⟩
  next r rest =>
    rw [Raw.allFormulas, Bool.and_eq_true] at h
    rw [DefinitionTable.faultAmong?]
    have hfault : ∀ f, t.fault? r = some f →
        (t.fault? r).or (t.faultAmong? rest) = some f := fun f hf => by rw [hf]; rfl
    refine ((Calm.box hk h.1).imp hfault fun _ _ h => h).bind ?_
    rintro e k₁ ⟨hk₁, hnone, he⟩
    rw [hnone, Option.none_or]
    refine (Calm.boxAll hk₁ h.2).bind ?_
    rintro es k₂ ⟨hk₂, hnone, hes⟩
    exact Yields.pure ⟨hk₂, hnone, .cons he hes⟩
termination_by sizeOf rs

end

end Kernel

/-! ### The faults of formulas -/

namespace DefinitionTable

mutual

/-- **A formula is refused for too many operands**, or for a form that is none. -/
theorem fault?_cases {t : DefinitionTable} {r : Raw} {f : Fault} (h : t.fault? r = some f) :
    f = .tooManyOperands 2 ∨ f = .wrongArguments := by
  unfold fault? at h
  split at h
  next g args =>
    cases ht : t.treatment g with
    | held =>
        rw [ht] at h
        cases h
    | plain =>
        rw [ht] at h
        exact faultAmong?_cases h
    | formed form =>
        rw [ht, Treatment.fault?, Option.or_eq_some_iff] at h
        rcases h with h | ⟨-, h⟩
        · exact faultAmong?_cases h
        · exact form.refusal?_cases h
  next => cases h
termination_by sizeOf r

theorem faultAmong?_cases {t : DefinitionTable} {rs : List Raw} {f : Fault}
    (h : t.faultAmong? rs = some f) : f = .tooManyOperands 2 ∨ f = .wrongArguments := by
  unfold faultAmong? at h
  split at h
  next => cases h
  next r rest =>
    rw [Option.or_eq_some_iff] at h
    rcases h with h | ⟨-, h⟩
    · exact fault?_cases h
    · exact faultAmong?_cases h
termination_by sizeOf rs

end

end DefinitionTable

namespace Kernel

open DefinitionTable

/-! ## The main result -/

theorem standard_operators :
    ((standard.table.find? "Sequence").any fun d => !d.isInferred && d.takesAll) = true ∧
      ((standard.table.find? "Negate").any fun d =>
        !d.isInferred && (Treatment.ofDefinition (some d)).isFormed) = true := by
  rw [standard_eq]
  decide +kernel

/-- Sequences and negations stay what they are in any run: their definitions are not inferred. -/
theorem calm_after (run : List Call) (hstrict : (standard.after run).settings.strict = true) :
    Calm (standard.after run).table (standard.after run) where
  strict := hstrict
  treatment _ := rfl
  sequence := by
    obtain ⟨d, hd, h⟩ := (Option.any_eq_true _ _).1 standard_operators.1
    rw [Bool.and_eq_true, Bool.not_eq_true'] at h
    obtain ⟨d', hd', hpersists⟩ := (persists_after standard run).definition "Sequence" d hd
    rw [hd', hpersists.fixed h.1, Option.any_some, h.2]
  negate := by
    obtain ⟨d, hd, h⟩ := (Option.any_eq_true _ _).1 standard_operators.2
    rw [Bool.and_eq_true, Bool.not_eq_true'] at h
    obtain ⟨d', hd', hpersists⟩ := (persists_after standard run).definition "Negate" d hd
    rw [treatment_eq _ (by decide) (by decide +kernel), hd', hpersists.fixed h.1, h.2]

/-- **A formula is built, unless a form of its own refuses it.**  After any run, in a strict kernel, a
formula is built if and only if it has no fault, which is settled by the definitions before; otherwise
building it ends with that fault, and there are two of them.  A function that is applied to operands
always gives an application, which is free of errors if and only if the function takes its operands,
with sequences and its own applications spliced. -/
theorem formula_construction (run : List Call)
    (hstrict : (standard.after run).settings.strict = true) :
    (∀ r : Raw, r.isFormula = true →
      ((standard.after run).table.fault? r = none →
        ∃ e k', (box r).run.run (standard.after run) = (.ok e, k')) ∧
      ∀ f, (standard.after run).table.fault? r = some f →
        (f = .tooManyOperands 2 ∨ f = .wrongArguments) ∧
          ∃ k', (box r).run.run (standard.after run) = (.error f, k')) ∧
    ∀ f d ops, d.isLazy.truthy = false →
      ∃ e k', (applyChecked f d ops).run.run (standard.after run) = (.ok e, k') ∧
        e.operator = f ∧
        (e.isValid = true ↔ takes (standard.after run).table d
          (Expr.flatten (if d.associative.truthy then some f else none) ops) = true) := by
  have hk := calm_after run hstrict
  refine ⟨fun r hr => ?_, fun f d ops hlazy => ?_⟩
  · have hbox := (hk.box hr).ok_or_fault
    refine ⟨fun hnone => ?_, fun f hf => ⟨fault?_cases hf, ?_⟩⟩
    · obtain ⟨e, k', hrun, -⟩ | ⟨f, k', hrun, hf⟩ := hbox
      · exact ⟨e, k', hrun⟩
      · rw [hnone] at hf
        cases hf
    · obtain ⟨e, k', hrun, -, hnone, -⟩ | ⟨f', k', hrun, hf'⟩ := hbox
      · rw [hnone] at hf
        cases hf
      · rw [hf] at hf'
        cases hf'
        exact ⟨k', hrun⟩
  · obtain ⟨e, k', hrun, i, hsame⟩ :=
      (yields_applyChecked_strict (E := Never) hstrict f hlazy ops).exists_run
    refine ⟨e, k', hrun, Expr.operator_of_same hsame, ?_⟩
    rw [Expr.isValid_of_same hsame, Expr.isValid, allValid_checkedOperands hlazy]

/-- A formula with operands that are missing, superfluous, spliced and held back. -/
def crowdedSum : Raw :=
  .list [.name "Add", .list [.name "Sin"], .list [.name "Sequence", .name "x", .name "True"],
    .list [.name "Hold", .list [.name "Rational", .int 1, .int 2, .int 3]],
    .list [.name "Rational", .list [.name "Sequence", .int 4, .int 6]]]

/-- A quotient of more than two operands. -/
def crowdedQuotient : Raw := .list [.name "Rational", .int 1, .int 2, .int 3]

theorem isTooMany_crowdedQuotient :
    (standard.table.fault? crowdedQuotient).any (·.kind == .value) = true := by
  rw [standard_eq]
  decide +kernel

theorem calm_standard : Calm standard.table standard := by
  have hk := calm_after [] (by rw [after_nil, standard_isStrict])
  rwa [after_nil] at hk

/-- The sum is built in a new kernel, and a function without operands is applied. -/
theorem formula_construction_crowdedSum :
    (∃ e k', (box crowdedSum).run.run standard = (.ok e, k')) ∧
      ∃ e k', (applyChecked "F" (.met "F") []).run.run standard = (.ok e, k') ∧ e.isValid = true := by
  have hfault : standard.table.fault? crowdedSum = none :=
    Option.isNone_iff_eq_none.1 (by rw [standard_eq]; decide +kernel)
  have h := formula_construction [] (by rw [after_nil, standard_isStrict])
  rw [after_nil] at h
  obtain ⟨hbox, happly⟩ := h
  obtain ⟨e, k', hrun, -, hvalid⟩ := happly "F" (.met "F") [] rfl
  refine ⟨(hbox crowdedSum (by decide +kernel)).1 hfault, e, k', hrun, hvalid.2 ?_⟩
  rfl

/-- **A quotient of more than two operands is not built**: its check adds an error for the third one, and
the form takes two.  A negation drops what its check adds: that of one and two is minus one. -/
theorem crowdedQuotient_refused :
    (∃ k', (box crowdedQuotient).run.run standard = (.error (.tooManyOperands 2), k')) ∧
      ∃ k', (box (.list [.name "Negate", .int 1, .int 2])).run.run standard =
        (.ok (.number .negativeOne), k') := by
  refine ⟨?_, run_eq rfl (by rw [standard_eq]; decide +kernel)⟩
  obtain ⟨f, hf, hkind⟩ := (Option.any_eq_true _ _).1 isTooMany_crowdedQuotient
  obtain ⟨e, k', -, -, hnone, -⟩ | ⟨f', k', hrun, hf'⟩ :=
    (calm_standard.box (r := crowdedQuotient) (by decide +kernel)).ok_or_fault
  · rw [hf] at hnone
    cases hnone
  · rw [hf] at hf'
    cases hf'
    rcases fault?_cases hf with rfl | rfl
    · exact ⟨k', hrun⟩
    · cases hkind

end Kernel

end SymbolicAlgebra
