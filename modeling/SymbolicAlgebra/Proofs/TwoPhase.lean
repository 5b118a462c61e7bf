import SymbolicAlgebra.Proofs.Lockstep
import SymbolicAlgebra.Proofs.Persistence
import SymbolicAlgebra.Proofs.Standard

/-!
# Proofs/TwoPhase — building in two phases

A shape may be built at once (`box`), or held first and then brought into canonical form (`hold`, then
`canonicalize`).  Holding puts the numbers and wildcards of a shape into the pool, in the order in which
building comes to them, and gives an expression that can be read off the pool (`Raw.held`).  Bringing that
expression into canonical form runs in lockstep with building the shape (`Paired.box`).

What is built may still differ in two ways (`boxInPhases_differs`): an expression that is held back is held
with the definitions of an earlier moment, and of numbers that are the same but are written in different
ways the pool keeps the first one.  `boxInPhases_same` excludes both.
-/

namespace SymbolicAlgebra

open SymbolicAlgebra.Expr

/-! ## Shapes of names, lists and definite numbers -/

namespace Raw

/-- The number that a shape stands for, if that does not depend on the precision in use. -/
def number? : Raw → Option Number
  | value v => some v
  | int n => some (.ofInt n)
  | fraction q => some (.real (.exact q))
  | double x => some (.real (.machine x))
  | complex re im => some (.ofComplex ⟨re, im⟩)
  | _ => none

mutual

/-- Whether a shape is made of names, lists and definite numbers. -/
def isDefinite : Raw → Bool
  | name _ => true
  | list items => allDefinite items
  | r => r.number?.any Number.isDefinite

def allDefinite : List Raw → Bool
  | [] => true
  | r :: rest => isDefinite r && allDefinite rest

end

mutual

/-- Whether a shape can be held: where a list is read, its head is a name. -/
def isHoldable : Raw → Bool
  | name _ => true
  | list (name f :: args) => if f == "Error" then isHoldableError args else allHoldable args
  | r => r.number?.any Number.isDefinite

def allHoldable : List Raw → Bool
  | [] => true
  | r :: rest => isHoldable r && allHoldable rest

def isHoldableError : List Raw → Bool
  | [] => true
  | _ :: rest => isHoldableOperand rest

def isHoldableOperand : List Raw → Bool
  | [] => true
  | [name _] => true
  | [r] => isHoldable r
  | _ :: rest => isHoldableOperand rest

end

mutual

/-- The wildcards and numbers that are interned when a shape is held, in their order. -/
def entrants : Raw → List Expr
  | name n => if isWildcardName n then [.symbol n none true] else []
  | list (name f :: args) => if f == "Error" then errorEntrants args else allEntrants args
  | r => [.number (r.number?.getD .zero)]

def allEntrants : List Raw → List Expr
  | [] => []
  | r :: rest => entrants r ++ allEntrants rest

def errorEntrants : List Raw → List Expr
  | [] => []
  | _ :: rest => operandEntrants rest

def operandEntrants : List Raw → List Expr
  | [] => []
  | [name _] => []
  | [r] => entrants r
  | _ :: rest => operandEntrants rest

end

mutual

/-- A shape as it stands, with wildcards and numbers looked up. -/
def held (look : Expr → Expr) (t : DefinitionTable) : Raw → Expr
  | name n =>
      if isWildcardName n then look (.symbol n none true) else .symbol n (t.number? n) false
  | list (name f :: args) =>
      if f == "Error" then heldError look t args
      else .application f (heldAll look t args) (t.functionNumber? f) false
  | r => look (.number (r.number?.getD .zero))

def heldAll (look : Expr → Expr) (t : DefinitionTable) : List Raw → List Expr
  | [] => []
  | r :: rest => held look t r :: heldAll look t rest

def heldError (look : Expr → Expr) (t : DefinitionTable) : List Raw → Expr
  | [] => Kernel.missing
  | code :: rest => .error code.display (Kernel.errorDetails rest) (heldOperand look t rest)

def heldOperand (look : Expr → Expr) (t : DefinitionTable) : List Raw → Option Expr
  | [] => none
  | [name _] => none
  | [r] => some (held look t r)
  | _ :: rest => heldOperand look t rest

end

end Raw

namespace Kernel

variable {P V : List Expr} {k k' l : Kernel}

/-- What a pool offers for an expression, the expression itself if it offers nothing. -/
def offer (p : List Expr) (e : Expr) : Expr := (pooled? p e).getD e

/-! ## Holding -/

/-- A kernel after the expressions `V` were interned in it one after the other. -/
structure Admits (k : Kernel) (V : List Expr) (k' : Kernel) : Prop where
  table : k'.table = k.table
  settings : k'.settings = k.settings
  pool : ∀ e, pooled? k'.pool e = (pooled? k.pool e).or (pooled? V e)

namespace Admits

theorem refl (k : Kernel) : k.Admits [] k := ⟨rfl, rfl, fun _ => (Option.or_none).symm⟩

theorem trans {V W : List Expr} {k₁ k₂ k₃ : Kernel} (h : k₁.Admits V k₂) (h' : k₂.Admits W k₃) :
    k₁.Admits (V ++ W) k₃ where
  table := h'.table.trans h.table
  settings := h'.settings.trans h.settings
  pool e := by rw [h'.pool, h.pool, pooled?_append, Option.or_assoc]

theorem kept (h : k.Admits V k') {e x : Expr} (hx : pooled? k.pool e = some x) :
    pooled? k'.pool e = some x := by
  rw [h.pool, hx, Option.some_or]

end Admits

/-- A pool that offers what the pool of `k` does. -/
abbrev Keeps (k : Kernel) (p : List Expr) : Prop := ∀ e x, pooled? k.pool e = some x → pooled? p e = some x

/-- Interning an expression admits it, and gives what the pool then offers. -/
theorem yields_intern_offer {E : Fault → Prop} (e : Expr) (k : Kernel) :
    Yields E (intern e) k fun x k' => k.Admits [e] k' ∧ ∀ p, k'.Keeps p → x = offer p e := by
  unfold Yields
  rw [run_intern]
  cases hk : pooled? k.pool e with
  | some x =>
      refine ⟨⟨rfl, rfl, fun u => ?_⟩, fun p hp => ?_⟩
      · rw [pooled?_cons]
        cases hu : u.same e with
        | true => rw [pooled?_congr hu k.pool, hk, Option.some_or]
        | false => rw [if_neg Bool.false_ne_true]; exact (Option.or_none).symm
      · rw [offer, hp e x hk, Option.getD_some]
  | none =>
      refine ⟨⟨rfl, rfl, fun u => ?_⟩, fun p hp => ?_⟩
      · rw [pooling_pool, pooled?_cons, pooled?_cons]
        cases hu : u.same e with
        | true => rw [if_pos rfl, if_pos rfl, pooled?_congr hu k.pool, hk, Option.none_or]
        | false =>
            rw [if_neg Bool.false_ne_true, if_neg Bool.false_ne_true]
            exact (Option.or_none).symm
      · rw [offer, hp e e (by rw [pooling_pool, pooled?_cons, same_refl, if_pos rfl]), Option.getD_some]

/-- A number is interned as it is, whatever the precision. -/
theorem boxNumber_of_number? {r : Raw} {v : Number} (h : r.number? = some v) (k : Kernel) :
    (boxNumber r).run.run k = (makeNumber v).run.run k := by
  have hnumber : ∀ precision, Definition.numberOf precision r = .ok v := fun precision => by
    cases r <;> cases h <;> rfl
  unfold boxNumber
  rw [run_bind]
  change ((Kernel.ofExcept (Definition.numberOf k.settings.precision r) >>= makeNumber).run.run k) = _
  rw [hnumber, run_bind]
  rfl

/-- A shape that can be held, and is no name and no list, is a number. -/
theorem number_of_isHoldable {r : Raw} (h : r.isHoldable = true) : (∃ n, r = .name n) ∨
    (∃ f args, r = .list (.name f :: args)) ∨ ∃ v, r.number? = some v ∧ v.isDefinite = true ∧
      r.entrants = [.number v] ∧ (∀ look t, r.held look t = look (.number v)) ∧
        box r = boxNumber r ∧ hold r = boxNumber r := by
  unfold Raw.isHoldable at h
  split at h
  next n => exact .inl ⟨n, rfl⟩
  next f args => exact .inr (.inl ⟨f, args, rfl⟩)
  next =>
    obtain ⟨v, hv, hdefinite⟩ := (Option.any_eq_true _ _).1 h
    refine .inr (.inr ⟨v, hv, hdefinite, ?_⟩)
    cases r <;> cases hv <;> exact ⟨rfl, fun _ _ => rfl, by simp [box], by simp [hold]⟩

/-- What the last of a list of shapes is to an error: nothing if it is a name, else its operand. -/
theorem errorOperand_cases (rs : List Raw) :
    (errorOperand rs = pure none ∧ Raw.operandEntrants rs = [] ∧
      ∀ look t, Raw.heldOperand look t rs = none) ∨
    (∃ r, rs = [r] ∧ errorOperand rs = (do return some (← hold r)) ∧
      Raw.isHoldableOperand rs = r.isHoldable ∧ Raw.operandEntrants rs = r.entrants ∧
        ∀ look t, Raw.heldOperand look t rs = some (r.held look t)) ∨
    ∃ r rest, rs = r :: rest ∧ errorOperand rs = errorOperand rest ∧
      Raw.isHoldableOperand rs = Raw.isHoldableOperand rest ∧
        Raw.operandEntrants rs = Raw.operandEntrants rest ∧
          ∀ look t, Raw.heldOperand look t rs = Raw.heldOperand look t rest := by
  rcases rs with _ | ⟨r, _ | ⟨r', rest⟩⟩
  · exact .inl ⟨by rw [errorOperand], rfl, fun _ _ => rfl⟩
  · cases r with
    | name n => exact .inl ⟨by rw [errorOperand], rfl, fun _ _ => rfl⟩
    | _ => exact .inr (.inl ⟨_, rfl, by simp [errorOperand], rfl, rfl, fun _ _ => rfl⟩)
  · refine .inr (.inr ⟨r, r' :: rest, rfl, ?_⟩)
    cases r <;> exact ⟨by simp [errorOperand], rfl, rfl, fun _ _ => rfl⟩

theorem Admits.keeps {V : List Expr} (h : k.Admits V k') {p : List Expr} (hp : k'.Keeps p) :
    k.Keeps p := fun e x hx => hp e x (h.kept hx)

mutual

/-- **Holding a shape admits its numbers and wildcards**, and gives the shape as it stands. -/
theorem yields_hold {E : Fault → Prop} {r : Raw} {k : Kernel} (hr : r.isHoldable = true) :
    Yields E (hold r) k fun h k' =>
      k.Admits r.entrants k' ∧ ∀ p, k'.Keeps p → h = r.held (offer p) k.table := by
  obtain ⟨n, rfl⟩ | ⟨f, args, rfl⟩ | ⟨v, hv, -, hentrants, hheld, -, hhold⟩ := number_of_isHoldable hr
  · unfold hold holdSymbol Raw.entrants Raw.held
    split
    next => exact yields_intern_offer _ k
    next =>
      refine Yields.bind (P := fun t k' => t = k.table ∧ k' = k) ⟨rfl, rfl⟩ ?_
      rintro _ k' ⟨rfl, rfl⟩
      exact Yields.pure ⟨.refl k', fun _ _ => rfl⟩
  · unfold Raw.isHoldable at hr
    unfold hold Raw.entrants Raw.held
    split
    next h =>
      rw [if_pos h] at hr
      exact yields_boxError hr
    next h =>
      rw [if_neg h] at hr
      refine (yields_holdAll hr).bind fun hs k₁ h₁ => ?_
      refine Yields.bind (P := fun t k' => t = k₁.table ∧ k' = k₁) ⟨rfl, rfl⟩ ?_
      rintro _ k₁ ⟨rfl, rfl⟩
      exact Yields.pure ⟨h₁.1, fun p hp => by rw [h₁.2 p hp, h₁.1.table]⟩
  · rw [hhold, hentrants]
    have hintern := yields_intern_offer (E := E) (.number v) k
    unfold Yields at hintern ⊢
    rw [boxNumber_of_number? hv]
    simp only [hheld]
    exact hintern
termination_by sizeOf r

theorem yields_holdAll {E : Fault → Prop} {rs : List Raw} {k : Kernel}
    (hrs : Raw.allHoldable rs = true) :
    Yields E (holdAll rs) k fun hs k' => k.Admits (Raw.allEntrants rs) k' ∧
      ∀ p, k'.Keeps p → hs = Raw.heldAll (offer p) k.table rs := by
  unfold holdAll
  split
  next => exact Yields.pure ⟨.refl k, fun _ _ => rfl⟩
  next r rest =>
    rw [Raw.allHoldable, Bool.and_eq_true] at hrs
    refine (yields_hold hrs.1).bind fun h k₁ hh => ?_
    refine (yields_holdAll hrs.2).bind fun hs k₂ hhs => ?_
    refine Yields.pure ⟨hh.1.trans hhs.1, fun p hp => ?_⟩
    rw [Raw.heldAll, hh.2 p (hhs.1.keeps hp), hhs.2 p hp, hh.1.table]
termination_by sizeOf rs

theorem yields_boxError {E : Fault → Prop} {rs : List Raw} {k : Kernel}
    (hrs : Raw.isHoldableError rs = true) :
    Yields E (boxError rs) k fun h k' => k.Admits (Raw.errorEntrants rs) k' ∧
      ∀ p, k'.Keeps p → h = Raw.heldError (offer p) k.table rs := by
  unfold boxError
  split
  next => exact Yields.pure ⟨.refl k, fun _ _ => rfl⟩
  next code rest =>
    refine (yields_errorOperand hrs).bind fun o k₁ ho => ?_
    exact Yields.pure ⟨ho.1, fun p hp => by rw [Raw.heldError, ho.2 p hp]⟩
termination_by sizeOf rs

theorem yields_errorOperand {E : Fault → Prop} {rs : List Raw} {k : Kernel}
    (hrs : Raw.isHoldableOperand rs = true) :
    Yields E (errorOperand rs) k fun o k' => k.Admits (Raw.operandEntrants rs) k' ∧
      ∀ p, k'.Keeps p → o = Raw.heldOperand (offer p) k.table rs := by
  obtain ⟨hrun, hentrants, hheld⟩ | ⟨r, rfl, hrun, hr, hentrants, hheld⟩ |
    ⟨r, rest, rfl, hrun, hr, hentrants, hheld⟩ := errorOperand_cases rs
  · rw [hrun, hentrants]
    exact Yields.pure ⟨.refl k, fun p _ => (hheld _ _).symm⟩
  · rw [hrun, hentrants]
    rw [hr] at hrs
    exact (yields_hold hrs).bind fun h k₁ hh =>
      Yields.pure ⟨hh.1, fun p hp => by rw [hheld, hh.2 p hp]⟩
  · rw [hrun, hentrants]
    rw [hr] at hrs
    exact (yields_errorOperand hrs).mono fun o k₁ ho => ⟨ho.1, fun p hp => by rw [hheld, ho.2 p hp]⟩
termination_by sizeOf rs

end

/-! ### What is held, by what is looked up -/

section Held

variable {look look' : Expr → Expr} {t t' : DefinitionTable}

mutual

/-- The outline of what is held does not depend on the definitions. -/
theorem outline_held {r : Raw} (hr : r.isHoldable = true)
    (h : ∀ e ∈ r.entrants, (look e).outline = (look' e).outline) :
    (r.held look t).outline = (r.held look' t').outline := by
  obtain ⟨n, rfl⟩ | ⟨f, args, rfl⟩ | ⟨v, -, -, hentrants, hheld, -⟩ := number_of_isHoldable hr
  · unfold Raw.entrants at h
    unfold Raw.held
    split
    next hn =>
      rw [if_pos hn] at h
      exact h _ (List.mem_singleton_self _)
    next => rfl
  · unfold Raw.isHoldable at hr
    unfold Raw.entrants at h
    unfold Raw.held
    split
    next hf =>
      rw [if_pos hf] at hr h
      exact outline_heldError hr h
    next hf =>
      rw [if_neg hf] at hr h
      exact congrArg (node f) (outlineAll_heldAll hr h)
  · rw [hheld, hheld]
    exact h _ (by rw [hentrants]; exact List.mem_singleton_self _)
termination_by sizeOf r

theorem outlineAll_heldAll {rs : List Raw} (hrs : Raw.allHoldable rs = true)
    (h : ∀ e ∈ Raw.allEntrants rs, (look e).outline = (look' e).outline) :
    outlineAll (Raw.heldAll look t rs) = outlineAll (Raw.heldAll look' t' rs) := by
  unfold Raw.heldAll
  split
  next => rfl
  next r rest =>
    rw [Raw.allHoldable, Bool.and_eq_true] at hrs
    rw [Raw.allEntrants, List.forall_mem_append] at h
    exact congrArg₂ List.cons (outline_held hrs.1 h.1) (outlineAll_heldAll hrs.2 h.2)
termination_by sizeOf rs

theorem outline_heldError {rs : List Raw} (hrs : Raw.isHoldableError rs = true)
    (h : ∀ e ∈ Raw.errorEntrants rs, (look e).outline = (look' e).outline) :
    (Raw.heldError look t rs).outline = (Raw.heldError look' t' rs).outline := by
  unfold Raw.heldError
  split
  next => rfl
  next code rest =>
    have hoperand : (Raw.heldOperand look t rest).map outline =
        (Raw.heldOperand look' t' rest).map outline := outline_heldOperand hrs h
    rw [outline_error, outline_error, hoperand]
termination_by sizeOf rs

theorem outline_heldOperand {rs : List Raw} (hrs : Raw.isHoldableOperand rs = true)
    (h : ∀ e ∈ Raw.operandEntrants rs, (look e).outline = (look' e).outline) :
    (Raw.heldOperand look t rs).map outline = (Raw.heldOperand look' t' rs).map outline := by
  obtain ⟨-, -, hheld⟩ | ⟨r, rfl, -, hr, hentrants, hheld⟩ | ⟨r, rest, rfl, -, hr, hentrants, hheld⟩ :=
    errorOperand_cases rs
  · rw [hheld, hheld]
  · rw [hr] at hrs
    rw [hentrants] at h
    rw [hheld, hheld, Option.map_some, Option.map_some, outline_held hrs h]
  · rw [hr] at hrs
    rw [hentrants] at h
    rw [hheld, hheld, outline_heldOperand hrs h]
termination_by sizeOf rs

end

mutual

/-- What is held is grounded if what is looked up is. -/
theorem grounded_held {r : Raw} (hr : r.isHoldable = true)
    (h : ∀ e ∈ r.entrants, k.Grounded (look e)) : k.Grounded (r.held look t) := by
  obtain ⟨n, rfl⟩ | ⟨f, args, rfl⟩ | ⟨v, -, -, hentrants, hheld, -⟩ := number_of_isHoldable hr
  · unfold Raw.entrants at h
    unfold Raw.held
    split
    next hn =>
      rw [if_pos hn] at h
      exact h _ (List.mem_singleton_self _)
    next => exact fun v hv => by cases hv
  · unfold Raw.isHoldable at hr
    unfold Raw.entrants at h
    unfold Raw.held
    split
    next =>
      cases args with
      | nil => exact grounded_of_isError rfl
      | cons code rest => exact grounded_of_isError rfl
    next hf =>
      rw [if_neg hf] at hr h
      exact grounded_application.2 (grounded_heldAll hr h)
  · rw [hheld]
    exact h _ (by rw [hentrants]; exact List.mem_singleton_self _)
termination_by sizeOf r

theorem grounded_heldAll {rs : List Raw} (hrs : Raw.allHoldable rs = true)
    (h : ∀ e ∈ Raw.allEntrants rs, k.Grounded (look e)) :
    ∀ x ∈ Raw.heldAll look t rs, k.Grounded x := by
  unfold Raw.heldAll
  split
  next => simp
  next r rest =>
    rw [Raw.allHoldable, Bool.and_eq_true] at hrs
    rw [Raw.allEntrants, List.forall_mem_append] at h
    exact List.forall_mem_cons.2 ⟨grounded_held hrs.1 h.1, grounded_heldAll hrs.2 h.2⟩
termination_by sizeOf rs

end

mutual

/-- Only wildcards and definite numbers enter the pool. -/
theorem isFirm_of_mem_entrants {r : Raw} (hr : r.isHoldable = true) :
    ∀ e ∈ r.entrants, e.isFirm = true := by
  obtain ⟨n, rfl⟩ | ⟨f, args, rfl⟩ | ⟨v, -, hdefinite, hentrants, -⟩ := number_of_isHoldable hr
  · unfold Raw.entrants
    split
    next hn => exact List.forall_mem_singleton.2 hn
    next => simp
  · unfold Raw.isHoldable at hr
    unfold Raw.entrants
    split
    next hf =>
      rw [if_pos hf] at hr
      cases args with
      | nil => simp [Raw.errorEntrants]
      | cons code rest => exact isFirm_of_mem_operandEntrants hr
    next hf =>
      rw [if_neg hf] at hr
      exact isFirm_of_mem_allEntrants hr
  · rw [hentrants]
    exact List.forall_mem_singleton.2 hdefinite
termination_by sizeOf r

theorem isFirm_of_mem_allEntrants {rs : List Raw} (hrs : Raw.allHoldable rs = true) :
    ∀ e ∈ Raw.allEntrants rs, e.isFirm = true := by
  unfold Raw.allEntrants
  split
  next => simp
  next r rest =>
    rw [Raw.allHoldable, Bool.and_eq_true] at hrs
    exact List.forall_mem_append.2 ⟨isFirm_of_mem_entrants hrs.1, isFirm_of_mem_allEntrants hrs.2⟩
termination_by sizeOf rs

theorem isFirm_of_mem_operandEntrants {rs : List Raw} (hrs : Raw.isHoldableOperand rs = true) :
    ∀ e ∈ Raw.operandEntrants rs, e.isFirm = true := by
  obtain ⟨-, hentrants, -⟩ | ⟨r, rfl, -, hr, hentrants, -⟩ | ⟨r, rest, rfl, -, hr, hentrants, -⟩ :=
    errorOperand_cases rs
  · rw [hentrants]
    simp
  · rw [hentrants]
    exact isFirm_of_mem_entrants (hr ▸ hrs)
  · rw [hentrants]
    exact isFirm_of_mem_operandEntrants (hr ▸ hrs)
termination_by sizeOf rs

end

end Held

/-! ## In lockstep -/

namespace Paired

variable {W : List Expr} {t : DefinitionTable}

/-- The first kernel comes to all it awaits in a part of the shape. -/
theorem reached (hp : Paired P (W ++ V) k l) (h : k.Admits W k') : Paired P V k' l where
  table := by rw [hp.table, h.table]
  settings := by rw [hp.settings, h.settings]
  plain := by
    rw [h.table]
    exact hp.plain
  firm x hx := hp.firm x (List.mem_append_right W hx)
  pools e := by rw [h.table, ← hp.pools e, h.pool, pooled?_append, Option.or_assoc]
  kept := hp.kept

/-- What was awaited is offered with one outline by both kernels. -/
theorem exists_offer (hp : Paired P (W ++ V) k l) (h : k.Admits W k') {e : Expr} (he : e ∈ W)
    (hP : (pooled? P e).isSome = true) : ∃ x, pooled? k'.pool e = some x ∧
      x.surface k.table = (offer P e).surface k.table := by
  obtain ⟨y, hy⟩ := Option.isSome_iff_exists.1 hP
  have hW : (pooled? W e).isSome = true := List.find?_isSome.2 ⟨e, he, same_refl e⟩
  have hk' : (pooled? k'.pool e).isSome = true := by
    rw [h.pool, Option.isSome_or, hW, Bool.or_true]
  obtain ⟨x, hx⟩ := Option.isSome_iff_exists.1 hk'
  have hpools := (hp.reached h).pools e
  rw [hx, hp.kept e y hy, Option.some_or, Option.map_some, Option.map_some, Option.some.injEq,
    h.table] at hpools
  exact ⟨x, hx, by rw [offer, hy, Option.getD_some, hpools]⟩

theorem outline_offer (hp : Paired P (W ++ V) k l) (h : k.Admits W k')
    (hP : ∀ e ∈ W, (pooled? P e).isSome = true) :
    ∀ e ∈ W, (offer k'.pool e).outline = (offer P e).outline := by
  intro e he
  obtain ⟨x, hx, hsurface⟩ := hp.exists_offer h he (hP e he)
  rw [offer, hx, Option.getD_some, outline_of_surface hsurface]

/-- What is awaited is grounded once the kernel has come to it. -/
theorem grounded_offer (hp : Paired P (W ++ V) k l) (h : k.Admits W k')
    (hP : ∀ e ∈ W, (pooled? P e).isSome = true) : ∀ e ∈ W, k'.Grounded (offer k'.pool e) := by
  intro e he
  obtain ⟨x, hx, -⟩ := hp.exists_offer h he (hP e he)
  rw [offer, hx, Option.getD_some]
  refine Grounded.of_same ?_ (same_of_pooled? hx)
  have hfirm := hp.firm e (List.mem_append_left V he)
  cases e with
  | number v =>
      intro w hw
      obtain rfl := List.mem_singleton.1 hw
      exact ⟨Number.isTidy_of_isDefinite hfirm, fun _ => by rw [hx]; rfl⟩
  | symbol n d c => exact fun v hv => by cases hv
  | _ => cases hfirm

/-- Operands that are held back have one outline. -/
theorem holdAll {rs : List Raw} (hrs : Raw.allHoldable rs = true)
    (hP : ∀ e ∈ Raw.allEntrants rs, (pooled? P e).isSome = true)
    (hp : Paired P (Raw.allEntrants rs ++ V) k l) :
    Follows (Kernel.holdAll rs) k (Pure.pure (Raw.heldAll (offer P) t rs)) l fun as k' bs l' =>
      Paired P V k' l' ∧ k.Grows k' ∧ outlineAll as = outlineAll bs ∧ ∀ a ∈ as, k'.Grounded a := by
  refine .of_yields (E := Never) ((yields_holdAll hrs).mono fun as k' h => ?_)
  obtain rfl := h.2 k'.pool fun _ _ hx => hx
  refine ⟨hp.reached h.1, ⟨h.1.table ▸ .refl _, fun e he => ?_⟩,
    outlineAll_heldAll hrs (hp.outline_offer h.1 hP),
    grounded_heldAll hrs (hp.grounded_offer h.1 hP)⟩
  rw [h.1.pool, Option.isSome_or, he, Bool.true_or]

/-- Errors that are written have one surface. -/
theorem boxError {rs : List Raw} (hrs : Raw.isHoldableError rs = true)
    (hP : ∀ e ∈ Raw.errorEntrants rs, (pooled? P e).isSome = true)
    (hp : Paired P (Raw.errorEntrants rs ++ V) k l) :
    Follows (Kernel.boxError rs) k (Kernel.canonicalize (Raw.heldError (offer P) t rs)) l
      fun a k' b l' => Paired P V k' l' ∧ k'.Twins a b := by
  have herror : ∀ look t, (Raw.heldError look t rs).isError = true := fun _ _ => by
    cases rs <;> rfl
  have hcanonical : ∀ {e : Expr}, e.isError = true → e.isCanonical = true ∧
      ∀ t, e.surface t = e.outline := by
    intro e he
    cases e with
    | error _ _ _ => exact ⟨rfl, fun _ => by rw [Expr.surface, outline_error]⟩
    | _ => cases he
  rw [canonicalize_of_isCanonical (hcanonical (herror _ _)).1]
  refine .of_yields (E := Never) ((yields_boxError hrs).mono fun a k' h => ?_)
  obtain rfl := h.2 k'.pool fun _ _ hx => hx
  refine ⟨hp.reached h.1, ?_, grounded_of_isError (herror _ _)⟩
  rw [(hcanonical (herror _ _)).2, (hcanonical (herror _ _)).2]
  exact outline_heldError hrs (hp.outline_offer h.1 hP)

/-- What was held is in canonical form if it was awaited. -/
theorem run_canonicalize_offer (hp : Paired P V k l) {e : Expr} (hP : (pooled? P e).isSome = true)
    (he : (∃ v, e = .number v) ∨ ∃ n, e = .symbol n none true ∧ isWildcardName n = true) :
    (canonicalize (offer P e)).run.run l = (.ok (offer P e), l) := by
  obtain ⟨y, hy⟩ := Option.isSome_iff_exists.1 hP
  have hsame := same_of_pooled? hy
  rw [offer, hy, Option.getD_some]
  obtain ⟨v, rfl⟩ | ⟨n, rfl, hn⟩ := he
  · cases y with
    | number w => rfl
    | _ => cases hsame
  · cases y with
    | symbol m d c =>
        obtain rfl : n = m := beq_iff_eq.1 hsame
        cases c with
        | true => rfl
        | false =>
            rw [canonicalize, if_neg Bool.false_ne_true, Kernel.makeSymbol, hn, if_pos rfl, run_intern,
              hp.kept _ _ hy]
    | _ => cases hsame

/-- What a part of the shape awaits is taken from the pool of the first kernel. -/
theorem reachOffer {e : Expr} (hp : Paired P (e :: V) k l) (hP : (pooled? P e).isSome = true)
    (he : (∃ v, e = .number v) ∨ ∃ n, e = .symbol n none true ∧ isWildcardName n = true) :
    Follows (Kernel.intern e) k (canonicalize (offer P e)) l fun a k' b l' =>
      Paired P V k' l' ∧ k'.Twins a b := by
  obtain ⟨y, hy⟩ := Option.isSome_iff_exists.1 hP
  have hrun := hp.run_canonicalize_offer hP he
  rw [offer, hy, Option.getD_some] at hrun ⊢
  intro a k' ha
  obtain ⟨b, l', hb, hp', htable, hsurface, hsame⟩ := hp.reach hy a k' ha
  cases hb
  refine ⟨y, l, hrun, hp', by rw [htable, hsurface], ?_⟩
  have hadmits := ((yields_intern_offer (E := Never) e k).of_run ha).1
  have hgrounded := grounded_offer (W := [e]) hp hadmits (by simpa using hP) e
    (List.mem_singleton_self e)
  refine hgrounded.of_same (same_trans (same_symm ?_) hsame)
  obtain ⟨x, hx, -⟩ := exists_offer (W := [e]) hp hadmits (List.mem_singleton_self e) hP
  rw [offer, hx, Option.getD_some]
  exact same_of_pooled? hx

mutual

/-- **Bringing what was held into canonical form runs in lockstep with building the shape.** -/
theorem box {r : Raw} (hr : r.isHoldable = true) (hP : ∀ e ∈ r.entrants, (pooled? P e).isSome = true)
    {V : List Expr} {k l : Kernel} (hp : Paired P (r.entrants ++ V) k l) :
    Follows (Kernel.box r) k (canonicalize (r.held (offer P) t)) l fun a k' b l' =>
      Paired P V k' l' ∧ k'.Twins a b := by
  obtain ⟨n, rfl⟩ | ⟨f, args, rfl⟩ | ⟨v, hv, -, hentrants, hheld, hbox, -⟩ := number_of_isHoldable hr
  · unfold Raw.entrants at hP hp
    unfold Kernel.box Raw.held
    split
    next hn =>
      rw [if_pos hn] at hP hp
      rw [Kernel.makeSymbol, if_pos hn]
      exact hp.reachOffer (hP _ (List.mem_singleton_self _)) (.inr ⟨n, rfl, hn⟩)
    next hn =>
      rw [if_neg hn] at hp
      rw [canonicalize, if_neg Bool.false_ne_true]
      exact hp.makeSymbol (Bool.eq_false_iff.2 hn)
  · unfold Raw.isHoldable at hr
    unfold Raw.entrants at hP hp
    unfold Kernel.box Raw.held
    split
    next hf =>
      rw [if_pos hf] at hr hP hp
      exact boxError hr hP hp
    next hf =>
      rw [if_neg hf] at hr hP hp
      rw [canonicalize, if_neg Bool.false_ne_true]
      refine hp.build f (fun k l hp => ?_) fun k l hp => holdAll hr hP hp
      refine (boxAll hr hP hp).mono fun as k' bs l' hrun h => ⟨h.1, ?_, h.2⟩
      exact Grows.of_run ((growth k).boxAll (.refl k) fun _ _ => trivial) hrun
  · rw [hentrants] at hP hp
    rw [hheld, hbox]
    intro a k' hrun
    rw [boxNumber_of_number? hv] at hrun
    exact hp.reachOffer (hP _ (List.mem_singleton_self _)) (.inl ⟨v, rfl⟩) a k' hrun
termination_by sizeOf r

theorem boxAll {rs : List Raw} (hrs : Raw.allHoldable rs = true)
    (hP : ∀ e ∈ Raw.allEntrants rs, (pooled? P e).isSome = true) {V : List Expr} {k l : Kernel}
    (hp : Paired P (Raw.allEntrants rs ++ V) k l) :
    Follows (Kernel.boxAll rs) k (canonicalizeAll (Raw.heldAll (offer P) t rs)) l fun as k' bs l' =>
      Paired P V k' l' ∧ k'.AllTwins as bs := by
  unfold Kernel.boxAll Raw.heldAll
  split
  next => exact .pure ⟨hp, .nil k⟩
  next r rest =>
    rw [Raw.allHoldable, Bool.and_eq_true] at hrs
    rw [Raw.allEntrants, List.forall_mem_append] at hP
    rw [Raw.allEntrants, List.append_assoc] at hp
    rw [canonicalizeAll]
    refine (box hrs.1 hP.1 hp).bind fun a k₁ b l₁ _ hab => ?_
    refine (boxAll hrs.2 hP.2 hab.1).bind fun as k₂ bs l₂ hrun habs => ?_
    have hgrows := Grows.of_run ((growth k₁).boxAll (.refl k₁) fun _ _ => trivial) hrun
    exact .pure ⟨habs.1, .cons (hab.2.mono hgrows) habs.2⟩
termination_by sizeOf rs

end

end Paired

/-! ## What can be built can be held -/

/-- Building an application builds its operands, or holds them. -/
theorem yields_build_of_operands {p : Prop} {f : String} {canonical held : Action (List Expr)}
    (hcanonical : ∀ k, Yields Anyhow canonical k fun _ _ => p)
    (hheld : ∀ k, Yields Anyhow held k fun _ _ => p) (k : Kernel) :
    Yields Anyhow (build f canonical held) k fun _ _ => p := by
  have hthen : ∀ {x : Action (List Expr)} {g : List Expr → Action Expr} {k : Kernel},
      (Yields Anyhow x k fun _ _ => p) → Yields Anyhow (x >>= g) k fun _ _ => p :=
    fun hx => hx.bind fun _ _ hp => (anyhow _).mono fun _ _ _ => hp
  refine yields_build (fun _ => hthen (hcanonical k)) fun _ =>
    (anyhow _).mono fun _ k₁ _ _ x _ hx => ?_
  cases hx with
  | plain => exact hthen (hcanonical k₁)
  | held => exact hthen (hheld k₁)
  | function => exact hthen (hcanonical k₁)

/-- A shape of definite numbers can be held, or is an application, or is neither built nor held. -/
theorem isDefinite_cases {r : Raw} (hr : r.isDefinite = true) : r.isHoldable = true ∨
    (∃ f args, r = .list (.name f :: args) ∧ Raw.allDefinite args = true) ∨
      ∀ k P, Yields Anyhow (box r) k P ∧ Yields Anyhow (hold r) k P := by
  cases r with
  | name n => exact .inl rfl
  | list items =>
      rcases items with _ | ⟨head, args⟩
      · exact .inr (.inr fun _ _ => ⟨.throw trivial, .throw trivial⟩)
      · cases head with
        | name f => exact .inr (.inl ⟨f, args, rfl, hr⟩)
        | _ => exact .inr (.inr fun _ _ => ⟨.throw trivial, .throw trivial⟩)
  | bool _ | null | map _ _ | decimal _ => cases hr
  | _ => exact .inl hr

mutual

/-- **A shape that was built can be held**: every list that is read has a name for its head. -/
theorem isHoldable_of_box {r : Raw} (hr : r.isDefinite = true) (k : Kernel) :
    Yields Anyhow (box r) k fun _ _ => r.isHoldable = true := by
  obtain h | ⟨f, args, rfl, hargs⟩ | hthrow := isDefinite_cases hr
  · exact (anyhow _).mono fun _ _ _ => h
  · unfold box Raw.isHoldable
    split
    next => exact isHoldableError_of_boxError hargs k
    next =>
      exact yields_build_of_operands (allHoldable_of_boxAll hargs) (allHoldable_of_holdAll hargs) k
  · exact (hthrow k _).1
termination_by sizeOf r

theorem allHoldable_of_boxAll {rs : List Raw} (hrs : Raw.allDefinite rs = true) (k : Kernel) :
    Yields Anyhow (boxAll rs) k fun _ _ => Raw.allHoldable rs = true := by
  unfold boxAll
  split
  next => exact Yields.pure rfl
  next r rest =>
    rw [Raw.allDefinite, Bool.and_eq_true] at hrs
    refine (isHoldable_of_box hrs.1 k).bind fun _ k₁ hr => ?_
    refine (allHoldable_of_boxAll hrs.2 k₁).bind fun _ _ hrest => ?_
    exact Yields.pure (by rw [Raw.allHoldable, hr, hrest]; rfl)
termination_by sizeOf rs

theorem isHoldable_of_hold {r : Raw} (hr : r.isDefinite = true) (k : Kernel) :
    Yields Anyhow (hold r) k fun _ _ => r.isHoldable = true := by
  obtain h | ⟨f, args, rfl, hargs⟩ | hthrow := isDefinite_cases hr
  · exact (anyhow _).mono fun _ _ _ => h
  · unfold hold Raw.isHoldable
    split
    next => exact isHoldableError_of_boxError hargs k
    next => exact (allHoldable_of_holdAll hargs k).bind fun _ _ h => (anyhow _).mono fun _ _ _ => h
  · exact (hthrow k _).2
termination_by sizeOf r

theorem allHoldable_of_holdAll {rs : List Raw} (hrs : Raw.allDefinite rs = true) (k : Kernel) :
    Yields Anyhow (holdAll rs) k fun _ _ => Raw.allHoldable rs = true := by
  unfold holdAll
  split
  next => exact Yields.pure rfl
  next r rest =>
    rw [Raw.allDefinite, Bool.and_eq_true] at hrs
    refine (isHoldable_of_hold hrs.1 k).bind fun _ k₁ hr => ?_
    refine (allHoldable_of_holdAll hrs.2 k₁).bind fun _ _ hrest => ?_
    exact Yields.pure (by rw [Raw.allHoldable, hr, hrest]; rfl)
termination_by sizeOf rs

theorem isHoldableError_of_boxError {rs : List Raw} (hrs : Raw.allDefinite rs = true) (k : Kernel) :
    Yields Anyhow (boxError rs) k fun _ _ => Raw.isHoldableError rs = true := by
  unfold boxError
  split
  next => exact Yields.pure rfl
  next code rest =>
    rw [Raw.allDefinite, Bool.and_eq_true] at hrs
    exact (isHoldableOperand_of_errorOperand hrs.2 k).bind fun _ _ h => Yields.pure h
termination_by sizeOf rs

theorem isHoldableOperand_of_errorOperand {rs : List Raw} (hrs : Raw.allDefinite rs = true)
    (k : Kernel) : Yields Anyhow (errorOperand rs) k fun _ _ => Raw.isHoldableOperand rs = true := by
  unfold errorOperand
  split
  next => exact Yields.pure rfl
  next => exact Yields.pure rfl
  next r hname =>
    rw [Raw.allDefinite, Bool.and_eq_true] at hrs
    refine (isHoldable_of_hold hrs.1 k).bind fun _ _ h => Yields.pure ?_
    cases r with
    | name n => rfl
    | _ => exact h
  next r rest hname hone =>
    rw [Raw.allDefinite, Bool.and_eq_true] at hrs
    refine (isHoldableOperand_of_errorOperand hrs.2 k).mono fun _ _ h => ?_
    cases rest with
    | nil => exact (hone rfl).elim
    | cons r' rest => cases r <;> exact h
termination_by sizeOf rs

end

/-! ## The main result -/

/-- Builds a shape in two phases: as it stands, and then in canonical form. -/
def boxInPhases (r : Raw) : Action Expr := do canonicalize (← hold r)

/-- A kernel in which nothing is awaited but what a shape consists of. -/
theorem Admits.paired {V : List Expr} (h : k.Admits V l) (hplain : k.table.HoldsPlainly)
    (hV : ∀ e ∈ V, e.isFirm = true) : Paired l.pool V k l where
  table := h.table
  settings := h.settings
  plain := hplain
  firm := hV
  pools e := by rw [h.pool]
  kept _ _ hx := hx

/-- Two phases lead to what one does, where what holds its operands back has a type that does not depend
on them. -/
theorem run_boxInPhases (hplain : k.table.HoldsPlainly) {r : Raw} (hr : r.isDefinite = true) {e : Expr}
    (hbox : (box r).run.run k = (.ok e, k')) : ∃ e' l', (boxInPhases r).run.run k = (.ok e', l') ∧
      e.same e' = true ∧ l'.table = k'.table := by
  have hholdable := (isHoldable_of_box hr k).of_run hbox
  obtain ⟨h, l, hhold, hadmits, hh⟩ := (yields_hold (E := Never) (k := k) hholdable).exists_run
  obtain rfl := hh l.pool fun _ _ hx => hx
  have hoffered : ∀ e ∈ r.entrants, (pooled? l.pool e).isSome = true := fun e he => by
    rw [hadmits.pool, Option.isSome_or]
    exact Bool.or_eq_true_iff.2 (.inr (List.find?_isSome.2 ⟨e, he, same_refl e⟩))
  have hpaired : Paired l.pool (r.entrants ++ []) k l := by
    rw [List.append_nil]
    exact hadmits.paired hplain (isFirm_of_mem_entrants hholdable)
  obtain ⟨e', l', hcanonical, hpaired', htwins⟩ := hpaired.box hholdable hoffered e k' hbox
  refine ⟨e', l', ?_, ?_, hpaired'.table⟩
  · rw [boxInPhases, run_bind, hhold]
    exact hcanonical
  · rw [← same_outline, outline_of_surface htwins.surface]
    exact same_refl _

/-- Operators that splice, negate or list their operands do not hold them back. -/
theorem standard_opened : (["Sequence", "Negate", "List"].all fun f =>
    (standard.table.find? f).any fun d => !d.isInferred && !holdsBack (some d)) = true := by
  rw [standard_eq]
  decide +kernel

/-- No run changes which operands are spliced, negated or listed. -/
theorem holdsPlainly_after (run : List Call)
    (hfixed : ∀ f d, (standard.after run).table.find? f = some (.function d) →
      d.isLazy.truthy = true → d.signature.result.fixed?.isSome = true) :
    (standard.after run).table.HoldsPlainly where
  fixed {f} hf := by
    unfold DefinitionTable.holdsOperands holdsBack at hf
    split at hf
    next d hd =>
      obtain ⟨i, hi, hget⟩ := Option.bind_eq_some_iff.1 hd
      have hresult := hfixed f d hd hf
      cases hrule : d.signature.result with
      | fixed type =>
          refine ⟨i, d, type, ?_, hget, hrule⟩
          rw [DefinitionTable.functionNumber?, DefinitionTable.find?, hd]
          exact hi
      | _ =>
          rw [hrule] at hresult
          cases hresult
    next => cases hf
  opened {f} hf := by
    obtain ⟨d, hd, h⟩ := (Option.any_eq_true _ _).1 (List.all_eq_true.1 standard_opened f hf)
    rw [Bool.and_eq_true, Bool.not_eq_true', Bool.not_eq_true'] at h
    obtain ⟨d', hd', hpersists⟩ := (persists_after standard run).definition f d hd
    rw [DefinitionTable.holdsOperands, ← DefinitionTable.find?, hd', hpersists.fixed h.1, h.2]

/-- **Building in two phases is building at once.**  After any run, if the types of functions that hold
their operands back do not depend on these: a shape of names, lists and definite numbers that can be built
can also be held first and then brought into canonical form; the two results are the same, and so are the
definitions. -/
theorem boxInPhases_same (run : List Call)
    (hfixed : ∀ f d, (standard.after run).table.find? f = some (.function d) →
      d.isLazy.truthy = true → d.signature.result.fixed?.isSome = true)
    {r : Raw} (hr : r.isDefinite = true) {e : Expr} {k' : Kernel}
    (hbox : (box r).run.run (standard.after run) = (.ok e, k')) :
    ∃ e' l', (boxInPhases r).run.run (standard.after run) = (.ok e', l') ∧ e.same e' = true ∧
      l'.table = k'.table :=
  run_boxInPhases (holdsPlainly_after run hfixed) hr hbox

/-- A sum of a new name, an operand that is held back, a wildcard and an error. -/
def manifoldSum : Raw :=
  .list [.name "Add", .name "x", .list [.name "Hold", .list [.name "Negate", .double 0, .name "x"]],
    .name "_y", .list [.name "Negate", .double 0],
    .list [.name "Error", .name "lost", .list [.name "F", .int 2]]]

theorem standard_fixed : (standard.table.entries.all fun d =>
    !holdsBack (some d) || d.function?.any fun g => g.signature.result.fixed?.isSome) = true := by
  rw [standard_eq]
  decide +kernel

/-- The sum is built alike in a new kernel. -/
theorem boxInPhases_same_manifoldSum : ∃ e k' e' l', (box manifoldSum).run.run standard = (.ok e, k') ∧
    (boxInPhases manifoldSum).run.run standard = (.ok e', l') ∧ e.same e' = true ∧
      l'.table = k'.table := by
  obtain ⟨e, k', hbox, -⟩ := run_of_any (x := box manifoldSum) (k := standard) (p := fun _ => true)
    (by rw [standard_eq]; decide +kernel)
  have h := boxInPhases_same [] (fun f d hd hlazy => by
    rw [after_nil] at hd
    obtain ⟨i, -, hget⟩ := Option.bind_eq_some_iff.1 hd
    have hd := Array.all_eq_true_iff_forall_mem.1 standard_fixed _ (Array.mem_of_getElem? hget)
    simpa [holdsBack, hlazy, Definition.function?] using hd) (r := manifoldSum) (by decide +kernel) hbox
  obtain ⟨e', l', hrun, hsame, htable⟩ := h
  rw [after_nil] at hrun
  exact ⟨e, k', e', l', hbox, hrun, hsame, htable⟩

/-- A declaration of a function that holds its operand back and has the type of it. -/
def sameTyped : Call :=
  .declare "Same" (.record [("signature", .raw (.name "(any) -> any")), ("lazy", .ofBool true),
    ("type", .callback (.resultType .first))])

/-- A name is met after it was held. -/
def metLater : Raw :=
  .list [.name "And", .list [.name "Less", .name "x", .int 1], .list [.name "Same", .name "x"]]

/-- The opposite of a decimal, and that decimal with another number of digits, where it is shown. -/
def shownDecimal : Raw :=
  .list [.name "List", .list [.name "Negate", .decimal (.finite false 150000000000000000 (-17))],
    .list [.name "Sin", .int 1, .decimal (.finite true 1500000000000000000 (-18))]]

/-- A pair of doubles, and that number with another zero, where it is shown. -/
def shownZero : Raw :=
  .list [.name "List", .list [.name "Complex", .double 0, .double 1],
    .list [.name "Sin", .int 1, .complex (-0) 1]]

/-- Building a shape at once and in two phases gives different expressions. -/
def DiffersInPhases (k : Kernel) (r : Raw) : Prop := ∃ e k' e' l',
  (box r).run.run k = (.ok e, k') ∧ (boxInPhases r).run.run k = (.ok e', l') ∧ e.same e' = false

theorem differsInPhases_of_any {r : Raw} (h : (((box r).run.run k).1.toOption.any fun e =>
    ((boxInPhases r).run.run k).1.toOption.any fun e' => !e.same e') = true) : k.DiffersInPhases r := by
  obtain ⟨e, k', hbox, h⟩ := run_of_any h
  obtain ⟨e', l', hrun, h⟩ := run_of_any h
  exact ⟨e, k', e', l', hbox, hrun, by simpa using h⟩

/-- **Building in two phases is not always building at once**: what is held back has the definitions of an
earlier moment, and of numbers that are the same the pool keeps the one it came to first. -/
theorem boxInPhases_differs : (standard.after [sameTyped]).DiffersInPhases metLater ∧
    standard.DiffersInPhases shownDecimal ∧ standard.DiffersInPhases shownZero :=
  ⟨differsInPhases_of_any (by rw [standard_eq]; decide +kernel),
    differsInPhases_of_any (by rw [standard_eq]; decide +kernel),
    differsInPhases_of_any (by rw [standard_eq]; decide +kernel)⟩

end Kernel

end SymbolicAlgebra
