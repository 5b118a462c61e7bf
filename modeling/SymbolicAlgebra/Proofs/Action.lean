import Mathlib.Data.List.Forall2
import SymbolicAlgebra.Kernel.Construct

/-!
# Proofs/Action — what an action yields

`Yields E x k P` says how the action `x` may end when it is run in the kernel `k`: with a result and
a kernel that satisfy `P`, or with a fault in `E`.  With `Never` for `E` it says that `x` succeeds.
The rules below take an action apart along its binds; nothing after them looks into a run.
-/

namespace SymbolicAlgebra.Kernel

variable {α β : Type} {E : Fault → Prop} {k : Kernel}

/-- The action ends with a result and a kernel that satisfy `P`, or with a fault in `E`. -/
def Yields (E : Fault → Prop) (x : Action α) (k : Kernel) (P : α → Kernel → Prop) : Prop :=
  match x.run.run k with
  | (.ok a, k') => P a k'
  | (.error f, _) => E f

/-- No fault at all. -/
abbrev Never : Fault → Prop := fun _ => False

/-- Any way to end. -/
abbrev Anyhow : Fault → Prop := fun _ => True

/-- A run of two actions in a row, read off the run of the first. -/
theorem run_bind (x : Action α) (f : α → Action β) (k : Kernel) :
    (x >>= f).run.run k =
      match x.run.run k with
      | (.ok a, k') => (f a).run.run k'
      | (.error e, k') => (.error e, k') := by
  simp only [bind, ExceptT.bind, ExceptT.mk, ExceptT.run, StateT.run, StateT.bind]
  rcases x k with ⟨_ | _, k'⟩ <;> rfl

/-- A run of two actions in a row is a run of the first and a run of the second. -/
theorem exists_run_of_bind {x : Action α} {f : α → Action β} {k k' : Kernel} {b : β}
    (h : (x >>= f).run.run k = (.ok b, k')) :
    ∃ a k₁, x.run.run k = (.ok a, k₁) ∧ (f a).run.run k₁ = (.ok b, k') := by
  rw [run_bind] at h
  split at h
  next a k₁ hx => exact ⟨a, k₁, hx, h⟩
  next => cases h

namespace Yields

variable {x : Action α} {f : α → Action β} {P P' : α → Kernel → Prop} {Q : β → Kernel → Prop}

theorem pure {a : α} (h : P a k) : Yields E (Pure.pure a) k P := h

theorem throw {e : Fault} (h : E e) : Yields E (MonadExcept.throw e : Action α) k P := h

/-- **Actions are taken apart along their binds.** -/
theorem bind (hx : Yields E x k P) (hf : ∀ a k', P a k' → Yields E (f a) k' Q) :
    Yields E (x >>= f) k Q := by
  unfold Yields at hx ⊢
  rw [run_bind]
  rcases hr : x.run.run k with ⟨e | a, k'⟩
  · rw [hr] at hx
    exact hx
  · rw [hr] at hx
    exact hf a k' hx

theorem imp {E' : Fault → Prop} (hx : Yields E x k P) (hE : ∀ e, E e → E' e)
    (h : ∀ a k', P a k' → P' a k') : Yields E' x k P' := by
  unfold Yields at hx ⊢
  rcases hr : x.run.run k with ⟨e | a, k'⟩
  · rw [hr] at hx
    exact hE e hx
  · rw [hr] at hx
    exact h a k' hx

theorem mono (hx : Yields E x k P) (h : ∀ a k', P a k' → P' a k') : Yields E x k P' :=
  hx.imp (fun _ he => he) h

/-- How an action ends. -/
theorem ok_or_fault (hx : Yields E x k P) :
    (∃ a k', x.run.run k = (.ok a, k') ∧ P a k') ∨ ∃ f k', x.run.run k = (.error f, k') ∧ E f := by
  unfold Yields at hx
  rcases hr : x.run.run k with ⟨e | a, k'⟩
  · rw [hr] at hx
    exact .inr ⟨e, k', rfl, hx⟩
  · rw [hr] at hx
    exact .inl ⟨a, k', rfl, hx⟩

/-- An action that cannot fail gives a result. -/
theorem exists_run (hx : Yields Never x k P) : ∃ a k', x.run.run k = (.ok a, k') ∧ P a k' :=
  hx.ok_or_fault.resolve_right fun ⟨_, _, _, h⟩ => h

/-- What a run gave satisfies what the action yields. -/
theorem of_run {a : α} {k' : Kernel} (hx : Yields E x k P) (hr : x.run.run k = (.ok a, k')) :
    P a k' := by
  unfold Yields at hx
  rw [hr] at hx
  exact hx

theorem of_fault {f : Fault} {k' : Kernel} (hx : Yields E x k P)
    (hr : x.run.run k = (.error f, k')) : E f := by
  unfold Yields at hx
  rw [hr] at hx
  exact hx

/-- What is known of an action in two ways. -/
theorem both {E' : Fault → Prop} (hx : Yields E x k P) (hx' : Yields E' x k P') :
    Yields (fun f => E f ∧ E' f) x k fun a k' => P a k' ∧ P' a k' := by
  obtain ⟨a, k', hr, ha⟩ | ⟨f, k', hr, hf⟩ := hx.ok_or_fault
  · have ha' := hx'.of_run hr
    unfold Yields
    rw [hr]
    exact ⟨ha, ha'⟩
  · have hf' := hx'.of_fault hr
    unfold Yields
    rw [hr]
    exact ⟨hf, hf'⟩

theorem and {E' : Fault → Prop} (hx : Yields E x k P) (hx' : Yields E' x k P') :
    Yields E x k fun a k' => P a k' ∧ P' a k' :=
  (hx.both hx').imp (fun _ h => h.1) fun _ _ h => h

/-- An action on each element of a list, one after the other: `I` is kept by each of them. -/
theorem mapM {l : List α} {f : α → Action β} {I : Kernel → Prop} {Q : α → β → Prop}
    (hI : I k) (h : ∀ a ∈ l, ∀ k, I k → Yields E (f a) k fun b k' => I k' ∧ Q a b) :
    Yields E (l.mapM f) k fun bs k' => I k' ∧ List.Forall₂ Q l bs := by
  induction l generalizing k with
  | nil => exact ⟨hI, .nil⟩
  | cons a rest ih =>
      rw [List.mapM_cons]
      refine (h a (by simp) k hI).bind fun b k₁ hb => ?_
      refine (ih hb.1 fun x hx => h x (by simp [hx])).bind fun bs k₂ hbs => ?_
      exact Yields.pure ⟨hbs.1, .cons hb.2 hbs.2⟩

end Yields

/-- An action on each element of a list that keeps a property of the kernel. -/
theorem yields_forM {l : List α} {f : α → Action Unit} {P : Kernel → Prop} (hk : P k)
    (h : ∀ a k, P k → Yields E (f a) k fun _ k' => P k') :
    Yields E (l.forM f) k fun _ k' => P k' := by
  induction l generalizing k with
  | nil => exact hk
  | cons a rest ih => exact (h a k hk).bind fun _ k' hk' => ih hk'

theorem anyhow (x : Action α) : Yields Anyhow x k fun _ _ => True := by
  unfold Yields
  rcases x.run.run k with ⟨_ | _, _⟩ <;> exact trivial

/-- What a run gave, it gave. -/
theorem yields_run (x : Action α) : Yields Anyhow x k fun a k' => x.run.run k = (.ok a, k') := by
  obtain ⟨a, k', hr, -⟩ | ⟨f, k', hr, -⟩ := (anyhow (k := k) x).ok_or_fault
  · unfold Yields
    rw [hr]
  · unfold Yields
    rw [hr]
    exact trivial

theorem yields_of_imp {x : Action α} {p : Prop} {P : α → Kernel → Prop}
    (h : p → Yields Anyhow x k P) : Yields Anyhow x k fun a k' => p → P a k' := by
  by_cases hp : p
  · exact (h hp).mono fun _ _ ha _ => ha
  · exact (anyhow x).mono fun _ _ _ h => absurd h hp

/-! ## The primitive actions -/

section Primitive

variable {P : α → Kernel → Prop}

theorem yields_number {x : Except NumberFault α} (hE : ∀ f, x = .error f → E (.number f))
    (h : ∀ a, x = .ok a → P a k) : Yields E (number x) k P := by
  cases x with
  | error f => exact hE f rfl
  | ok a => exact h a rfl

theorem yields_number_ok {x : Except NumberFault α} {a : α} (hx : x = .ok a) (h : P a k) :
    Yields E (number x) k P := by
  subst hx
  exact h

theorem yields_ofExcept {x : Except Fault α} (hE : ∀ f, x = .error f → E f)
    (h : ∀ a, x = .ok a → P a k) : Yields E (ofExcept x) k P := by
  cases x with
  | error f => exact hE f rfl
  | ok a => exact h a rfl

theorem yields_getTable {P : DefinitionTable → Kernel → Prop} (h : P k.table k) :
    Yields E getTable k P := h

theorem yields_getPrecision {P : Nat → Kernel → Prop} (h : P k.settings.precision k) :
    Yields E getPrecision k P := h

end Primitive

/-- The kernel after an expression entered its pool. -/
def pooling (k : Kernel) (e : Expr) : Kernel := { k with pool := e :: k.pool }

@[simp] theorem pooling_table (k : Kernel) (e : Expr) : (k.pooling e).table = k.table := rfl

@[simp] theorem pooling_settings (k : Kernel) (e : Expr) : (k.pooling e).settings = k.settings := rfl

@[simp] theorem pooling_pool (k : Kernel) (e : Expr) : (k.pooling e).pool = e :: k.pool := rfl

/-- **Interning gives a pooled expression of equal structure, or the expression itself.** -/
theorem yields_intern {e : Expr} {P : Expr → Kernel → Prop}
    (hold : ∀ x ∈ k.pool, e.same x = true → P x k) (hnew : P e (k.pooling e)) :
    Yields E (intern e) k P := by
  have hget : Yields E (get : Action Kernel) k fun k₀ k' => k₀ = k ∧ k' = k := ⟨rfl, rfl⟩
  refine hget.bind fun k₀ k' h => ?_
  rw [h.1, h.2]
  cases hp : pooled? k.pool e with
  | none =>
      simp only
      exact hnew
  | some x => exact hold x (List.mem_of_find?_eq_some hp) (List.find?_some hp)

/-- An application is interned with the definition that its operator has now. -/
theorem yields_apply {f : String} {ops : List Expr} {P : Expr → Kernel → Prop}
    (h : Yields E (intern (.application f ops (k.table.functionNumber? f) true)) k P) :
    Yields E (apply f ops) k P :=
  Yields.bind (P := fun t k' => t = k.table ∧ k' = k) ⟨rfl, rfl⟩ (by rintro _ _ ⟨rfl, rfl⟩; exact h)

/-! ## What the pool offers -/

/-- The pool offers for expressions with a property only such with that property. -/
def Offers (p : Expr → Bool) (k : Kernel) : Prop :=
  ∀ x ∈ k.pool, ∀ e, p e = true → e.same x = true → p x = true

theorem offers_of_isEmpty {p : Expr → Bool} (h : k.pool.isEmpty = true) : k.Offers p := by
  rw [List.isEmpty_iff] at h
  rw [Offers, h]
  simp

/-! ## Canonical expressions stay as they are -/

theorem canonicalize_of_isCanonical {e : Expr} (h : e.isCanonical = true) :
    canonicalize e = pure e := by
  cases e with
  | symbol n d c =>
      obtain rfl : c = true := h
      rfl
  | application f ops d c =>
      obtain rfl : c = true := h
      rfl
  | _ => rfl

theorem canonicalizeAll_of_isCanonical : ∀ {es : List Expr}, (∀ e ∈ es, e.isCanonical = true) →
    canonicalizeAll es = pure es
  | [], _ => rfl
  | e :: rest, h => by
      rw [List.forall_mem_cons] at h
      rw [canonicalizeAll, canonicalize_of_isCanonical h.1, canonicalizeAll_of_isCanonical h.2]
      rfl

end SymbolicAlgebra.Kernel
