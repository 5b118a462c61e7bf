import SymbolicAlgebra.Proofs.Action

/-!
# Proofs/Upholding — what an action upholds, also when it fails

`Yields` says nothing of the kernel after a fault.  Where faults are caught that kernel is the one to
go on with: `Upholds J x k P` says that the kernel after the action `x` satisfies `J` however the
action ends, and that a result satisfies `P`.
-/

namespace SymbolicAlgebra.Kernel

variable {α β : Type} {J : Kernel → Prop} {k : Kernel}

/-- The action leads to a kernel that satisfies `J`, and a result satisfies `P`. -/
def Upholds (J : Kernel → Prop) (x : Action α) (k : Kernel) (P : α → Kernel → Prop) : Prop :=
  match x.run.run k with
  | (.ok a, k') => J k' ∧ P a k'
  | (.error _, k') => J k'

/-- The action upholds `J`, whatever it gives. -/
abbrev Maintains (J : Kernel → Prop) (x : Action α) : Prop :=
  ∀ k, J k → Upholds J x k fun _ _ => True

/-- A fault that is caught is handled in the kernel it left. -/
theorem run_tryCatch (x : Action α) (h : Fault → Action α) (k : Kernel) :
    (MonadExcept.tryCatch x h : Action α).run.run k =
      match x.run.run k with
      | (.ok a, k') => (.ok a, k')
      | (.error e, k') => (h e).run.run k' := by
  simp only [MonadExcept.tryCatch, tryCatchThe, MonadExceptOf.tryCatch, ExceptT.tryCatch,
    ExceptT.run, ExceptT.mk]
  rw [StateT.run_bind]
  simp only [StateT.run]
  rcases x k with ⟨_ | _, k'⟩ <;> rfl

namespace Upholds

variable {x : Action α} {f : α → Action β} {P P' : α → Kernel → Prop} {Q : β → Kernel → Prop}

theorem pure {a : α} (hk : J k) (h : P a k) : Upholds J (Pure.pure a) k P := ⟨hk, h⟩

theorem throw {e : Fault} (hk : J k) : Upholds J (MonadExcept.throw e : Action α) k P := hk

theorem bind (hx : Upholds J x k P) (hf : ∀ a k', J k' → P a k' → Upholds J (f a) k' Q) :
    Upholds J (x >>= f) k Q := by
  unfold Upholds at hx ⊢
  rw [run_bind]
  rcases hr : x.run.run k with ⟨e | a, k'⟩
  · rw [hr] at hx
    exact hx
  · rw [hr] at hx
    exact hf a k' hx.1 hx.2

/-- **A fault that is caught leaves a kernel to go on with.** -/
theorem tryCatch {h : Fault → Action α} (hx : Upholds J x k P)
    (hh : ∀ e k', J k' → Upholds J (h e) k' P) : Upholds J (MonadExcept.tryCatch x h) k P := by
  unfold Upholds at hx ⊢
  rw [run_tryCatch]
  rcases hr : x.run.run k with ⟨e | a, k'⟩
  · rw [hr] at hx
    exact hh e k' hx
  · rw [hr] at hx
    exact hx

theorem mono (hx : Upholds J x k P) (h : ∀ a k', J k' → P a k' → P' a k') : Upholds J x k P' := by
  unfold Upholds at hx ⊢
  rcases hr : x.run.run k with ⟨e | a, k'⟩
  · rw [hr] at hx
    exact hx
  · rw [hr] at hx
    exact ⟨hx.1, h a k' hx.1 hx.2⟩

theorem forget (hx : Upholds J x k P) : Upholds J x k fun _ _ => True :=
  hx.mono fun _ _ _ _ => trivial

/-- The kernel to go on with, however the action ends. -/
theorem kernel (hx : Upholds J x k P) : J (x.run.run k).2 := by
  unfold Upholds at hx
  rcases hr : x.run.run k with ⟨e | a, k'⟩
  · rw [hr] at hx
    exact hx
  · rw [hr] at hx
    exact hx.1

/-- What is upheld may imply something else. -/
theorem weaken {J' : Kernel → Prop} (hx : Upholds J x k P) (h : ∀ k', J k' → J' k') :
    Upholds J' x k fun a k' => J k' ∧ P a k' := by
  unfold Upholds at hx ⊢
  rcases hr : x.run.run k with ⟨e | a, k'⟩
  · rw [hr] at hx
    exact h k' hx
  · rw [hr] at hx
    exact ⟨h k' hx.1, hx⟩

/-- What a result is known to satisfy, whatever is upheld. -/
theorem of_yields (hx : Upholds J x k P) (hy : Yields Anyhow x k P') :
    Upholds J x k fun a k' => P a k' ∧ P' a k' := by
  unfold Upholds Yields at *
  rcases hr : x.run.run k with ⟨e | a, k'⟩
  · rw [hr] at hx
    exact hx
  · rw [hr] at hx hy
    exact ⟨hx.1, hx.2, hy⟩

theorem yields (hx : Upholds J x k P) : Yields Anyhow x k fun a k' => J k' ∧ P a k' := by
  unfold Upholds at hx
  unfold Yields
  rcases hr : x.run.run k with ⟨e | a, k'⟩
  · exact trivial
  · rw [hr] at hx
    exact hx

end Upholds

/-- **A handler discharges the faults it catches**, in the kernels they leave. -/
theorem Yields.tryCatch {x : Action α} {h : Fault → Action α} {E E' : Fault → Prop}
    {P Q : α → Kernel → Prop} (hx : Yields E x k P) (hJ : Upholds J x k Q)
    (hh : ∀ e k', E e → J k' → Yields E' (h e) k' P) :
    Yields E' (MonadExcept.tryCatch x h) k P := by
  unfold Upholds at hJ
  unfold Yields at hx ⊢
  rw [run_tryCatch]
  rcases hr : x.run.run k with ⟨e | a, k'⟩
  · rw [hr] at hx hJ
    exact hh e k' hx hJ
  · rw [hr] at hx
    exact hx

namespace Maintains

variable {x y : Action α} {f : α → Action β}

theorem pure (a : α) : Maintains J (Pure.pure a : Action α) := fun _ hk => .pure hk trivial

theorem throw (e : Fault) : Maintains J (MonadExcept.throw e : Action α) := fun _ hk => .throw hk

theorem bind (hx : Maintains J x) (hf : ∀ a, Maintains J (f a)) : Maintains J (x >>= f) :=
  fun k hk => (hx k hk).bind fun a k' hk' _ => hf a k' hk'

theorem ite {c : Prop} [Decidable c] (hx : Maintains J x) (hy : Maintains J y) :
    Maintains J (if c then x else y) := by
  split
  · exact hx
  · exact hy

theorem forM {l : List α} {f : α → Action Unit} (h : ∀ a ∈ l, Maintains J (f a)) :
    Maintains J (l.forM f) := by
  induction l with
  | nil => exact pure ()
  | cons a rest ih =>
      rw [List.forall_mem_cons] at h
      exact h.1.bind fun _ => ih h.2

theorem getTable : Maintains J Kernel.getTable := fun _ hk => ⟨hk, trivial⟩

theorem getPrecision : Maintains J Kernel.getPrecision := fun _ hk => ⟨hk, trivial⟩

theorem isStrict : Maintains J Kernel.isStrict := fun _ hk => ⟨hk, trivial⟩

theorem number (x : Except NumberFault α) : Maintains J (Kernel.number x) := by
  cases x with
  | ok a => exact pure a
  | error f => exact throw _

theorem ofExcept (x : Except Fault α) : Maintains J (Kernel.ofExcept x) := by
  cases x with
  | ok a => exact pure a
  | error f => exact throw _

theorem require (x : Option α) : Maintains J (Kernel.require x) := by
  cases x with
  | none => exact throw _
  | some a => exact pure a

/-- A fault that is caught leaves a kernel to go on with. -/
theorem tryCatch {x : Action α} {h : Fault → Action α} (hx : Maintains J x)
    (hh : ∀ f, Maintains J (h f)) : Maintains J (MonadExcept.tryCatch x h) := fun k hk =>
  (hx k hk).tryCatch fun f k' hk' => hh f k' hk'

theorem mapM {l : List α} {f : α → Action β} (h : ∀ a, Maintains J (f a)) :
    Maintains J (l.mapM f) := by
  induction l with
  | nil => exact pure _
  | cons a rest ih =>
      rw [List.mapM_cons]
      exact (h a).bind fun _ => ih.bind fun _ => pure _

theorem some (hx : Maintains J x) : Maintains J (do return Option.some (← x)) :=
  hx.bind fun _ => .pure _

theorem discard (hx : Maintains J x) : Maintains J (do let _ ← x) := hx.bind fun _ => .pure _

/-- An action that looks at the kernel first. -/
theorem ofGet {f : Kernel → Action α} (hf : ∀ k₀, Maintains J (f k₀)) :
    Maintains J ((get : Action Kernel) >>= f) :=
  bind (fun _ hk => ⟨hk, trivial⟩) hf

theorem two (ops : List Expr) : Maintains J (Kernel.two ops) := by
  unfold Kernel.two
  split
  · exact .pure _
  · exact .throw _

end Maintains

end SymbolicAlgebra.Kernel
