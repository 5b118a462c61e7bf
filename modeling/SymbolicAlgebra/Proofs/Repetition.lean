import SymbolicAlgebra.Proofs.Upholding

/-!
# Proofs/Repetition — steps that are repeated until they give a result

A repetition that ends is followed step by step: `outcome?_next` and `outcome?_last` go forwards,
along steps that are known, and `yields_repeatUntil` backwards, from a result to what every step
keeps.  Nothing is said of a repetition without end, other than that it gives no result and leaves the
kernel as it was.
-/

namespace SymbolicAlgebra.Kernel

variable {σ α : Type} {step : σ → Action (σ ⊕ α)} {s s' : σ} {a : α} {k k' : Kernel}

/-- The repetition goes on after a step that gave no result. -/
theorem outcome?_next (h : (step s).run.run k = (.ok (.inl s'), k')) :
    outcome? step s k = outcome? step s' k' := by
  rw [outcome?, h]
  rfl

/-- The repetition ends with the first result. -/
theorem outcome?_last (h : (step s).run.run k = (.ok (.inr a), k')) :
    outcome? step s k = some (.ok a, k') := by
  rw [outcome?, h]
  rfl

theorem run_repeatUntil {o : Except Fault α × Kernel} (h : outcome? step s k = some o) :
    (repeatUntil step s).run.run k = o := by
  change (outcome? step s k).getD _ = o
  rw [h]
  rfl

/-- **What every step keeps, a repetition keeps**: `I` up to the last step, `P` of the result.  A
repetition without end gives no result. -/
theorem yields_repeatUntil {E : Fault → Prop} {I : σ → Kernel → Prop} {P : α → Kernel → Prop}
    (hE : E .unbounded) (hstep : ∀ s k, I s k →
      Yields E (step s) k fun o k' => o.elim (I · k') (P · k')) (hs : I s k) :
    Yields E (repeatUntil step s) k P := by
  -- The invariant is carried along the approximations of the repetition.
  have hend : ∀ s k o, outcome? step s k = some o → I s k →
      Yields E (ExceptT.mk fun _ => o) k P := by
    refine outcome?.partial_correctness step _ fun next ih s k o ho hs => ?_
    have hyields := hstep s k hs
    unfold Yields at hyields
    rcases hr : (step s).run.run k with ⟨f | s' | a, k'⟩
    · rw [hr] at ho hyields
      cases ho
      exact hyields
    · rw [hr] at ho hyields
      exact ih s' k' o ho hyields
    · rw [hr] at ho hyields
      cases ho
      exact hyields
  cases ho : outcome? step s k with
  | none =>
      have hrun : (repeatUntil step s).run.run k = (.error .unbounded, k) := by
        change (outcome? step s k).getD _ = _
        rw [ho]
        rfl
      unfold Yields
      rw [hrun]
      exact hE
  | some o =>
      have hyields := hend s k o ho hs
      unfold Yields at hyields ⊢
      rwa [run_repeatUntil ho]

/-- **What every step upholds, a repetition upholds**, also one that breaks off. -/
theorem maintains_repeatUntil {J : Kernel → Prop} (hstep : ∀ s, Maintains J (step s)) (s : σ) :
    Maintains J (repeatUntil step s) := by
  have hend : ∀ s k o, outcome? step s k = some o → J k → J o.2 := by
    refine outcome?.partial_correctness step _ fun next ih s k o ho hk => ?_
    have hupholds := hstep s k hk
    unfold Upholds at hupholds
    rcases hr : (step s).run.run k with ⟨f | s' | a, k'⟩
    · rw [hr] at ho hupholds
      cases ho
      exact hupholds
    · rw [hr] at ho hupholds
      exact ih s' k' o ho hupholds.1
    · rw [hr] at ho hupholds
      cases ho
      exact hupholds.1
  intro k hk
  have hrun : (repeatUntil step s).run.run k = (outcome? step s k).getD (.error .unbounded, k) := rfl
  unfold Upholds
  rw [hrun]
  cases ho : outcome? step s k with
  | none => exact hk
  | some o =>
      have hkernel := hend s k o ho hk
      rcases o with ⟨_ | _, _⟩
      · exact hkernel
      · exact ⟨hkernel, trivial⟩

end SymbolicAlgebra.Kernel
