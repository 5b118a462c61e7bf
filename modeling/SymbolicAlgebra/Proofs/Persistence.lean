import SymbolicAlgebra.Proofs.Calls

/-!
# Proofs/Persistence — definitions last

A table grows, and what it says of a name is only made more precise: `DefinitionTable.Persists t t'`
says that every name of `t` is still there in `t'`, with the kind and the type it had if it had one,
and with the very same definition if that was not inferred.  `definitions_persist` says this of any two
moments of a run.
-/

namespace SymbolicAlgebra

namespace Definition

/-- A definition, and what it may be later: the same if it was not inferred, and of the same kind and
type once that is settled. -/
structure Persists (d d' : Definition) : Prop where
  fixed : d.isInferred = false → d' = d
  settled : d.isSettled = true → d'.kindName = d.kindName ∧ d'.typing = d.typing

namespace Persists

theorem refl (d : Definition) : d.Persists d := ⟨fun _ => rfl, fun _ => ⟨rfl, rfl⟩⟩

theorem trans {d₁ d₂ d₃ : Definition} (h : d₁.Persists d₂) (h' : d₂.Persists d₃) :
    d₁.Persists d₃ where
  fixed hd := by
    have h₂ := h.fixed hd
    subst h₂
    exact h'.fixed hd
  settled hd := by
    obtain ⟨hkind, htyping⟩ := h.settled hd
    obtain ⟨hkind', htyping'⟩ := h'.settled (by rw [isSettled, htyping]; exact hd)
    exact ⟨hkind'.trans hkind, htyping'.trans htyping⟩

end Persists

/-- Only what was inferred and is open is narrowed. -/
theorem persists_narrow {d : Definition} {type : TypeName} (h : d.accepts type = true) :
    d.Persists (d.narrow type) where
  fixed hd := by
    rw [((accepts_iff d type).1 h).1] at hd
    cases hd
  settled hd := by
    rw [((accepts_iff d type).1 h).2.1] at hd
    cases hd

/-- Only what was met and has no type is declared again. -/
theorem persists_of_isUnresolved {d : Definition} (hinferred : d.isInferred = true)
    (h : d.isUnresolved = true) (d' : Definition) : d.Persists d' where
  fixed hd := by
    rw [hinferred] at hd
    cases hd
  settled hd := by
    simp only [isSettled, decide_eq_true_eq] at hd
    refine absurd ?_ hd.1
    cases d with
    | symbol d => exact congrArg _ (of_decide_eq_true h)
    | function d => exact of_decide_eq_true h

end Definition

/-- A table, and what it may be later. -/
structure DefinitionTable.Persists (t t' : DefinitionTable) : Prop where
  contains : ∀ name, t.contains name = true → t'.contains name = true
  definition : ∀ name d, t.find? name = some d → ∃ d', t'.find? name = some d' ∧ d.Persists d'

namespace DefinitionTable

variable {t t' : DefinitionTable}

namespace Persists

theorem refl (t : DefinitionTable) : t.Persists t :=
  ⟨fun _ h => h, fun _ d h => ⟨d, h, .refl d⟩⟩

theorem trans {t₁ t₂ t₃ : DefinitionTable} (h : t₁.Persists t₂) (h' : t₂.Persists t₃) :
    t₁.Persists t₃ where
  contains name hname := h'.contains name (h.contains name hname)
  definition name d hd := by
    obtain ⟨d₂, hd₂, h₂⟩ := h.definition name d hd
    obtain ⟨d₃, hd₃, h₃⟩ := h'.definition name d₂ hd₂
    exact ⟨d₃, hd₃, h₂.trans h₃⟩

/-- A name is declared, or met. -/
theorem register {name : String} (d : Definition)
    (h : ∀ old, t.find? name = some old → old.Persists d) : t.Persists (t.register name d) where
  contains n hn := by rw [contains_register, hn, Bool.or_true]
  definition n d' hd' := by
    refine ⟨_, find?_register name d hd', ?_⟩
    split
    next hn => exact h d' (hn ▸ hd')
    next => exact .refl d'

/-- A registration is narrowed. -/
theorem narrow {i : Nat} {d d' : Definition} (hd : t.get? i = some d) (h : d.Persists d') :
    t.Persists (t.modify i fun _ => d') where
  contains _ hn := hn
  definition n x hx := by
    obtain ⟨j, hj, hx⟩ := Option.bind_eq_some_iff.1 hx
    rw [find?, number?_modify, hj, Option.bind_some, get?_narrow hd]
    split
    next hij =>
      subst hij
      rw [hd] at hx
      cases hx
      exact ⟨d', rfl, h⟩
    next => exact ⟨x, hx, .refl x⟩

end Persists

end DefinitionTable

namespace Kernel

open DefinitionTable

/-- **No call takes back what a table says.** -/
theorem permanent_persists (t : DefinitionTable) : Permanent fun k => t.Persists k.table where
  noted _ hk := hk
  pooled _ hk := hk
  cached _ _ _ hk := hk
  configured _ hk := hk
  forgotten _ _ hk := hk
  narrowed hk hd haccepts := hk.trans (.narrow hd (Definition.persists_narrow haccepts))
  met hk hname _ := hk.trans <| .register _ fun old hold => by
    rw [find?_of_contains hname] at hold
    cases hold
  declared d hk hold := hk.trans <| .register d fun old h =>
    Definition.persists_of_isUnresolved (hold old h).1 (hold old h).2 d

theorem persists_after (k : Kernel) (run : List Call) : k.table.Persists (k.after run).table :=
  (permanent_persists k.table).after (.refl _) run

/-! ## The main result -/

end Kernel

end SymbolicAlgebra
