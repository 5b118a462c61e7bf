import SymbolicAlgebra.Proofs.Checking
import SymbolicAlgebra.Proofs.TypeOrder

/-!
# Proofs/Rechecking — accepted operands, checked once more

A check that accepts operands commits the types it inferred, so a second check of the same operands meets
other types.  Every type is sharper then (`DefinitionTable.Infers.typeOf_sharpens`), so an operand that was
accepted for its type is accepted again; an operand that was taken on trust, since its type was unknown or
only inferred, may turn out to be of another type.  A definition takes the first type that is inferred for
it, so the second check accepts the operands just if that type goes with every parameter that the
definition is met at (`Kernel.checkSignature_twice`).
-/

namespace SymbolicAlgebra

namespace DefinitionTable

variable {t t' : DefinitionTable} {pairs : List (Expr × TypeName)} {e : Expr} {type : TypeName} {i : Nat}

/-- The type that is inferred for what an expression stands for. -/
def newType? (t : DefinitionTable) (pairs : List (Expr × TypeName)) (e : Expr) : Option TypeName :=
  e.definition?.bind fun i =>
    if (t.get? i).any (·.describes e) then t.inferredType? pairs i else none

theorem newType?_of_describes {d : Definition} (hi : e.definition? = some i) (hd : t.get? i = some d)
    (hdescribes : d.describes e = true) : t.newType? pairs e = t.inferredType? pairs i := by
  rw [newType?, hi, Option.bind_some, hd, Option.any_some, hdescribes, if_pos rfl]

/-- A type is inferred for a registration that is open to it. -/
theorem inferredType?_eq_some (h : t.inferredType? pairs i = some type) :
    ∃ d, t.get? i = some d ∧ d.accepts type = true := by
  obtain ⟨p, hp, rfl⟩ := Option.map_eq_some_iff.1 h
  have hnarrows : t.narrows p.1 p.2 i = true :=
    List.find?_some (p := fun q : Expr × TypeName => t.narrows q.1 q.2 i) hp
  obtain ⟨-, d, hd, -, haccepts⟩ := narrows_iff.1 hnarrows
  exact ⟨d, hd, haccepts⟩

namespace Infers

/-- A registration after types were inferred: the same, or narrowed. -/
theorem get?_cases (h : t.Infers pairs t') (i : Nat) :
    t.inferredType? pairs i = none ∧ t'.get? i = t.get? i ∨
      ∃ d type, t.inferredType? pairs i = some type ∧ t.get? i = some d ∧ d.accepts type = true ∧
        t'.get? i = some (d.narrow type) := by
  have hentry := h.entry i
  cases htype : t.inferredType? pairs i with
  | none =>
      rw [htype] at hentry
      exact .inl ⟨rfl, hentry⟩
  | some type =>
      obtain ⟨d, hd, haccepts⟩ := inferredType?_eq_some htype
      rw [htype, hd] at hentry
      exact .inr ⟨d, type, rfl, hd, haccepts, hentry⟩

/-- The same for what an expression was built with. -/
theorem slot_cases (h : t.Infers pairs t') (o : Option Nat) :
    o.bind t'.get? = o.bind t.get? ∨
      ∃ i d type, o = some i ∧ t.inferredType? pairs i = some type ∧ t.get? i = some d ∧
        d.accepts type = true ∧ t'.get? i = some (d.narrow type) := by
  cases o with
  | none => exact .inl rfl
  | some i =>
      rcases h.get?_cases i with ⟨-, hsame⟩ | ⟨d, type, hd⟩
      · exact .inl hsame
      · exact .inr ⟨i, d, type, rfl, hd⟩

/-- What is open has the type unknown or any, and every type sharpens these. -/
theorem exists_typing {d : Definition} (haccepts : d.accepts type = true) :
    ∃ old, d.typing = .fixed old ∧ ∀ new : TypeName, new.Sharpens old := by
  obtain ⟨-, hopen, -⟩ := (Definition.accepts_iff d type).1 haccepts
  rcases Definition.isSettled_eq_false.1 hopen with h | h
  · exact ⟨_, h, fun _ => .inl rfl⟩
  · exact ⟨_, h, TypeName.sharpens_any⟩

mutual

/-- **Inference makes types sharper.** -/
theorem typeOf_sharpens (h : t.Infers pairs t') : ∀ e : Expr, (t'.typeOf e).Sharpens (t.typeOf e)
  | .number v => by
      rw [typeOf, typeOf]
      exact .refl _
  | .symbol n o c => by
      rw [typeOf, typeOf]
      rcases h.slot_cases o with hsame | ⟨i, d, type, rfl, -, hd, haccepts, hnarrowed⟩
      · rw [hsame]
        exact .refl _
      · rw [Option.bind_some, Option.bind_some, hd, hnarrowed]
        obtain ⟨old, hold, hsharp⟩ := exists_typing haccepts
        cases d with
        | symbol s =>
            cases hold
            exact hsharp _
        | function f => exact .refl _
  | .application f ops o c => by
      rw [typeOf, typeOf]
      have hops := typesOf_sharpens h ops
      rcases h.slot_cases o with hsame | ⟨i, d, type, rfl, -, hd, haccepts, hnarrowed⟩
      · rw [hsame]
        cases o.bind t.get? with
        | none => exact .refl _
        | some d =>
            cases d with
            | symbol s => exact .refl _
            | function g => exact ResultRule.apply_sharpens g.signature.result hops
      · rw [Option.bind_some, Option.bind_some, hd, hnarrowed]
        obtain ⟨old, hold, hsharp⟩ := exists_typing haccepts
        cases d with
        | symbol s => exact .refl _
        | function g =>
            replace hold : g.signature.result = .fixed old := hold
            simp only [hold]
            exact hsharp _
  | .error c ds o => by
      rw [typeOf, typeOf]
      exact .refl _

theorem typesOf_sharpens (h : t.Infers pairs t') :
    ∀ es : List Expr, List.Forall₂ TypeName.Sharpens (typesOf t' es) (typesOf t es)
  | [] => .nil
  | e :: rest => .cons (typeOf_sharpens h e) (typesOf_sharpens h rest)

end

theorem definitionOf_cases (h : t.Infers pairs t') (e : Expr) :
    t'.definitionOf e = t.definitionOf e ∨
      ∃ i d type, e.definition? = some i ∧ t.inferredType? pairs i = some type ∧ t.get? i = some d ∧
        d.accepts type = true ∧ t'.get? i = some (d.narrow type) := h.slot_cases e.definition?

/-- What is inferred stays inferred. -/
theorem isInferred_eq (h : t.Infers pairs t') (e : Expr) :
    Kernel.isInferred t' e = Kernel.isInferred t e := by
  unfold Kernel.isInferred
  rcases h.definitionOf_cases e with hsame | ⟨i, d, type, hi, -, hd, -, hnarrowed⟩
  · rw [hsame]
  · rw [definitionOf, definitionOf, hi, Option.bind_some, Option.bind_some, hd, hnarrowed]
    cases d <;> rfl

/-- **An expression whose definition takes a type has that type**, and it is inferred. -/
theorem typeOf_of_newType (h : t.Infers pairs t') (hnew : t.newType? pairs e = some type) :
    t'.typeOf e = type ∧ Kernel.isInferred t e = true ∧ type ≠ .unknown := by
  obtain ⟨i, hi, hnew⟩ := Option.bind_eq_some_iff.1 hnew
  split at hnew
  next hdescribes =>
    obtain ⟨d, hd, haccepts⟩ := inferredType?_eq_some hnew
    have hentry := h.entry i
    rw [hnew, hd] at hentry
    rw [hd, Option.any_some] at hdescribes
    obtain ⟨hinferred, -, hopen⟩ := (Definition.accepts_iff d type).1 haccepts
    refine ⟨?_, ?_, ?_⟩
    · cases d with
      | symbol s =>
          cases e with
          | symbol n o c =>
              obtain rfl : o = some i := hi
              rw [typeOf, Option.bind_some, hentry]
              rfl
          | _ => cases hdescribes
      | function g =>
          cases e with
          | application f ops o c =>
              obtain rfl : o = some i := hi
              rw [typeOf, Option.bind_some, hentry]
              rfl
          | _ => cases hdescribes
    · rw [Kernel.isInferred, definitionOf, hi, Option.bind_some, hd]
      exact hinferred
    · rintro rfl
      cases hopen
  next => cases hnew

end Infers

end DefinitionTable

/-! ## Operands taken on trust -/

namespace Kernel

variable {t t' : DefinitionTable} {pairs : List (Expr × TypeName)} {e : Expr} {param : TypeName}
  {threadable : Bool}

/-- Whether an operand is taken on trust: its type is not known, or only inferred. -/
def isTrusted (t : DefinitionTable) (e : Expr) : Bool := t.typeOf e = .unknown || isInferred t e

/-- **An operand that was accepted for its type is accepted again.** -/
theorem acceptsParameter_of_known (h : t.Infers pairs t') (htrusted : isTrusted t e = false)
    (haccepts : acceptsParameter t threadable e param = true) :
    acceptsParameter t' threadable e param = true := by
  rw [isTrusted, Bool.or_eq_false_iff, decide_eq_false_iff_not] at htrusted
  obtain ⟨hknown, hinferred⟩ := htrusted
  have hsharp := (h.typeOf_sharpens e).resolve_left hknown
  simp only [acceptsParameter, hinferred, hknown, decide_false, Bool.false_or, Bool.false_and,
    Bool.or_false, Bool.and_eq_true, Bool.or_eq_true] at haccepts
  obtain ⟨hvalid, hthreaded | hbelow⟩ := haccepts
  · simp [acceptsParameter, hvalid, hthreaded]
  · simp [acceptsParameter, hvalid, TypeName.subtype_trans hsharp hbelow]

/-- Whether the type of an expression changes only with its own definition: the result of its operator, if
that has a definition, has a fixed type, or is computed from operands, but known and declared. -/
def isIndependent (t : DefinitionTable) (e : Expr) : Bool :=
  match e, t.definitionOf e with
  | .application _ _ _ _, some (.function g) => g.signature.result.fixed?.isSome || !isTrusted t e
  | _, _ => true

/-- An independent expression that was taken on trust, and whose definition takes no type, keeps its type. -/
theorem typeOf_of_isIndependent (h : t.Infers pairs t') (hindependent : isIndependent t e = true)
    (htrusted : isTrusted t e = true) (hnew : t.newType? pairs e = none) : t'.typeOf e = t.typeOf e := by
  have hnone : ∀ {i d type}, e.definition? = some i → t.get? i = some d → d.describes e = true →
      t.inferredType? pairs i ≠ some type := fun hi hd hdescribes htype => by
    rw [DefinitionTable.newType?_of_describes hi hd hdescribes, htype] at hnew
    cases hnew
  cases e with
  | number v => rw [DefinitionTable.typeOf, DefinitionTable.typeOf]
  | error c ds x => rw [DefinitionTable.typeOf, DefinitionTable.typeOf]
  | symbol n o c =>
      rw [DefinitionTable.typeOf, DefinitionTable.typeOf]
      rcases h.slot_cases o with hsame | ⟨i, d, type, rfl, htype, hd, -, hnarrowed⟩
      · rw [hsame]
      · rw [Option.bind_some, Option.bind_some, hd, hnarrowed]
        cases d with
        | symbol s => exact absurd htype (hnone rfl hd rfl)
        | function g => rfl
  | application f ops o c =>
      rcases h.slot_cases o with hsame | ⟨i, d, type, rfl, htype, hd, -, hnarrowed⟩
      · rw [DefinitionTable.typeOf, DefinitionTable.typeOf, hsame]
        cases ho : o.bind t.get? with
        | none => rfl
        | some d =>
            cases d with
            | symbol s => rfl
            | function g =>
                -- a fixed type does not depend on the operands
                have hdefinition : t.definitionOf (.application f ops o c) = some (.function g) := ho
                simp only [isIndependent, hdefinition, htrusted, Bool.not_true, Bool.or_false] at hindependent
                cases hresult : g.signature.result with
                | fixed u =>
                    simp only [hresult]
                    rfl
                | _ =>
                    rw [hresult] at hindependent
                    cases hindependent
      · rw [DefinitionTable.typeOf, DefinitionTable.typeOf, Option.bind_some, Option.bind_some, hd, hnarrowed]
        cases d with
        | symbol s => rfl
        | function g => exact absurd htype (hnone rfl hd rfl)

/-- **What becomes of an accepted operand that is independent**: it is accepted again if its definition takes no
type, or one that goes with the parameter. -/
theorem acceptsParameter_iff_of_isIndependent (h : t.Infers pairs t') (hindependent : isIndependent t e = true)
    (hthreaded : (threadable && isCollection e) = false)
    (haccepts : acceptsParameter t threadable e param = true) :
    acceptsParameter t' threadable e param = true ↔
      ∀ type, t.newType? pairs e = some type → type.isCompatible param = true := by
  cases hnew : t.newType? pairs e with
  | none =>
      refine ⟨fun _ _ hsome => (by cases hsome), fun _ => ?_⟩
      cases htrusted : isTrusted t e with
      | false => exact acceptsParameter_of_known h htrusted haccepts
      | true =>
          rw [acceptsParameter, typeOf_of_isIndependent h hindependent htrusted hnew, h.isInferred_eq]
          exact haccepts
  | some type =>
      obtain ⟨htype, hinferred, hknown⟩ := h.typeOf_of_newType hnew
      have hvalid : e.isValid = true := (Bool.and_eq_true_iff.1 haccepts).1
      have hcompatible : type.isSubtype param = true → type.isCompatible param = true := fun h => by
        rw [TypeName.isCompatible, h, Bool.true_or]
      simp only [acceptsParameter, hvalid, htype, h.isInferred_eq, hinferred, hthreaded, hknown,
        decide_false, Bool.false_or, Bool.true_and, Bool.or_eq_true, Option.some.injEq, forall_eq']
      tauto

/-! ## Two checks -/

variable {k k' : Kernel} {s : Signature} {ops : List Expr}

/-- What a check that accepts operands says of each of them, and of their number. -/
theorem accepted_iff {t : DefinitionTable} : Expr.allValid (checkedParameters t s false threadable ops) = true ↔
    (∀ p ∈ ops.zip (parametersFor s ops.length), acceptsParameter t threadable p.1 p.2 = true) ∧
      s.required.length ≤ ops.length ∧ ops.length ≤ (parametersFor s ops.length).length := by
  rw [allValid_checkedParameters, Bool.and_eq_true, Bool.and_eq_true, List.all_eq_true, and_assoc,
    decide_eq_true_eq, decide_eq_true_eq]

/-- **Accepted operands, checked once more.**  If a strict kernel has accepted operands against a signature,
the second check returns.  It accepts them just if it accepts those that were taken on trust, with the types
that were inferred; and if all operands are independent, just if the type that was inferred for the definition
of an operand goes with each parameter that the definition is met at. -/
theorem checkSignature_twice (hk : k.settings.strict = true)
    (h : (checkSignature ops s false threadable).run.run k = (.ok none, k')) :
    ∃ o k'', (checkSignature ops s false threadable).run.run k' = (.ok o, k'') ∧
      (o = none ↔ ∀ p ∈ inferencePairs s threadable ops, isTrusted k.table p.1 = true →
        acceptsParameter k'.table threadable p.1 p.2 = true) ∧
      ((∀ e ∈ ops, isIndependent k.table e = true) →
        (o = none ↔ ∀ p ∈ inferencePairs s threadable ops, ∀ type,
          k.table.newType? (inferencePairs s threadable ops) p.1 = some type →
            type.isCompatible p.2 = true)) := by
  obtain ⟨hverdict, hinfers, hstrict⟩ :
      Expr.allValid (checkedParameters k.table s false threadable ops) = true ∧
        k.table.Infers (inferencePairs s threadable ops) k'.table ∧ k'.settings.strict = true := by
    cases (checksOperands (E := Never) hk ops s threadable).of_run h with
    | accepted hverdict hinfers => exact ⟨hverdict, hinfers, hk⟩
  obtain ⟨haccepted, hleast, hmost⟩ := accepted_iff.1 hverdict
  obtain ⟨o, k'', hrun, h⟩ := (checksOperands (E := Never) hstrict ops s threadable).exists_run
  have hagain : o.isNone = Expr.allValid (checkedParameters k'.table s false threadable ops) := by
    cases h with
    | accepted h => exact h.symm
    | refused h => exact h.symm
  -- operands that are threaded over are accepted for being lists
  have hpairs : o = none ↔ ∀ p ∈ inferencePairs s threadable ops,
      acceptsParameter k'.table threadable p.1 p.2 = true := by
    rw [← Option.isNone_iff_eq_none, hagain, accepted_iff]
    refine ⟨fun hall p hp => hall.1 p (List.mem_of_mem_filter hp), fun hall => ⟨fun p hp => ?_, hleast, hmost⟩⟩
    cases hthreaded : threadable && isCollection p.1 with
    | false => exact hall p (List.mem_filter.2 ⟨hp, by rw [hthreaded]; rfl⟩)
    | true =>
        have hvalid : p.1.isValid = true := (Bool.and_eq_true_iff.1 (haccepted p hp)).1
        simp [acceptsParameter, hvalid, hthreaded]
  refine ⟨o, k'', hrun, hpairs.trans ?_, fun hindependent => hpairs.trans ?_⟩
  · refine forall₂_congr fun p hp => ?_
    cases htrusted : isTrusted k.table p.1 with
    | false =>
        have hknown := acceptsParameter_of_known hinfers htrusted
          (haccepted p (List.mem_of_mem_filter hp))
        exact ⟨fun _ hfalse => (by cases hfalse), fun _ => hknown⟩
    | true => exact ⟨fun haccepts _ => haccepts, fun haccepts => haccepts rfl⟩
  · refine forall₂_congr fun p hp => ?_
    obtain ⟨hzip, hthreaded⟩ := List.mem_filter.1 hp
    rw [Bool.not_eq_true'] at hthreaded
    exact acceptsParameter_iff_of_isIndependent hinfers (hindependent p.1 (List.of_mem_zip hzip).1) hthreaded
      (haccepted p hzip)

/-- A signature with two parameters. -/
def binarySignature (first second : TypeName) : Signature := ⟨[first, second], [], none, .fixed .any⟩

theorem isStrict_acquainted : acquainted.settings.strict = true := by
  rw [acquainted, standard_eq]
  decide +kernel

/-- `q` at an integer and a real parameter: it is inferred to be an integer, which goes with both. -/
theorem checkSignature_twice_acquaintance : acquainted.settings.strict = true ∧ ∃ k' k'',
    (checkSignature [acquaintance, acquaintance] (binarySignature .integer .real) false false).run.run
      acquainted = (.ok none, k') ∧
    (checkSignature [acquaintance, acquaintance] (binarySignature .integer .real) false false).run.run
      k' = (.ok none, k'') := by
  obtain ⟨o, k', hfirst, ho⟩ := run_of_any_after (k := acquainted)
    (x := checkSignature [acquaintance, acquaintance] (binarySignature .integer .real) false false)
    (p := fun o _ => o.isNone)
    (by simp only [acquaintance, acquainted, standard_eq]; decide +kernel)
  obtain rfl := Option.isNone_iff_eq_none.1 ho
  obtain ⟨o, k'', hsecond, -, hiff⟩ := checkSignature_twice isStrict_acquainted hfirst
  have hfits : ([acquaintance, acquaintance].all (isIndependent acquainted.table) &&
      (inferencePairs (binarySignature .integer .real) false [acquaintance, acquaintance]).all
        fun p => (acquainted.table.newType? (inferencePairs (binarySignature .integer .real) false
          [acquaintance, acquaintance]) p.1).all (·.isCompatible p.2)) = true := by
    simp only [acquaintance, acquainted, standard_eq]
    decide +kernel
  rw [Bool.and_eq_true, List.all_eq_true, List.all_eq_true] at hfits
  have hagain := (hiff hfits.1).2 fun p hp type htype => by
    have hp := hfits.2 p hp
    rw [htype] at hp
    exact hp
  subst hagain
  exact ⟨isStrict_acquainted, k', k'', hfirst, hsecond⟩

/-- **Accepted operands can be refused the next time**: `q` at a boolean and a numeric parameter. -/
theorem checkSignature_twice_refuses : acquainted.settings.strict = true ∧ ∃ k' rs k'',
    (checkSignature [acquaintance, acquaintance] (binarySignature .boolean .number) false false).run.run
      acquainted = (.ok none, k') ∧
    (checkSignature [acquaintance, acquaintance] (binarySignature .boolean .number) false false).run.run
      k' = (.ok (some rs), k'') ∧ Expr.allValid rs = false := by
  obtain ⟨⟨o, o'⟩, k'', hrun, ho⟩ := run_of_any_after (k := acquainted)
    (x := do
      let o ← checkSignature [acquaintance, acquaintance] (binarySignature .boolean .number) false false
      let o' ← checkSignature [acquaintance, acquaintance] (binarySignature .boolean .number) false false
      return (o, o'))
    (p := fun q _ => q.1.isNone && q.2.any fun rs => !Expr.allValid rs)
    (by simp only [acquaintance, acquainted, standard_eq]; decide +kernel)
  obtain ⟨o, k', hfirst, hrun⟩ := exists_run_of_bind hrun
  obtain ⟨o', k'', hsecond, hrun⟩ := exists_run_of_bind hrun
  cases hrun
  rw [Bool.and_eq_true, Option.isNone_iff_eq_none] at ho
  obtain ⟨rfl, ho'⟩ := ho
  obtain ⟨rs, rfl, hrs⟩ := (Option.any_eq_true ..).1 ho'
  exact ⟨isStrict_acquainted, k', rs, k'', hfirst, hsecond, by simpa using hrs⟩

end Kernel

end SymbolicAlgebra
