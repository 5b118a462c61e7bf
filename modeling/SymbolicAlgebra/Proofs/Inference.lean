import SymbolicAlgebra.Proofs.Development
import SymbolicAlgebra.Proofs.Standard

/-!
# Proofs/Inference — types are inferred for all operands or for none

A check commits what it inferred only if it accepted every operand.  `DefinitionTable.Infers` says what
a table becomes when types are inferred for expressions one after the other: a registration that is
inferred and open takes the first type that is inferred for an expression standing for it, and every
other one stays.  `inference_allOrNothing` says that a check does this with the accepted operands, or
nothing at all.

A symbol stands for the value of its name, so the name of a function is no operand whose type could be
inferred (`inference_passesOver`).
-/

namespace SymbolicAlgebra

namespace DefinitionTable

variable {t t' : DefinitionTable} {e : Expr} {type : TypeName} {i : Nat}
  {pairs : List (Expr × TypeName)}

/-- Whether inferring a type for an expression narrows a registration. -/
def narrows (t : DefinitionTable) (e : Expr) (type : TypeName) (i : Nat) : Bool :=
  (t.narrowable? e type).any (·.1 == i)

theorem narrows_iff : t.narrows e type i = true ↔ e.definition? = some i ∧
    ∃ d, t.get? i = some d ∧ d.describes e = true ∧ d.accepts type = true := by
  rw [narrows, Option.any_eq_true]
  constructor
  · rintro ⟨⟨j, d⟩, h, hj⟩
    obtain rfl : j = i := by simpa using hj
    obtain ⟨hi, hd, hdescribes, haccepts⟩ := narrowable?_eq_some.1 h
    exact ⟨hi, d, hd, hdescribes, haccepts⟩
  · rintro ⟨hi, d, hd, hdescribes, haccepts⟩
    exact ⟨(i, d), narrowable?_eq_some.2 ⟨hi, hd, hdescribes, haccepts⟩, by simp⟩

/-- The type that a registration takes when types are inferred for expressions, one after the
other. -/
def inferredType? (t : DefinitionTable) (pairs : List (Expr × TypeName)) (i : Nat) :
    Option TypeName :=
  (pairs.find? fun p => t.narrows p.1 p.2 i).map (·.2)

theorem inferredType?_cons (e : Expr) (type : TypeName) (pairs : List (Expr × TypeName)) (i : Nat) :
    t.inferredType? ((e, type) :: pairs) i =
      if t.narrows e type i then some type else t.inferredType? pairs i := by
  rw [inferredType?, List.find?_cons]
  split
  next h => rw [if_pos h, Option.map_some]
  next h => rw [if_neg (by simp [h]), inferredType?]

/-- Whether a registration is narrowed is up to that registration. -/
theorem inferredType?_congr (h : t.get? i = t'.get? i) (pairs : List (Expr × TypeName)) :
    t.inferredType? pairs i = t'.inferredType? pairs i := by
  have hnarrows : ∀ e type, t.narrows e type i = t'.narrows e type i := fun e type => by
    rw [Bool.eq_iff_iff, narrows_iff, narrows_iff, h]
  simp only [inferredType?, hnarrows]

/-- What is settled takes no other type. -/
theorem inferredType?_of_isSettled {d : Definition} (h : t.get? i = some d)
    (hd : d.isSettled = true) (pairs : List (Expr × TypeName)) :
    t.inferredType? pairs i = none := by
  rw [inferredType?, Option.map_eq_none_iff, List.find?_eq_none]
  intro p _ hp
  obtain ⟨-, x, hx, -, haccepts⟩ := narrows_iff.1 hp
  rw [h] at hx
  cases hx
  rw [((Definition.accepts_iff d p.2).1 haccepts).2.1] at hd
  cases hd

/-- A table, and what it becomes when types are inferred for expressions, one after the other. -/
structure Infers (t : DefinitionTable) (pairs : List (Expr × TypeName)) (t' : DefinitionTable) :
    Prop where
  names : t'.names = t.names
  entry : ∀ i, t'.get? i =
    match t.inferredType? pairs i with
    | some type => (t.get? i).map (Definition.narrow type)
    | none => t.get? i

namespace Infers

theorem nil (t : DefinitionTable) : t.Infers [] t := ⟨rfl, fun _ => rfl⟩

/-- A type that narrows nothing. -/
theorem cons_none (h : t.narrowable? e type = none) (ht : t.Infers pairs t') :
    t.Infers ((e, type) :: pairs) t' where
  names := ht.names
  entry i := by
    rw [inferredType?_cons, narrows, h]
    exact ht.entry i

/-- A type that narrows a registration: the ones after it leave that as it is. -/
theorem cons_some {d : Definition} (h : t.narrowable? e type = some (i, d))
    (ht : (t.modify i fun _ => d.narrow type).Infers pairs t') :
    t.Infers ((e, type) :: pairs) t' where
  names := ht.names
  entry j := by
    obtain ⟨-, hd, -, haccepts⟩ := narrowable?_eq_some.1 h
    have hnarrows : t.narrows e type j = (i == j) := by
      rw [narrows, h]
      rfl
    rw [ht.entry j, inferredType?_cons, hnarrows]
    by_cases hij : i = j
    · subst hij
      have hentry : (t.modify i fun _ => d.narrow type).get? i = some (d.narrow type) := by
        rw [get?_narrow hd, if_pos rfl]
      rw [inferredType?_of_isSettled hentry (Definition.isSettled_narrow haccepts), hentry, hd,
        if_pos (beq_self_eq_true i)]
      rfl
    · have hentry : (t.modify i fun _ => d.narrow type).get? j = t.get? j := by
        rw [get?_narrow hd, if_neg hij]
      rw [inferredType?_congr hentry, hentry, if_neg (by simpa using hij)]

end Infers

end DefinitionTable

namespace Kernel

variable {E : Fault → Prop} {k : Kernel}

/-! ## Inferring for a list -/

/-- Infers types for expressions, one after the other. -/
def inferEach : List (Expr × TypeName) → Action Unit
  | [] => return
  | (e, type) :: rest => do
      let _ ← infer e type
      inferEach rest

theorem inferEach_append (ps qs : List (Expr × TypeName)) :
    inferEach (ps ++ qs) = inferEach ps >>= fun _ => inferEach qs := by
  induction ps with
  | nil => rfl
  | cons p rest ih =>
      rw [List.cons_append, inferEach, ih, inferEach, bind_assoc]

/-- **Types are inferred one after the other.** -/
theorem yields_inferEach (pairs : List (Expr × TypeName)) (k : Kernel) :
    Yields Never (inferEach pairs) k fun _ k' =>
      ∃ table journal, k' = { k with table, journal } ∧ k.table.Infers pairs table := by
  induction pairs generalizing k with
  | nil => exact ⟨k.table, k.journal, rfl, .nil k.table⟩
  | cons p rest ih =>
      refine (yields_infer_cases p.1 p.2 k).bind ?_
      rintro _ _ (⟨-, hnone, rfl⟩ | ⟨-, i, d, journal, hsome, rfl⟩)
      · exact (ih _).mono fun _ _ ⟨table, journal, hk', ht⟩ => ⟨table, journal, hk', ht.cons_none hnone⟩
      · exact (ih _).mono fun _ _ ⟨table, journal, hk', ht⟩ => ⟨table, journal, hk', ht.cons_some hsome⟩

/-- The expressions that types are inferred for: the elements of a list instead of the list. -/
def reached (ops : List Expr) : List Expr :=
  ops.flatMap fun e => if isCollection e then e.operands else [e]

theorem reached_cons (e : Expr) (rest : List Expr) :
    reached (e :: rest) = (if isCollection e then e.operands else [e]) ++ reached rest :=
  List.flatMap_cons

theorem inferAll_eq (ops : List Expr) (type : TypeName) :
    inferAll ops type false = inferEach ((reached ops).map fun e => (e, type)) := by
  have helements : ∀ es : List Expr,
      (es.forM fun x => do let _ ← infer x type) = inferEach (es.map fun e => (e, type)) := by
    intro es
    induction es with
    | nil => rfl
    | cons e rest ih =>
        rw [List.map_cons, inferEach, ← ih]
        exact bind_assoc _ _ _
  induction ops with
  | nil => rfl
  | cons e rest ih =>
      have hcons : inferAll (e :: rest) type false =
          (if isCollection e then e.operands.forM fun x => do let _ ← infer x type
            else do let _ ← infer e type) >>= fun _ => inferAll rest type false := rfl
      rw [hcons, ih, reached_cons, List.map_append, inferEach_append]
      split
      · rw [helements]
      · rfl

theorem inferParameters_eq (threadable : Bool) (ops : List Expr) (params : List TypeName) :
    inferParameters threadable ops params =
      inferEach ((ops.zip params).filter fun p => !(threadable && isCollection p.1)) := by
  rw [inferParameters]
  induction ops.zip params with
  | nil => rfl
  | cons p rest ih =>
      obtain ⟨e, type⟩ := p
      have hcons : ∀ f : Expr × TypeName → Action Unit,
          ((e, type) :: rest).forM f = f (e, type) >>= fun _ => rest.forM f := fun _ => rfl
      rw [hcons, ih, List.filter_cons]
      simp only
      cases threadable && isCollection e with
      | true => rfl
      | false => exact bind_assoc _ _ _

/-! ## Verdicts

What a check puts in the place of an operand is the operand if it was accepted, and otherwise an error
or an operand with an error in it. -/

/-- The verdict on an operand, read off what is put in its place. -/
structure Judges (e : Expr) (r : Expr × Bool) : Prop where
  verdict : r.2 = r.1.isValid
  accepted : r.2 = true → r.1 = e

theorem judges_checkNumber (t : DefinitionTable) (e : Expr) : Judges e (checkNumber t e) := by
  unfold checkNumber
  split
  next h => exact ⟨by simpa using h, fun h => by cases h⟩
  next h =>
    split
    next => exact ⟨by simpa using h, fun _ => rfl⟩
    next => exact ⟨rfl, fun h => by cases h⟩

theorem judges_checkParameter (t : DefinitionTable) (threadable : Bool) (e : Expr)
    (param : TypeName) : Judges e (checkParameter t false threadable e param) := by
  unfold checkParameter
  simp only [Bool.false_eq_true, ↓reduceIte]
  split
  next h => exact ⟨by simpa using h, fun h => by cases h⟩
  next h =>
    have hvalid : Judges e (e, true) := ⟨by simpa using h, fun _ => rfl⟩
    repeat' split
    all_goals first
      | exact hvalid
      | exact ⟨rfl, fun h => by cases h⟩

/-- All operands are accepted if and only if there is no error in what is put in their place. -/
theorem judges_all {α : Type} {l : List α} {f : α → Expr × Bool} {g : α → Expr}
    (h : ∀ a, Judges (g a) (f a)) :
    (l.map f).all (·.2) = Expr.allValid ((l.map f).map (·.1)) ∧
      ((l.map f).all (·.2) = true → (l.map f).map (·.1) = l.map g) := by
  induction l with
  | nil => exact ⟨rfl, fun _ => rfl⟩
  | cons a rest ih =>
      simp only [List.map_cons, List.all_cons, Expr.allValid, Bool.and_eq_true, List.cons.injEq]
      refine ⟨by rw [(h a).verdict, ih.1], fun hall => ⟨(h a).accepted hall.1, ih.2 hall.2⟩⟩

/-- Errors that are put in the place of operands are errors. -/
theorem allValid_replicate_missing (n : Nat) :
    Expr.allValid (List.replicate n missing) = decide (n = 0) := by
  cases n <;> rfl

theorem allValid_map_unexpected (es : List Expr) :
    Expr.allValid (es.map unexpected) = es.isEmpty := by
  cases es <;> rfl

theorem allValid_drop_fit (count : Nat) (ops : List Expr) :
    Expr.allValid ((fit count ops).drop (min count ops.length)) = (ops.length == count) := by
  rw [drop_fit, Expr.allValid_append, allValid_replicate_missing, allValid_map_unexpected,
    Bool.eq_iff_iff]
  simp only [Bool.and_eq_true, decide_eq_true_eq, List.isEmpty_iff, List.drop_eq_nil_iff, beq_iff_eq]
  omega

/-- Numbers are accepted, and right in number, if and only if there is no error in what is put in their
place. -/
theorem checkedNumbers_verdict (t : DefinitionTable) (count : Nat) (ops : List Expr) :
    (((ops.take count).map (checkNumber t)).all (·.2) && ops.length == count) =
      Expr.allValid (checkedNumbers t count ops) := by
  rw [checkedNumbers, Expr.allValid_append, allValid_drop_fit,
    (judges_all (g := id) (judges_checkNumber t)).1]

theorem checkedNumbers_of_allValid {t : DefinitionTable} {count : Nat} {ops : List Expr}
    (h : Expr.allValid (checkedNumbers t count ops) = true) : checkedNumbers t count ops = ops := by
  rw [← checkedNumbers_verdict, Bool.and_eq_true, beq_iff_eq] at h
  obtain ⟨hall, rfl⟩ := h
  rw [checkedNumbers, (judges_all (g := id) (judges_checkNumber t)).2 hall, drop_fit]
  simp

/-- Operands are accepted against a signature, and right in number, if and only if there is no error in
what is put in their place. -/
theorem checkedParameters_verdict (t : DefinitionTable) (s : Signature) (threadable : Bool)
    (ops : List Expr) :
    (((ops.zip (parametersFor s ops.length)).map fun q =>
        checkParameter t false threadable q.1 q.2).all (·.2) &&
      (List.replicate (s.required.length - ops.length) missing).isEmpty &&
        ((ops.drop (parametersFor s ops.length).length).map unexpected).isEmpty) =
      Expr.allValid (checkedParameters t s false threadable ops) := by
  rw [checkedParameters, Expr.allValid_append, Expr.allValid_append, allValid_replicate_missing,
    allValid_map_unexpected,
    (judges_all (g := Prod.fst) fun q => judges_checkParameter t threadable q.1 q.2).1,
    List.isEmpty_map, List.isEmpty_replicate]

theorem checkedParameters_of_allValid {t : DefinitionTable} {s : Signature} {threadable : Bool}
    {ops : List Expr} (h : Expr.allValid (checkedParameters t s false threadable ops) = true) :
    checkedParameters t s false threadable ops = ops := by
  rw [← checkedParameters_verdict, Bool.and_eq_true, Bool.and_eq_true] at h
  obtain ⟨⟨hall, habsent⟩, hextra⟩ := h
  rw [List.isEmpty_iff] at habsent hextra
  have hle : ops.length ≤ (parametersFor s ops.length).length := by
    simpa [List.drop_eq_nil_iff] using hextra
  rw [checkedParameters, habsent, hextra, List.append_nil, List.append_nil,
    (judges_all (g := Prod.fst) fun q => judges_checkParameter t threadable q.1 q.2).2 hall,
    List.map_fst_zip hle]

/-! ## Checks of operand lists -/

/-- What a check of numbers comes to in a strict kernel. -/
inductive ChecksNumbers (k : Kernel) (count : Nat) (ops : List Expr) : List Expr → Kernel → Prop
  | accepted {table : DefinitionTable} {journal : List LogRecord}
      (h : Expr.allValid (checkedNumbers k.table count ops) = true)
      (hinfers : k.table.Infers ((reached ops).map fun e => (e, groupType k.table ops)) table) :
      ChecksNumbers k count ops ops { k with table, journal }
  | refused (h : Expr.allValid (checkedNumbers k.table count ops) = false) :
      ChecksNumbers k count ops (checkedNumbers k.table count ops) k

/-- **A check of numbers in a strict kernel** accepts all of them or changes nothing. -/
theorem checksNumbers (hk : k.settings.strict = true) (ops : List Expr) (count : Option Nat)
    (associative : Option String) : Yields E (checkNumeric ops count associative) k
      (ChecksNumbers k (count.getD (Expr.flatten associative ops).length)
        (Expr.flatten associative ops)) := by
  unfold checkNumeric
  simp only
  generalize Expr.flatten associative ops = es
  refine Yields.bind (P := fun t k' => t = k.table ∧ k' = k) ⟨rfl, rfl⟩ ?_
  rintro _ k ⟨rfl, rfl⟩
  refine Yields.bind (P := fun strict k' => strict = true ∧ k' = k) ⟨hk, rfl⟩ ?_
  rintro _ k ⟨rfl, rfl⟩
  generalize count.getD es.length = n
  rw [if_neg (by decide), checkedNumbers_verdict, ← checkedNumbers]
  cases h : Expr.allValid (checkedNumbers k.table n es) with
  | false => exact Yields.pure (.refused h)
  | true =>
      rw [if_pos rfl, checkedNumbers_of_allValid h, inferAll_eq]
      refine ((yields_inferEach _ _).imp (fun _ hf => hf.elim) fun _ _ hk' => hk').bind fun _ k' hk' => ?_
      obtain ⟨table, journal, rfl, hinfers⟩ := hk'
      exact Yields.pure (.accepted h hinfers)

/-- The operands that types are inferred for, with the types of their parameters. -/
def inferencePairs (s : Signature) (threadable : Bool) (ops : List Expr) : List (Expr × TypeName) :=
  (ops.zip (parametersFor s ops.length)).filter fun p => !(threadable && isCollection p.1)

/-- What a check against a signature comes to in a strict kernel. -/
inductive ChecksOperands (k : Kernel) (s : Signature) (threadable : Bool) (ops : List Expr) :
    Option (List Expr) → Kernel → Prop
  | accepted {table : DefinitionTable} {journal : List LogRecord}
      (h : Expr.allValid (checkedParameters k.table s false threadable ops) = true)
      (hinfers : k.table.Infers (inferencePairs s threadable ops) table) :
      ChecksOperands k s threadable ops none { k with table, journal }
  | refused (h : Expr.allValid (checkedParameters k.table s false threadable ops) = false) :
      ChecksOperands k s threadable ops (some (checkedParameters k.table s false threadable ops)) k

/-- **A check against a signature in a strict kernel** accepts all operands or changes nothing. -/
theorem checksOperands (hk : k.settings.strict = true) (ops : List Expr) (s : Signature)
    (threadable : Bool) :
    Yields E (checkSignature ops s false threadable) k (ChecksOperands k s threadable ops) := by
  unfold checkSignature
  refine Yields.bind (P := fun strict k' => strict = true ∧ k' = k) ⟨hk, rfl⟩ ?_
  rintro _ k ⟨rfl, rfl⟩
  rw [if_neg (by decide)]
  refine Yields.bind (P := fun t k' => t = k.table ∧ k' = k) ⟨rfl, rfl⟩ ?_
  rintro _ k ⟨rfl, rfl⟩
  simp only
  rw [checkedParameters_verdict]
  cases h : Expr.allValid (checkedParameters k.table s false threadable ops) with
  | false => exact Yields.pure (.refused h)
  | true =>
      rw [if_pos rfl, if_pos (by decide), inferParameters_eq]
      refine ((yields_inferEach _ _).imp (fun _ hf => hf.elim) fun _ _ hk' => hk').bind fun _ k' hk' => ?_
      obtain ⟨table, journal, rfl, hinfers⟩ := hk'
      exact Yields.pure (.accepted h hinfers)

/-! ## The main result -/

/-- **Inference is all or nothing.**  In a strict kernel both checks of operands return.  If there is
an error in what they put in the place of the operands, nothing has changed at all.  If not, types were
inferred: for the operands of a numeric function, or the elements of a list instead of the list, the
type of the group; for operands against a signature, other than lists that are threaded over, the
types of their parameters. -/
theorem inference_allOrNothing {k : Kernel} (hk : k.settings.strict = true) (ops : List Expr) :
    (∀ count associative, ∃ rs k', (checkNumeric ops count associative).run.run k = (.ok rs, k') ∧
      (Expr.allValid rs = false → k' = k) ∧
      (Expr.allValid rs = true → rs = Expr.flatten associative ops ∧
        k.table.Infers ((reached rs).map fun e => (e, groupType k.table rs)) k'.table)) ∧
    ∀ s threadable, ∃ o k', (checkSignature ops s false threadable).run.run k = (.ok o, k') ∧
      (o.isSome = true → k' = k) ∧
      (o = none → k.table.Infers
        ((ops.zip (parametersFor s ops.length)).filter fun p => !(threadable && isCollection p.1))
          k'.table) := by
  refine ⟨fun count associative => ?_, fun s threadable => ?_⟩
  · obtain ⟨rs, k', hrun, h⟩ := (checksNumbers hk ops count associative).exists_run
    refine ⟨rs, k', hrun, ?_⟩
    cases h with
    | accepted h hinfers =>
        rw [checkedNumbers_of_allValid h] at h
        exact ⟨fun hv => absurd (h.symm.trans hv) (by decide), fun _ => ⟨rfl, hinfers⟩⟩
    | refused h => exact ⟨fun _ => rfl, fun hv => absurd (h.symm.trans hv) (by decide)⟩
  · obtain ⟨o, k', hrun, h⟩ := (checksOperands hk ops s threadable).exists_run
    refine ⟨o, k', hrun, ?_⟩
    cases h with
    | accepted _ hinfers => exact ⟨fun h => (by cases h), fun _ => hinfers⟩
    | refused => exact ⟨fun _ => rfl, fun h => by cases h⟩

/-- The standard kernel, in which a symbol was met. -/
def acquainted : Kernel := ((makeSymbol "q").run.run standard).2

/-- The symbol that was met. -/
def acquaintance : Expr := .symbol "q" (acquainted.table.number? "q") true

/-- With `True` beside it nothing is inferred of `q`, with `1` that it is real. -/
theorem inference_allOrNothing_acquaintance :
    (∃ rs, (checkNumeric [acquaintance, .symbol "True" (standard.table.number? "True") true] none
      none).run.run acquainted = (.ok rs, acquainted)) ∧
    ∃ rs k', (checkNumeric [acquaintance, .number .one] none none).run.run acquainted = (.ok rs, k') ∧
      acquainted.table.Infers [(acquaintance, .real), (.number .one, .real)] k'.table := by
  have hk : acquainted.settings.strict = true := by
    rw [acquainted, standard_eq]
    decide +kernel
  constructor
  · obtain ⟨rs, k', hrun, hrefused, -⟩ := (inference_allOrNothing hk
      [acquaintance, .symbol "True" (standard.table.number? "True") true]).1 none none
    have hinvalid := forall_of_all (p := fun rs => !Expr.allValid rs) (x := ((checkNumeric
      [acquaintance, .symbol "True" (standard.table.number? "True") true] none none).run.run
        acquainted).1) (by simp only [acquaintance, acquainted, standard_eq]; decide +kernel) rs
          (by rw [hrun])
    exact ⟨rs, by rw [hrun, hrefused (by simpa using hinvalid)]⟩
  · obtain ⟨rs, k', hrun, -, haccepted⟩ :=
      (inference_allOrNothing hk [acquaintance, .number .one]).1 none none
    have hvalid := forall_of_all (p := Expr.allValid) (x := ((checkNumeric
      [acquaintance, .number .one] none none).run.run acquainted).1)
        (by simp only [acquaintance, acquainted, standard_eq]; decide +kernel) rs (by rw [hrun])
    obtain ⟨rfl, hinfers⟩ := haccepted hvalid
    have hgroup : groupType acquainted.table [acquaintance, .number .one] = .real := by
      simp only [acquaintance, acquainted, standard_eq]
      decide +kernel
    refine ⟨_, k', hrun, ?_⟩
    rw [show Expr.flatten none [acquaintance, .number .one] = [acquaintance, .number .one] from rfl,
      hgroup] at hinfers
    exact hinfers

/-- **The definition that an operand was built with is not always the one whose type is inferred.**
The name of a function that was met without a result type stands for the function: it is accepted where
a function is asked for, and the result type stays unknown.  A list stands for its elements: where its
operator was met without a result type, that stays unknown too. -/
theorem inference_passesOver :
    (∃ e foo k₀ k k', (box (.list [.name "Foo", .int 1])).run.run standard = (.ok e, k₀) ∧
      (box (.name "Foo")).run.run k₀ = (.ok foo, k) ∧
      (checkSignature [foo] ⟨[.function], [], none, .fixed .any⟩ false false).run.run k =
        (.ok none, k') ∧
      (k.table.definitionOf foo).any (fun d => d.isInferred && d.isUnresolved) = true ∧
      (k'.table.definitionOf foo).any Definition.isUnresolved = true) ∧
    ∃ e k rs k', (box (.list [.name "List", .name "x"])).run.run {} = (.ok e, k) ∧
      (checkNumeric [e] none none).run.run k = (.ok rs, k') ∧ Expr.allValid rs = true ∧
      (k.table.definitionOf e).any (fun d => d.isInferred && d.isUnresolved) = true ∧
      (k'.table.definitionOf e).any Definition.isUnresolved = true := by
  constructor
  · obtain ⟨⟨foo, t, o⟩, k', hrun, hp⟩ := run_of_any_after (k := standard)
      (x := do
        let _ ← box (.list [.name "Foo", .int 1])
        let foo ← box (.name "Foo")
        let t ← getTable
        let o ← checkSignature [foo] ⟨[.function], [], none, .fixed .any⟩ false false
        return (foo, t, o))
      (p := fun q k' => q.2.2.isNone &&
        (q.2.1.definitionOf q.1).any (fun d => d.isInferred && d.isUnresolved) &&
        (k'.table.definitionOf q.1).any Definition.isUnresolved)
      (by rw [standard_eq]; decide +kernel)
    obtain ⟨e, k₀, happlied, hrun⟩ := exists_run_of_bind hrun
    obtain ⟨foo, k, hbox, hrun⟩ := exists_run_of_bind hrun
    obtain ⟨t, k, ht, hrun⟩ := exists_run_of_bind hrun
    cases ht
    obtain ⟨o, k', hcheck, hrun⟩ := exists_run_of_bind hrun
    cases hrun
    rw [Bool.and_eq_true, Bool.and_eq_true, Option.isNone_iff_eq_none] at hp
    obtain ⟨⟨rfl, hbefore⟩, hafter⟩ := hp
    exact ⟨e, foo, k₀, k, k', happlied, hbox, hcheck, hbefore, hafter⟩
  · obtain ⟨⟨e, t, rs⟩, k', hrun, hp⟩ := run_of_any_after (k := {})
      (x := do
        let e ← box (.list [.name "List", .name "x"])
        let t ← getTable
        let rs ← checkNumeric [e] none none
        return (e, t, rs))
      (p := fun q k' => Expr.allValid q.2.2 &&
        (q.2.1.definitionOf q.1).any (fun d => d.isInferred && d.isUnresolved) &&
        (k'.table.definitionOf q.1).any Definition.isUnresolved) (by decide +kernel)
    obtain ⟨e, k, hbox, hrun⟩ := exists_run_of_bind hrun
    obtain ⟨t, k, ht, hrun⟩ := exists_run_of_bind hrun
    cases ht
    obtain ⟨rs, k', hcheck, hrun⟩ := exists_run_of_bind hrun
    cases hrun
    rw [Bool.and_eq_true, Bool.and_eq_true] at hp
    obtain ⟨⟨hvalid, hbefore⟩, hafter⟩ := hp
    exact ⟨e, k, rs, k', hbox, hcheck, hvalid, hbefore, hafter⟩

end Kernel

end SymbolicAlgebra
