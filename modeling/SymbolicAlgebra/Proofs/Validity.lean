import SymbolicAlgebra.Proofs.Building
import SymbolicAlgebra.Proofs.Expansion

/-!
# Proofs/Validity — what expansion makes of errors

`expand` only calculates, so it makes valid expressions of valid ones.  What it makes of an invalid
one is invalid, unless it drops the base of a power with exponent zero and an error in it
(`expand_hides_error`).  `expandAll` also builds and checks every subexpression anew: there it
matters that each operator is one whose operands pass their check again.  `expansion_validity`
states all three.
-/

namespace SymbolicAlgebra

/-! ## Ready expressions -/

mutual

/-- Whether an expression is canonical, and with it all that arithmetic and expansion look at; `p`
allows the operators there the numbers of operands they have. -/
def Expr.isReadyWith (p : String → Nat → Bool) : Expr → Bool
  | .symbol _ _ c => c
  | .application f ops _ c =>
      c && (!Kernel.isTransparent f || (p f ops.length && allReadyWith p ops))
  | _ => true

def Expr.allReadyWith (p : String → Nat → Bool) : List Expr → Bool
  | [] => true
  | e :: rest => isReadyWith p e && allReadyWith p rest

end

namespace Expr

variable {p : String → Nat → Bool}

/-- Whether an expression is canonical, and with it all that arithmetic and expansion look at. -/
abbrev isReady (e : Expr) : Bool := e.isReadyWith fun _ _ => true

/-- Sums of something; signs, quotients and powers of the operands they should have. -/
def isCountedWith (f : String) (count : Nat) : Bool :=
  f == "Multiply" || !Kernel.arithmeticOperators.contains f || Kernel.isBuiltWith f count

/-- Whether an expression is ready, and arithmetic could have built its sums, signs, quotients and
powers. -/
abbrev isCounted (e : Expr) : Bool := e.isReadyWith isCountedWith

theorem allReadyWith_iff {es : List Expr} :
    allReadyWith p es = true ↔ ∀ e ∈ es, e.isReadyWith p = true := by
  induction es with
  | nil => simp [allReadyWith]
  | cons e rest ih => simp [allReadyWith, ih]

theorem isReadyWith_application {f : String} {ops : List Expr} {d : Option Nat} {c : Bool} :
    (application f ops d c).isReadyWith p = true ↔ c = true ∧ (Kernel.isTransparent f = true →
      p f ops.length = true ∧ ∀ e ∈ ops, e.isReadyWith p = true) := by
  rw [isReadyWith, ← allReadyWith_iff]
  cases Kernel.isTransparent f <;> simp

theorem isCanonical_of_isReadyWith {e : Expr} (h : e.isReadyWith p = true) :
    e.isCanonical = true := by
  cases e with
  | symbol n d c => exact h
  | application f ops d c => exact (isReadyWith_application.1 h).1
  | _ => rfl

end Expr

namespace Kernel

/-- What `p` needs so that arithmetic and expansion keep it. -/
structure Lenient (p : String → Nat → Bool) : Prop where
  arithmetic : ∀ {f n}, f ∈ arithmeticOperators → isBuiltWith f n = true → p f n = true
  relation : ∀ {f n}, (Relation.ofOperator? f).isSome = true → p f n = true
  product : p "Multiply" 0 = true

theorem lenient_any : Lenient fun _ _ => true := ⟨fun _ _ => rfl, fun _ => rfl, rfl⟩

theorem lenient_counted : Lenient Expr.isCountedWith where
  arithmetic := fun _ hn => by simp [Expr.isCountedWith, hn]
  relation := by
    intro f n hf
    have hnot : arithmeticOperators.contains f = false := by
      rw [Bool.eq_false_iff, ne_eq, List.contains_iff_mem]
      intro hmem
      simp only [arithmeticOperators, List.mem_cons, List.not_mem_nil, or_false] at hmem
      rcases hmem with rfl | rfl | rfl | rfl | rfl <;> cases hf
    simp only [Expr.isCountedWith, hnot]
    rw [Bool.not_false, Bool.or_true, Bool.true_or]
  product := rfl

theorem Offers.pooling {p : Expr → Bool} {k : Kernel} {e : Expr} (hk : k.Offers p) (he : p e = true) :
    (k.pooling e).Offers p := by
  intro x hx e' he' hsame
  rcases List.mem_cons.1 hx with rfl | hx
  · exact he
  · exact hk x hx e' he' hsame

namespace Family

variable {F : Family} {p : String → Nat → Bool} {k : Kernel}

/-- The expressions that are ready. -/
def ready (hp : Lenient p) : Family where
  Fits := fun e => e.isReadyWith p = true
  Holds := fun k => k.Offers (Expr.isReadyWith p)
  number := fun _ => rfl
  operand := fun hf h => ((Expr.isReadyWith_application.1 h).2 hf).2
  node := fun _ hf hn _ hops =>
    Expr.isReadyWith_application.2 ⟨rfl, fun _ => ⟨hp.arithmetic hf hn, hops⟩⟩
  pooled := fun {_ _ x} hk he hx h => hk x hx _ he h
  pooling := fun hk he => Offers.pooling hk he
  pooling_product := fun hk =>
    hk.pooling (Expr.isReadyWith_application.2 ⟨rfl, fun _ => ⟨hp.product, by simp⟩⟩)

instance (hp : Lenient p) : (ready hp).Free where
  power := fun _ ha hb => Expr.isReadyWith_application.2
    ⟨rfl, fun _ => ⟨hp.arithmetic (by decide) rfl, by simpa using ⟨ha, hb⟩⟩⟩

theorem expandable_ready (hp : Lenient p) : (ready hp).Expandable where
  tame := .inl inferInstance
  canonize := fun hk he =>
    makes_canonicalize_of_isCanonical (Expr.isCanonical_of_isReadyWith he) hk he
  relation := fun _ hf _ hrs =>
    Expr.isReadyWith_application.2 ⟨rfl, fun _ => ⟨hp.relation hf, hrs⟩⟩

theorem expandable_ready_valid (hp : Lenient p) : (ready hp).valid.Expandable where
  tame := .inl inferInstance
  canonize := fun hk he =>
    makes_canonicalize_of_isCanonical (Expr.isCanonical_of_isReadyWith he.1) hk he
  relation := fun hk hf he hrs => ⟨(expandable_ready hp).relation hk hf he.1 fun x hx => (hrs x hx).1,
    Expr.allValid_iff.2 fun x hx => (hrs x hx).2⟩

/-- The operands that the operators are built with are those that a counted family asks for. -/
theorem counted_of_isBuiltWith (hcanonical : ∀ {e}, F.Fits e → e.isCanonical = true)
    (hbuilt : ∀ {f ops d c}, f ∈ ["Add", "Negate", "Divide", "Power"] →
      F.Fits (.application f ops d c) → isBuiltWith f ops.length = true) : F.Counted where
  canonical := hcanonical
  sum h := by
    rintro rfl
    exact absurd (hbuilt (by decide) h) (by decide)
  negation h := List.length_eq_one_iff.1 (by simpa [isBuiltWith] using hbuilt (by decide) h)
  quotient h := List.length_eq_two.1 (by simpa [isBuiltWith] using hbuilt (by decide) h)
  power h := List.length_eq_two.1 (by simpa [isBuiltWith] using hbuilt (by decide) h)

theorem counted_ready : (ready lenient_counted).Counted := by
  refine counted_of_isBuiltWith Expr.isCanonical_of_isReadyWith fun hf h => ?_
  have hcount := (((Expr.isReadyWith_application.1 h).2) ?_).1
  · simp only [List.mem_cons, List.not_mem_nil, or_false] at hf
    rcases hf with rfl | rfl | rfl | rfl <;> exact hcount
  · simp only [List.mem_cons, List.not_mem_nil, or_false] at hf
    rcases hf with rfl | rfl | rfl | rfl <;> decide

/-- Expansion, with what is left as it is. -/
theorem yields_expand (hF : F.Expandable) {e : Expr} (hk : F.Holds k) (he : F.Fits e)
    (hc : e.isCanonical = true) : Yields Anyhow (expand e) k fun r _ =>
      F.Fits r ∧ (F.Counted ∧ e.hides = false → r.isValid = e.isValid) := by
  rw [expand, canonicalize_of_isCanonical hc, pure_bind]
  refine Yields.bind (reports_expand? hF (fun _ _ => trivial) hk he fun _ => trivial) fun o k' ho => ?_
  cases o with
  | none => exact Yields.pure ⟨he, fun _ => rfl⟩
  | some r => exact Yields.pure (ho.2 r rfl)

end Family

end Kernel

/-! ## Admitted expressions -/

/-- Whether an operator takes any expressions that are taken for numbers, if there are so many. -/
def DefinitionTable.admits (t : DefinitionTable) (f : String) (count : Nat) : Bool :=
  if Kernel.arithmeticOperators.contains f then Kernel.isBuiltWith f count
  else t.holds f (·.fits (some count) false) && !Expr.isWildcardName f && !Kernel.isTransparent f

mutual

/-- Whether an expression is canonical and made of numbers, errors, symbols that are taken for
numbers, and numeric functions, with no error in a power. -/
def Expr.isAdmitted (t : DefinitionTable) : Expr → Bool
  | .symbol n d c => c && Kernel.acceptsNumber t (.symbol n d c)
  | .application f ops d c =>
      c && takesResult (d.bind t.get?) && t.admits f ops.length && (f != "Power" || allValid ops) &&
        allAdmitted t ops
  | _ => true

def Expr.allAdmitted (t : DefinitionTable) : List Expr → Bool
  | [] => true
  | e :: rest => isAdmitted t e && allAdmitted t rest

end

/-- An application that is admitted. -/
structure Admitted (t : DefinitionTable) (f : String) (ops : List Expr) (d : Option Nat) : Prop where
  result : takesResult (d.bind t.get?) = true
  count : t.admits f ops.length = true
  power : f = "Power" → Expr.allValid ops = true
  operand : ∀ e ∈ ops, e.isAdmitted t = true

namespace Expr

variable {t : DefinitionTable}

theorem allAdmitted_iff {es : List Expr} :
    allAdmitted t es = true ↔ ∀ e ∈ es, e.isAdmitted t = true := by
  induction es with
  | nil => simp [allAdmitted]
  | cons e rest ih => simp [allAdmitted, ih]

theorem isAdmitted_application {f : String} {ops : List Expr} {d : Option Nat} {c : Bool} :
    (application f ops d c).isAdmitted t = true ↔ c = true ∧ Admitted t f ops d := by
  simp only [isAdmitted, Bool.and_eq_true, allAdmitted_iff, Bool.or_eq_true, bne_iff_ne]
  constructor
  · rintro ⟨⟨⟨⟨hc, hresult⟩, hcount⟩, hpower⟩, hops⟩
    exact ⟨hc, hresult, hcount, fun hf => hpower.resolve_left (not_not_intro hf), hops⟩
  · rintro ⟨hc, h⟩
    exact ⟨⟨⟨⟨hc, h.result⟩, h.count⟩, not_or_of_imp h.power⟩, h.operand⟩

theorem isCanonical_of_isAdmitted {e : Expr} (h : e.isAdmitted t = true) : e.isCanonical = true := by
  cases e with
  | symbol n d c =>
      rw [isAdmitted, Bool.and_eq_true] at h
      exact h.1
  | application f ops d c => exact (isAdmitted_application.1 h).1
  | _ => rfl

theorem takesHead_of_isAdmitted {e : Expr} (h : e.isAdmitted t = true) (hv : e.isValid = true) :
    e.takesHead t = true := by
  cases e with
  | number v => rfl
  | symbol n d c =>
      rw [isAdmitted, Bool.and_eq_true] at h
      exact h.2
  | application f ops d c => exact (isAdmitted_application.1 h).2.result
  | error a b x => cases hv

theorem isFilledWith_of_admits {f : String} {n : Nat} (h : t.admits f n = true) :
    isFilledWith f n = true := by
  rw [isFilledWith_eq_true]
  rw [DefinitionTable.admits] at h
  split at h
  next hf =>
    rw [List.contains_iff_mem] at hf
    simp only [Kernel.arithmeticOperators, List.mem_cons, List.not_mem_nil, or_false] at hf
    rcases hf with rfl | rfl | rfl | rfl | rfl <;> simp_all [Kernel.isBuiltWith]
  next hf =>
    simp only [Bool.and_eq_true, Bool.not_eq_true'] at h
    refine ⟨?_, ?_⟩
    · rintro rfl
      exact absurd h.2 (by decide)
    · rintro (rfl | rfl)
      · exact absurd rfl hf
      · exact absurd rfl hf

mutual

theorem isFilled_of_isAdmitted : ∀ {e : Expr}, e.isAdmitted t = true → e.isFilled = true
  | number _, _ => rfl
  | symbol _ _ _, _ => rfl
  | error _ _ _, _ => rfl
  | application _ ops _ _, h => by
      have h := (isAdmitted_application.1 h).2
      rw [isFilled, counts, isFilledWith_of_admits h.count, allFilled_of_isAdmitted h.operand]
      rfl

theorem allFilled_of_isAdmitted : ∀ {es : List Expr}, (∀ e ∈ es, e.isAdmitted t = true) →
    allCount isFilledWith es = true
  | [], _ => rfl
  | e :: rest, h => by
      rw [List.forall_mem_cons] at h
      have he : e.counts isFilledWith = true := isFilled_of_isAdmitted h.1
      rw [allCount, he, allFilled_of_isAdmitted h.2]
      rfl

end

theorem ne_sequence_of_isAdmitted {f : String} {ops : List Expr} {d : Option Nat} {c : Bool}
    (h : (application f ops d c).isAdmitted t = true) : f ≠ "Sequence" :=
  (isFilledWith_eq_true.1 (isFilledWith_of_admits (isAdmitted_application.1 h).2.count)).1

theorem flatten_none_of_isAdmitted {ops : List Expr} (hops : ∀ e ∈ ops, e.isAdmitted t = true) :
    flatten none ops = ops := by
  refine flatten_of_isLeaf fun e he => ?_
  cases e with
  | application f ops' d c =>
      have hf := ne_sequence_of_isAdmitted (hops _ he)
      simp [isLeaf, isSpliced, hf]
  | _ => rfl

mutual

/-- Expansion hides no error if there is none in a power. -/
theorem hides_of_isAdmitted : ∀ {e : Expr}, e.isAdmitted t = true → e.hides = false
  | number _, _ => rfl
  | symbol _ _ _, _ => rfl
  | error _ _ _, _ => rfl
  | application f ops d c, h => by
      have h := (isAdmitted_application.1 h).2
      rw [hides]
      split
      next => exact anyHides_of_isAdmitted h.operand
      next =>
        split
        next => exact firstHides_of_isAdmitted h.operand
        next =>
          rw [Bool.and_eq_false_iff, beq_eq_false_iff_ne]
          by_cases hf : f = "Power"
          · exact .inr (powerHides_of_isAdmitted (h.power hf) h.operand)
          · exact .inl hf

theorem anyHides_of_isAdmitted : ∀ {es : List Expr}, (∀ e ∈ es, e.isAdmitted t = true) →
    anyHides es = false
  | [], _ => rfl
  | e :: rest, h => by
      rw [List.forall_mem_cons] at h
      rw [anyHides, hides_of_isAdmitted h.1, anyHides_of_isAdmitted h.2]
      rfl

theorem firstHides_of_isAdmitted : ∀ {es : List Expr}, (∀ e ∈ es, e.isAdmitted t = true) →
    firstHides es = false
  | [], _ => rfl
  | a :: _, h => hides_of_isAdmitted (h a (by simp))

theorem powerHides_of_isAdmitted : ∀ {es : List Expr}, allValid es = true →
    (∀ e ∈ es, e.isAdmitted t = true) → powerHides es = false
  | [], _, _ => rfl
  | [_], _, _ => rfl
  | base :: _ :: _, hv, h => by
      rw [allValid, Bool.and_eq_true] at hv
      rw [powerHides]
      split
      next => rfl
      next => simp [hv.1, hides_of_isAdmitted (h base (by simp))]

end

end Expr

namespace Kernel

namespace Family

variable {t : DefinitionTable} {k : Kernel}

theorem admits_of_isBuiltWith {f : String} {n : Nat} (hf : f ∈ arithmeticOperators)
    (hn : isBuiltWith f n = true) : t.admits f n = true := by
  rw [DefinitionTable.admits, if_pos (List.contains_iff_mem.2 hf), hn]

/-- A kernel whose table is as wide as `t` or narrower, and whose pool offers for an expression that
is admitted only such that are. -/
structure AdmittedIn (t : DefinitionTable) (k : Kernel) : Prop where
  table : Narrows t k.table
  pool : k.Offers (Expr.isAdmitted t)

/-- The expressions that are admitted. -/
def admitted (ht : t.isArithmetic = true) : Family where
  Fits := fun e => e.isAdmitted t = true
  Holds := AdmittedIn t
  number := fun _ => rfl
  operand := fun _ h => (Expr.isAdmitted_application.1 h).2.operand
  node := fun hk hf hn hp hops => by
    obtain ⟨d, hd, hd'⟩ := exists_of_isArithmetic ht hf
    rw [hk.table.functionNumber?]
    exact Expr.isAdmitted_application.2
      ⟨rfl, takesResult_of_find? hd hd', admits_of_isBuiltWith hf hn, hp, hops⟩
  pooled := fun {_ _ x} hk he hx h => hk.pool x hx _ he h
  pooling := fun hk he => ⟨hk.table, hk.pool.pooling he⟩
  pooling_product := fun hk => ⟨hk.table, by
    intro x hx e he hsame
    rcases List.mem_cons.1 hx with rfl | hx
    · -- nothing that is admitted looks like a product of nothing
      have hcount : e.isFilled = (Expr.application "Multiply" [] _ true).isFilled :=
        (Expr.counts_of_same hsame).symm
      rw [Expr.isFilled_of_isAdmitted he] at hcount
      cases hcount
    · exact hk.pool x hx e he hsame⟩

variable (ht : t.isArithmetic = true)

theorem counted_admitted : (admitted ht).Counted := by
  refine counted_of_isBuiltWith Expr.isCanonical_of_isAdmitted fun {f _ _ _} hf h => ?_
  have harith : f ∈ arithmeticOperators := by
    simp only [List.mem_cons, List.not_mem_nil, or_false] at hf
    rcases hf with rfl | rfl | rfl | rfl <;> decide
  have hcount := (Expr.isAdmitted_application.1 h).2.count
  rwa [DefinitionTable.admits, if_pos (List.contains_iff_mem.2 harith)] at hcount

theorem expandable_admitted : (admitted ht).Expandable where
  tame := .inr ⟨counted_admitted ht, fun h => (Expr.isAdmitted_application.1 h).2.power rfl⟩
  canonize := fun hk he =>
    makes_canonicalize_of_isCanonical (Expr.isCanonical_of_isAdmitted he) hk he
  relation := by
    -- a relation is transparent, so no admitted expression is one
    intro k f ops d c rs hk hf he hrs
    have hcount := (Expr.isAdmitted_application.1 he).2.count
    rw [DefinitionTable.admits] at hcount
    split at hcount
    next hmem =>
      rw [List.contains_iff_mem] at hmem
      simp only [arithmeticOperators, List.mem_cons, List.not_mem_nil, or_false] at hmem
      rcases hmem with rfl | rfl | rfl | rfl | rfl <;> cases hf
    next =>
      simp [isTransparent, hf] at hcount

/-! ## Building anew -/

theorem AdmittedIn.of_inferred {k' : Kernel} (hk : AdmittedIn t k) (h : Inferred t k k') :
    AdmittedIn t k' := ⟨h.table, by rw [Offers, h.pool]; exact hk.pool⟩

/-- An application of a numeric function to what is left of its operands. -/
theorem reports_buildFrom_of_fits (hk : AdmittedIn t k) {f : String} {ops : List Expr}
    {count : Option Nat} {associative : Bool}
    (hf : t.holds f (·.fits count associative) = true) (hw : Expr.isWildcardName f = false)
    (hops : ∀ e ∈ ops, e.isAdmitted t = true) {es : List Expr}
    (hes : Expr.flatten (if associative then some f else none) ops = es)
    (hcount : count.getD es.length = es.length) (hadmits : t.admits f es.length = true)
    (hpower : f = "Power" → Expr.allValid ops = true) :
    (admitted ht).Reports Anyhow (buildFrom f ops) k (Expr.allValid ops) := by
  have hvalid : Expr.allValid es = Expr.allValid ops := by rw [← hes, Expr.allValid_flatten]
  have hleaves : ∀ e ∈ es, e.isAdmitted t = true := by
    rw [← hes]
    exact Expr.forall_flatten
      (fun _ _ _ _ _ h => (Expr.isAdmitted_application.1 h).2.operand) hops
  refine yields_buildFrom_of_fits hk.table hf hw
    (fun e he => Expr.isCanonical_of_isAdmitted (hops e he)) hes hcount
    (Expr.flatten_none_of_isAdmitted hleaves)
    (fun e he => Expr.takesHead_of_isAdmitted (hleaves e he)) fun k' hk' => ?_
  obtain ⟨d, hd, hfits⟩ := DefinitionTable.exists_of_holds hf
  simp only [FunctionDefinition.fits, Bool.and_eq_true] at hfits
  have hresult := takesResult_of_find? hd hfits.1.1.1.1
  rw [← hk'.table.functionNumber?] at hresult
  have hnode : (Expr.application f es (k'.table.functionNumber? f) true).isAdmitted t = true :=
    Expr.isAdmitted_application.2
      ⟨rfl, hresult, hadmits, fun hf => hvalid.trans (hpower hf), hleaves⟩
  exact (yields_apply (F := admitted ht) (hk.of_inferred hk') hnode).mono fun r _ h =>
    ⟨h.1, h.2.1, fun _ => h.2.2.trans hvalid⟩

theorem reports_opposite (hk : AdmittedIn t k) {a : Expr} (ha : a.isAdmitted t = true) :
    Yields Anyhow (if a.operator == "Negate" && a.isValid then return a.op1?
        else return some (← apply "Negate" [a])) k fun o k' =>
      ∃ r, o = some r ∧ AdmittedIn t k' ∧ r.isAdmitted t = true ∧
        ((admitted ht).Counted → r.isValid = a.isValid) := by
  split
  next h =>
    rw [Bool.and_eq_true, beq_iff_eq] at h
    cases a with
    | application f ops d c =>
        obtain rfl : f = "Negate" := h.1
        obtain ⟨x, rfl⟩ := (counted_admitted ht).negation ha
        refine Yields.pure ⟨x, rfl, hk, (Expr.isAdmitted_application.1 ha).2.operand x (by simp), ?_⟩
        exact fun hc => hc.valid_negation ha
    | number v => exact absurd h.1 (by simp [Expr.operator])
    | symbol n d c => exact absurd h.1 (by simp [Expr.operator])
    | error _ _ _ => exact absurd h.1 (by simp [Expr.operator])
  next =>
    refine Yields.bind (reports_apply (F := admitted ht) hk (by decide) rfl
      (List.forall_mem_singleton.2 ha)) fun r k' hr => Yields.pure ⟨r, rfl, hr.1, hr.2.1, fun hc => ?_⟩
    rw [hr.2.2 hc, Expr.allValid_singleton]

theorem reports_negation (hk : AdmittedIn t k) {a : Expr} (ha : a.isAdmitted t = true) :
    (admitted ht).Reports Anyhow (buildFrom "Negate" [a]) k a.isValid := by
  refine yields_buildFrom_of_negation ht hk.table (Expr.isCanonical_of_isAdmitted ha)
    (Expr.flatten_none_of_isAdmitted (List.forall_mem_singleton.2 ha))
    (Expr.takesHead_of_isAdmitted ha) fun k' hk' => ?_
  have hk' := hk.of_inferred hk'
  cases a with
  | number v =>
      refine Yields.bind (P := fun _ k'' => AdmittedIn t k'')
        (Kernel.yields_number (fun _ _ => trivial) fun _ _ => hk') fun w k₁ hk₁ => ?_
      refine Yields.bind (yields_makeNumber (F := admitted ht) hk₁) fun r k₂ hr => ?_
      exact Yields.pure ⟨r, rfl, hr.1, hr.2.1, fun _ => hr.2.2⟩
  | symbol n d c => exact reports_opposite ht hk' ha
  | application f ops d c => exact reports_opposite ht hk' ha
  | error a b x => exact reports_opposite ht hk' ha

/-- **Building an admitted application anew neither hides nor invents errors.** -/
theorem reports_buildFrom (hk : AdmittedIn t k) {f : String} {ops : List Expr}
    (hadmits : t.admits f ops.length = true) (hpower : f = "Power" → Expr.allValid ops = true)
    (hops : ∀ e ∈ ops, e.isAdmitted t = true) :
    (admitted ht).Reports Anyhow (buildFrom f ops) k (Expr.allValid ops) := by
  have hfixed := ht
  simp only [DefinitionTable.isArithmetic, Bool.and_eq_true] at hfixed
  obtain ⟨⟨⟨⟨hadd, hmul⟩, hdiv⟩, hpow⟩, -⟩ := hfixed
  have hadmits' := hadmits
  rw [DefinitionTable.admits] at hadmits'
  have hassociative : f = "Add" ∨ f = "Multiply" → t.admits f (Expr.flatten (some f) ops).length =
      true := by
    intro hf
    have hfilled : ops ≠ [] := by
      rintro rfl
      exact (Expr.isFilledWith_eq_true.1 (Expr.isFilledWith_of_admits hadmits)).2 hf rfl
    have hne := Expr.flatten_ne_nil hf (.inr rfl) hfilled fun e he =>
      Expr.isFilled_of_isAdmitted (hops e he)
    refine admits_of_isBuiltWith (by rcases hf with rfl | rfl <;> decide) ?_
    rcases hf with rfl | rfl <;> simpa [isBuiltWith] using hne
  have hplain := Expr.flatten_none_of_isAdmitted hops
  split at hadmits'
  next hmem =>
    rw [List.contains_iff_mem] at hmem
    simp only [arithmeticOperators, List.mem_cons, List.not_mem_nil, or_false] at hmem
    rcases hmem with rfl | rfl | rfl | rfl | rfl
    · exact reports_buildFrom_of_fits ht hk hadd (by decide +kernel) hops rfl rfl
        (hassociative (.inl rfl)) hpower
    · exact reports_buildFrom_of_fits ht hk hmul (by decide +kernel) hops rfl rfl
        (hassociative (.inr rfl)) hpower
    · obtain ⟨a, rfl⟩ := List.length_eq_one_iff.1 (by simpa [isBuiltWith] using hadmits')
      rw [Expr.allValid_singleton]
      exact reports_negation ht hk (hops a (by simp))
    · have hlen : ops.length = 2 := by simpa [isBuiltWith] using hadmits'
      exact reports_buildFrom_of_fits ht hk hdiv (by decide +kernel) hops hplain hlen.symm hadmits
        hpower
    · have hlen : ops.length = 2 := by simpa [isBuiltWith] using hadmits'
      exact reports_buildFrom_of_fits ht hk hpow (by decide +kernel) hops hplain hlen.symm hadmits
        hpower
  next =>
    simp only [Bool.and_eq_true, Bool.not_eq_true'] at hadmits'
    exact reports_buildFrom_of_fits ht hk hadmits'.1.1 hadmits'.1.2 hops hplain rfl hadmits hpower

/-! ## Expansion of all parts -/

mutual

/-- **Expansion of all parts neither hides nor invents errors.** -/
theorem yields_expandAll? (ht : t.isArithmetic = true) : ∀ {e : Expr} {k : Kernel},
    AdmittedIn t k → e.isAdmitted t = true → Yields Anyhow (expandAll? e) k fun o k' => AdmittedIn t k' ∧
      (o.getD e).isAdmitted t = true ∧ (o.getD e).isValid = e.isValid
  | .number _, _, hk, he => Yields.pure ⟨hk, he, rfl⟩
  | .symbol _ _ _, _, hk, he => Yields.pure ⟨hk, he, rfl⟩
  | .error _ _ _, _, hk, he => Yields.pure ⟨hk, he, rfl⟩
  | .application f ops d c, k, hk, he => by
      have h := (Expr.isAdmitted_application.1 he).2
      unfold expandAll?
      refine (yields_expandAllEach ht hk h.operand).bind fun rs k₁ hrs => ?_
      have hcount : t.admits f rs.length = true := hrs.2.1 ▸ h.count
      have hpower : f = "Power" → Expr.allValid rs = true := fun hf => hrs.2.2.2.trans (h.power hf)
      refine Yields.bind (reports_buildFrom ht hrs.1 hcount hpower hrs.2.2.1) fun r k₂ hr => ?_
      have hvalid : r.isValid = Expr.allValid ops :=
        (hr.2.2 (counted_admitted ht)).trans hrs.2.2.2
      refine Yields.bind (reports_expand? (E := Anyhow) (expandable_admitted ht)
        (fun _ _ => trivial) hr.1 hr.2.1 fun _ => trivial) fun o k₃ ho => ?_
      refine Yields.pure ⟨ho.1, ?_⟩
      cases o with
      | none => exact ⟨hr.2.1, hvalid⟩
      | some x =>
          obtain ⟨hx, hxv⟩ := ho.2 x rfl
          exact ⟨hx, (hxv ⟨counted_admitted ht, Expr.hides_of_isAdmitted hr.2.1⟩).trans hvalid⟩

theorem yields_expandAllEach (ht : t.isArithmetic = true) : ∀ {es : List Expr} {k : Kernel},
    AdmittedIn t k → (∀ e ∈ es, e.isAdmitted t = true) → Yields Anyhow (expandAllEach es) k fun rs k' =>
      AdmittedIn t k' ∧ rs.length = es.length ∧ (∀ e ∈ rs, e.isAdmitted t = true) ∧
        Expr.allValid rs = Expr.allValid es
  | [], _, hk, _ => Yields.pure ⟨hk, rfl, by simp, rfl⟩
  | e :: rest, k, hk, hes => by
      rw [List.forall_mem_cons] at hes
      unfold expandAllEach
      refine (yields_expandAll? ht hk hes.1).bind fun o k₁ ho => ?_
      refine (yields_expandAllEach ht ho.1 hes.2).bind fun rs k₂ hrs => ?_
      refine Yields.pure ⟨hrs.1, by simp [hrs.2.1], List.forall_mem_cons.2 ⟨ho.2.1, hrs.2.2.1⟩, ?_⟩
      rw [Expr.allValid, ho.2.2, hrs.2.2.2, Expr.allValid]

end

theorem yields_expandAll (ht : t.isArithmetic = true) {e : Expr} (hk : AdmittedIn t k)
    (he : e.isAdmitted t = true) : Yields Anyhow (expandAll e) k fun r _ => r.isValid = e.isValid := by
  rw [expandAll, canonicalize_of_isCanonical (Expr.isCanonical_of_isAdmitted he), pure_bind]
  exact (yields_expandAll? ht hk he).bind fun o k' ho => Yields.pure ho.2.2

end Family

/-! ## The main result -/

/-- **Expansion invents no errors, and hides none but in powers with exponent zero.** -/
theorem expansion_validity (k : Kernel) (e : Expr) :
    (e.isReady = true → k.Offers Expr.isReady → e.isValid = true →
      ∀ r k', (expand e).run.run k = (.ok r, k') → r.isValid = true) ∧
    (e.isCounted = true → k.Offers Expr.isCounted → e.hides = false →
      ∀ r k', (expand e).run.run k = (.ok r, k') → r.isValid = e.isValid) ∧
    (k.table.isArithmetic = true → e.isAdmitted k.table = true →
      k.Offers (Expr.isAdmitted k.table) →
      ∀ r k', (expandAll e).run.run k = (.ok r, k') → r.isValid = e.isValid) := by
  refine ⟨fun he hk hv r k' hr => ?_, fun he hk hh r k' hr => ?_, fun ht he hk r k' hr => ?_⟩
  · have h := Family.yields_expand (Family.expandable_ready_valid lenient_any) (k := k) hk ⟨he, hv⟩
      (Expr.isCanonical_of_isReadyWith he)
    exact (h.of_run hr).1.2
  · have h := Family.yields_expand (Family.expandable_ready lenient_counted) hk he
      (Expr.isCanonical_of_isReadyWith he)
    exact (h.of_run hr).2 ⟨Family.counted_ready, hh⟩
  · exact (Family.yields_expandAll ht ⟨.refl _, hk⟩ he).of_run hr

/-- `(Sin (Multiply (Add True 1) 2))` as it is built: the truth value is an error. -/
def invalidSine : Expr :=
  let sum := .application "Add"
    [mismatch .number .boolean (.symbol "True" (some 3) true), .number .one] (some 6) true
  .application "Sin" [.application "Multiply" [sum, .number (.ofInt 2)] (some 7) true] (some 14) true

theorem expansion_validity_invalidSine :
    (∀ r k', (expand invalidSine).run.run standard = (.ok r, k') → r.isValid = false) ∧
    ∀ r k', (expandAll invalidSine).run.run standard = (.ok r, k') → r.isValid = false := by
  have hpool : standard.pool.isEmpty = true := List.isEmpty_iff.2 standard_pool
  obtain ⟨-, hexpand, hall⟩ := expansion_validity standard invalidSine
  exact ⟨hexpand (by decide) (offers_of_isEmpty hpool) (by decide),
    hall (by rw [standard_eq]; decide +kernel) (by rw [standard_eq]; decide +kernel)
      (offers_of_isEmpty hpool)⟩

/-- **A power with exponent zero of an invalid base is expanded to a valid number.** -/
theorem expand_hides_error :
    ∃ e k r k', (box (.list [.name "Power", .list [.name "Add", .name "True", .int 1],
        .int 0])).run.run standard = (.ok e, k) ∧ e.isValid = false ∧
      (expand e).run.run k = (.ok r, k') ∧ r.isValid = true := by
  obtain ⟨e, k, hbox, he⟩ := run_of_any (k := standard)
    (x := box (.list [.name "Power", .list [.name "Add", .name "True", .int 1], .int 0]))
    (p := fun e => !e.isValid) (by rw [standard_eq]; decide +kernel)
  have hexpand : (((box (.list [.name "Power", .list [.name "Add", .name "True", .int 1],
      .int 0])) >>= expand).run.run standard).1.toOption.any Expr.isValid = true := by
    rw [standard_eq]
    decide +kernel
  obtain ⟨r, k', hr, hv⟩ := run_of_any hexpand
  rw [run_bind, hbox] at hr
  exact ⟨e, k, r, k', hbox, by simpa using he, hr, hv⟩

end Kernel

end SymbolicAlgebra
