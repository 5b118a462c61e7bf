import SymbolicAlgebra.Proofs.Calls
import SymbolicAlgebra.Proofs.Development
import SymbolicAlgebra.Proofs.Family
import SymbolicAlgebra.Proofs.Standard

/-!
# Proofs/Currency — expressions that carry the definitions of the moment

Equal expressions are built once: the pool gives the expression that was built first, with the
registration that its operator had then.  Declaring a name that had a registration empties the pool, so
what is built afterwards carries the new one.  Declaring a name that had none does not, and the kernel
applies seven operators of its own without meeting them first (`Kernel.ownOperators`): where they were
not declared from the start, an expression without a definition stays in the pool
(`boxing_after_declaration`).

Where they were, the pool holds expressions with the registrations of the moment only, at every moment
of every run that goes on with such expressions (`boxing_current`).  Building keeps to that as a
development, arithmetic as a family.
-/

namespace SymbolicAlgebra

/-! ## Tables that a registration does not disturb -/

namespace DefinitionTable

variable {t t' : DefinitionTable} {name : String}

/-- Every registration of a name is there. -/
def IsSound (t : DefinitionTable) : Prop := ∀ n, t.contains n = true → (t.find? n).isSome = true

/-- The names of a table have the same registrations in another one, of the same kind. -/
structure Keeps (t t' : DefinitionTable) : Prop where
  number : ∀ {n}, t.contains n = true → t'.number? n = t.number? n
  function : ∀ {f}, t.contains f = true → t'.functionNumber? f = t.functionNumber? f

theorem Keeps.contains (h : t.Keeps t') {n : String} (hn : t.contains n = true) :
    t'.contains n = true := by
  rw [DefinitionTable.contains, h.number hn]
  exact hn

theorem functionNumber?_eq (t : DefinitionTable) (f : String) :
    t.functionNumber? f =
      if (t.find? f).any (·.function?.isSome) then t.number? f else none := by
  rw [functionNumber?]
  rcases t.find? f with _ | _ | _ <;> rfl

theorem isSound_empty : IsSound {} := fun n h => by cases h

theorem IsSound.register (h : t.IsSound) (name : String) (d : Definition) :
    (t.register name d).IsSound := by
  intro n hn
  by_cases hname : n = name
  · rw [find?, number?_register, if_pos hname, Option.bind_some, get?_register, if_pos rfl]
    rfl
  · rw [contains_register, beq_eq_false_iff_ne.2 hname, Bool.false_or] at hn
    obtain ⟨d', hd'⟩ := Option.isSome_iff_exists.1 (h n hn)
    rw [find?_register name d hd']
    rfl

theorem IsSound.narrow (h : t.IsSound) {i : Nat} {d : Definition} (hd : t.get? i = some d)
    (type : TypeName) : (t.modify i fun _ => d.narrow type).IsSound := fun n hn =>
  (read_find?_narrow (φ := Option.isSome) hd rfl n).trans (h n hn)

/-- **A registration under a new name leaves the others alone.** -/
theorem IsSound.keeps_register (h : t.IsSound) (hnew : t.contains name = false) (d : Definition) :
    t.Keeps (t.register name d) := by
  have hne : ∀ {n}, t.contains n = true → n ≠ name := by
    rintro n hn rfl
    rw [hnew] at hn
    cases hn
  have hnumber : ∀ {n}, t.contains n = true → (t.register name d).number? n = t.number? n := fun hn => by
    rw [number?_register, if_neg (hne hn)]
  refine ⟨hnumber, fun {f} hf => ?_⟩
  obtain ⟨d', hd'⟩ := Option.isSome_iff_exists.1 (h f hf)
  rw [functionNumber?_eq, functionNumber?_eq, hnumber hf, find?_register name d hd', if_neg (hne hf), hd']

theorem keeps_narrow {i : Nat} {d : Definition} (hd : t.get? i = some d) (type : TypeName) :
    t.Keeps (t.modify i fun _ => d.narrow type) where
  number _ := rfl
  function {f} _ := by
    rw [functionNumber?_eq, functionNumber?_eq, number?_modify,
      read_find?_narrow (φ := Option.any (·.function?.isSome)) hd (by cases d <;> rfl)]

end DefinitionTable

/-! ## Current expressions -/

namespace Expr

mutual

/-- Whether the symbols and applications of an expression carry the registrations that their names
stand for.  Wildcards have none, and neither has what is not in canonical form. -/
def isCurrent (t : DefinitionTable) : Expr → Bool
  | symbol n d c => !c || isWildcardName n || (t.contains n && d == t.number? n)
  | application f ops d c =>
      (!c || isWildcardName f || (t.contains f && d == t.functionNumber? f)) && allCurrent t ops
  | _ => true

def allCurrent (t : DefinitionTable) : List Expr → Bool
  | [] => true
  | e :: rest => isCurrent t e && allCurrent t rest

end

variable {t t' : DefinitionTable}

theorem allCurrent_iff {es : List Expr} :
    allCurrent t es = true ↔ ∀ e ∈ es, e.isCurrent t = true := by
  induction es with
  | nil => simp [allCurrent]
  | cons e rest ih => simp [allCurrent, ih]

theorem isCurrent_application {f : String} {ops : List Expr} (hf : t.contains f = true)
    (hops : ∀ e ∈ ops, e.isCurrent t = true) :
    (application f ops (t.functionNumber? f) true).isCurrent t = true := by
  simp [isCurrent, hf, allCurrent_iff.2 hops]

theorem isCurrent_operand {f : String} {ops : List Expr} {d : Option Nat} {c : Bool}
    (h : (application f ops d c).isCurrent t = true) : ∀ e ∈ ops, e.isCurrent t = true := by
  rw [isCurrent, Bool.and_eq_true] at h
  exact allCurrent_iff.1 h.2

mutual

theorem isCurrent_of_keeps (h : t.Keeps t') : ∀ {e : Expr}, e.isCurrent t = true → e.isCurrent t' = true
  | number _, _ => rfl
  | error _ _ _, _ => rfl
  | symbol n d c, he => by
      simp only [isCurrent, Bool.or_eq_true, Bool.and_eq_true, beq_iff_eq] at he ⊢
      refine he.imp_right fun hd => ⟨h.contains hd.1, ?_⟩
      rw [h.number hd.1, hd.2]
  | application f ops d c, he => by
      simp only [isCurrent, Bool.or_eq_true, Bool.and_eq_true, beq_iff_eq] at he ⊢
      refine ⟨he.1.imp_right fun hd => ⟨h.contains hd.1, ?_⟩, allCurrent_of_keeps h he.2⟩
      rw [h.function hd.1, hd.2]

theorem allCurrent_of_keeps (h : t.Keeps t') :
    ∀ {es : List Expr}, allCurrent t es = true → allCurrent t' es = true
  | [], _ => rfl
  | e :: rest, hes => by
      rw [allCurrent, Bool.and_eq_true] at hes ⊢
      exact ⟨isCurrent_of_keeps h hes.1, allCurrent_of_keeps h hes.2⟩

end

end Expr

namespace DefinitionTable

/-- The type of an expression by what its name stands for now, whatever it was built with. -/
def typeNow (t : DefinitionTable) : Expr → TypeName
  | .symbol n _ _ =>
      match t.find? n with
      | some (.symbol d) => d.type
      | some (.function _) => .function
      | none => .unknown
  | .application f ops _ _ =>
      match t.find? f with
      | some (.function d) => d.signature.result.apply (t.typesOf ops)
      | _ => .unknown
  | e => t.typeOf e

/-- **A current expression has the type that its name gives it now.** -/
theorem typeOf_eq_typeNow {t : DefinitionTable} {e : Expr} (h : e.isCurrent t = true)
    (hc : e.isCanonical = true) (hsymbol : e.isWildcard = false)
    (hoperator : Expr.isWildcardName e.operator = false) : t.typeOf e = t.typeNow e := by
  cases e with
  | number v => rfl
  | error _ _ _ => rfl
  | symbol n d c =>
      obtain rfl : c = true := hc
      replace hsymbol : Expr.isWildcardName n = false := hsymbol
      simp only [Expr.isCurrent, hsymbol, Bool.not_true, Bool.false_or, Bool.and_eq_true,
        beq_iff_eq] at h
      rw [typeOf, h.2, typeNow, find?]
      rcases (t.number? n).bind t.get? with _ | _ | _ <;> rfl
  | application f ops d c =>
      obtain rfl : c = true := hc
      replace hoperator : Expr.isWildcardName f = false := hoperator
      simp only [Expr.isCurrent, hoperator, Bool.not_true, Bool.false_or, Bool.and_eq_true,
        beq_iff_eq] at h
      rw [typeOf, h.1.2, typeNow, functionNumber?]
      cases hf : t.find? f with
      | none => rfl
      | some d =>
          rw [find?] at hf
          cases d with
          | symbol _ => rfl
          | function _ => simp only [hf]

end DefinitionTable

namespace Kernel

/-- The operators that the kernel applies by itself: those of arithmetic, and those of the forms that
numbers are written in. -/
def ownOperators : List String := arithmeticOperators ++ formOperators

/-- A kernel that builds current expressions: what it built before is, and it knows its operators. -/
structure IsCurrent (k : Kernel) : Prop where
  sound : k.table.IsSound
  pool : ∀ x ∈ k.pool, x.isCurrent k.table = true
  operators : ∀ f ∈ ownOperators, k.table.contains f = true

namespace IsCurrent

variable {k : Kernel}

theorem pooling (hk : k.IsCurrent) {e : Expr} (he : e.isCurrent k.table = true) :
    (k.pooling e).IsCurrent :=
  ⟨hk.sound, List.forall_mem_cons.2 ⟨he, hk.pool⟩, hk.operators⟩

/-- What is pooled stays current while names keep their registrations. -/
theorem keeps (hk : k.IsCurrent) {t : DefinitionTable} (ht : t.IsSound) (h : k.table.Keeps t) :
    IsCurrent { k with table := t } :=
  ⟨ht, fun x hx => Expr.isCurrent_of_keeps h (hk.pool x hx), fun f hf => h.contains (hk.operators f hf)⟩

/-- An operator of the kernel's own, applied to current operands. -/
theorem apply (hk : k.IsCurrent) {f : String} (hf : f ∈ ownOperators) {ops : List Expr}
    (hops : ∀ e ∈ ops, e.isCurrent k.table = true) :
    (Expr.application f ops (k.table.functionNumber? f) true).isCurrent k.table = true :=
  Expr.isCurrent_application (hk.operators f hf) hops

end IsCurrent

/-! ## Building -/

/-- **Building keeps expressions current.** -/
def currency : Development where
  Holds := IsCurrent
  Built t e := e.isCurrent t = true
  Stands t e := e.isCurrent t = true
  Keeps _ := True
  Reads _ := True
  Names _ := True
  Heads _ := True
  Admits _ := True
  Mode _ _ := True
  stands h := h
  built h _ := h
  keeps _ _ := trivial
  name _ := trivial
  truth _ := trivial
  head _ _ := trivial
  item _ _ _ := trivial
  literal _ _ := trivial
  zero := trivial
  neg _ _ := trivial
  div _ _ _ _ _ := trivial
  parts _ _ := trivial
  number _ := rfl
  admits _ := trivial
  error {_ e} h := by cases e <;> first | rfl | cases h
  wildcard _ h := by simp [Expr.isCurrent, h]
  symbol _ _ _ h := by simp [Expr.isCurrent, h]
  heldSymbol _ _ _ := rfl
  heldApplication _ _ hops := by simpa [Expr.isCurrent] using Expr.allCurrent_iff.2 hops
  plain {k₁ k f ops} _ _ hgrown _ hf hops := by
    rcases hf with hf | hf
    · simp [Expr.isCurrent, hf, Expr.allCurrent_iff.2 hops]
    · exact Expr.isCurrent_application (hgrown.contains hf.1) hops
  lazy _ _ _ _ hd _ hops _ := Expr.isCurrent_application (DefinitionTable.contains_of_find? hd) hops
  checked _ _ _ hgrown hgrown' _ _ hd _ _ _ _ hrs := Expr.isCurrent_application
    ((hgrown.trans hgrown').contains (DefinitionTable.contains_of_find? hd)) hrs
  negated _ hk _ _ _ hrs _ _ := hk.apply (by decide) hrs
  paired _ hk _ _ _ hrs hf := by
    rcases hf with ⟨rfl, -⟩ | ⟨rfl, -⟩
    · exact hk.apply (by decide) hrs
    · exact hk.apply (by decide) hrs
  operand _ h := Expr.isCurrent_operand h
  heldOperand h := Expr.isCurrent_operand h
  mode _ _ := trivial
  sequence := trivial
  negate := trivial
  pooling hk he := hk.pooling he
  pooled hk _ hx _ := hk.pool _ hx
  noted _ hk := ⟨hk.sound, hk.pool, hk.operators⟩
  narrowed hk _ hd :=
    have hget := (DefinitionTable.narrowable?_eq_some.1 hd).2.1
    have hkeeps := DefinitionTable.keeps_narrow hget _
    ⟨hk.keeps (hk.sound.narrow hget _) hkeeps, fun _ => Expr.isCurrent_of_keeps hkeeps,
      fun _ => Expr.isCurrent_of_keeps hkeeps⟩
  met hk hnew _ _ :=
    have hkeeps := hk.sound.keeps_register hnew _
    ⟨hk.keeps (hk.sound.register _ _) hkeeps, fun _ => Expr.isCurrent_of_keeps hkeeps,
      fun _ => Expr.isCurrent_of_keeps hkeeps⟩

/-! ## Arithmetic -/

/-- **Arithmetic keeps expressions current**, in the table that it does not change. -/
def currentFamily (t : DefinitionTable) : Family where
  Fits e := e.isCurrent t = true
  Holds k := k.table = t ∧ k.IsCurrent
  number _ := rfl
  operand _ h := Expr.isCurrent_operand h
  node {k f ops} hk hf _ _ hops := by
    obtain ⟨rfl, hk⟩ := hk
    exact hk.apply (List.mem_append_left _ hf) hops
  pooled hk _ hx _ := hk.1 ▸ hk.2.pool _ hx
  pooling hk he := ⟨hk.1, hk.2.pooling (hk.1 ▸ he)⟩
  pooling_product hk := ⟨hk.1, hk.2.pooling (hk.2.apply (by decide) (by simp))⟩

instance (t : DefinitionTable) : (currentFamily t).Free where
  power {k a b} hk ha hb := by
    obtain ⟨rfl, hk⟩ := hk
    exact hk.apply (by decide) (by simpa using ⟨ha, hb⟩)

theorem makes_sub {F : Family} [F.Free] {k : Kernel} {a b : Expr} (hk : F.Holds k) (ha : F.Fits a)
    (hb : F.Fits b) : F.Makes Bounded (sub a b) k :=
  (Family.makes_neg hk hb).bind fun _ _ hk' hr => Family.makes_add hk' (by simpa using ⟨ha, hr⟩)

end Kernel

/-! ## Runs -/

/-- The expressions that a declaring, building or arithmetic call is given; `none` for other calls. -/
def Call.given? : Call → Option (List Expr)
  | .declare _ _ | .box _ => some []
  | .add ops | .mul ops => some ops
  | .neg e | .inv e => some [e]
  | .sub a b | .div a b | .pow a b => some [a, b]
  | _ => none

namespace Kernel

/-- The kernels that successful declaring, building and arithmetic calls lead to, as long as arithmetic
is given current expressions. -/
inductive Course (k₀ : Kernel) : Kernel → Prop
  | start : Course k₀ k₀
  | call {k k' : Kernel} {c : Call} {es : List Expr} (h : Course k₀ k) (hc : c.given? = some es)
      (hes : ∀ e ∈ es, e.isCurrent k.table = true) (hrun : (perform c).run.run k = (.ok (), k')) :
      Course k₀ k'

/-- What declaring a name does: a name that had a registration gets another one, and nothing that was
built before is found again. -/
theorem yields_declare (name : String) (declaration : Declaration) (k : Kernel) :
    Yields Anyhow (declare name declaration) k fun _ k' =>
      (∃ d, k'.table = k.table.register name d) ∧ k'.settings = k.settings ∧
        (k'.pool = [] ∨ k'.pool = k.pool ∧ k.table.find? name = none) := by
  have h := declares name declaration k
  unfold Yields
  generalize (declare name declaration).run.run k = r at h ⊢
  cases h with
  | refused f => exact trivial
  | @registered d record _ _ =>
      refine ⟨⟨d, rfl⟩, rfl, ?_⟩
      cases hold : k.table.find? name with
      | none => exact .inr ⟨rfl, rfl⟩
      | some old => exact .inl rfl

namespace IsCurrent

variable {k : Kernel} {e : Expr} {es : List Expr}

theorem declare (hk : k.IsCurrent) (name : String) (declaration : Declaration) :
    Yields Anyhow (Kernel.declare name declaration) k fun _ k' => k'.IsCurrent := by
  refine (yields_declare name declaration k).mono fun _ k' => ?_
  rintro ⟨⟨d, htable⟩, -, hpool⟩
  have hoperators : ∀ f ∈ ownOperators, (k.table.register name d).contains f = true := fun f hf => by
    rw [DefinitionTable.contains_register, hk.operators f hf, Bool.or_true]
  have hsound := hk.sound.register name d
  rcases hpool with hpool | ⟨hpool, hnone⟩
  · exact ⟨htable ▸ hsound, by simp [hpool], htable ▸ hoperators⟩
  · have hnew : k.table.contains name = false := by
      by_contra h
      have := hk.sound name (by simpa using h)
      rw [hnone] at this
      cases this
    have hkeeps := hk.sound.keeps_register hnew d
    refine ⟨htable ▸ hsound, fun x hx => ?_, htable ▸ hoperators⟩
    rw [htable]
    exact Expr.isCurrent_of_keeps hkeeps (hk.pool x (hpool ▸ hx))

/-- What was made in the family of current expressions is current. -/
theorem of_makes {x : Action Expr} (hx : (currentFamily k.table).Makes Bounded x k) :
    Yields Anyhow x k fun e k' => k'.IsCurrent ∧ e.isCurrent k'.table = true :=
  Yields.imp hx (fun _ _ => trivial) fun _ _ h => ⟨h.1.2, h.1.1 ▸ h.2⟩

theorem canonicalize (hk : k.IsCurrent) (he : e.isCurrent k.table = true) :
    Yields Anyhow (Kernel.canonicalize e) k fun r k' =>
      currency.From k k' ∧ r.isCurrent k'.table = true :=
  (currency.canonicalize (fun _ => trivial) (fun _ => trivial) (fun _ => trivial) hk he).yields

theorem canonicalizeAll (hk : k.IsCurrent) (hes : ∀ e ∈ es, e.isCurrent k.table = true) :
    Yields Anyhow (Kernel.canonicalizeAll es) k fun rs k' =>
      currency.From k k' ∧ ∀ r ∈ rs, r.isCurrent k'.table = true :=
  (currency.canonicalizeAll (fun _ => trivial) (fun _ => trivial) (fun _ => trivial) hk hes).yields

/-- Two operands that are brought into canonical form before they are computed with. -/
theorem pair {a b : Expr} {x : Expr → Expr → Action Expr} (hk : k.IsCurrent)
    (hes : ∀ e ∈ [a, b], e.isCurrent k.table = true)
    (hx : ∀ {k a b}, k.IsCurrent → a.isCurrent k.table = true → b.isCurrent k.table = true →
      (currentFamily k.table).Makes Bounded (x a b) k) :
    Yields Anyhow (do
        let a ← Kernel.canonicalize a
        x a (← Kernel.canonicalize b)) k fun e k' => k'.IsCurrent ∧ e.isCurrent k'.table = true :=
  (hk.canonicalize (hes a (by simp))).bind fun a' _ ha =>
    (canonicalize ha.1.holds (ha.1.stands b (hes b (by simp)))).bind fun _ _ hb =>
      of_makes (hx hb.1.holds (hb.1.stands a' ha.2) hb.2)

/-- **Every call of a course leads to a kernel that builds current expressions.** -/
theorem perform (hk : k.IsCurrent) {c : Call} (hc : c.given? = some es)
    (hes : ∀ e ∈ es, e.isCurrent k.table = true) :
    Yields Anyhow (Kernel.perform c) k fun _ k' => k'.IsCurrent := by
  have hdiscard : ∀ {x : Action Expr}, Yields Anyhow x k (fun e k' => k'.IsCurrent ∧
      e.isCurrent k'.table = true) → Yields Anyhow (do let _ ← x) k fun _ k' => k'.IsCurrent :=
    fun hx => hx.bind fun _ _ h => h.1
  cases c with
  | declare name declaration => exact hk.declare name declaration
  | box r => exact hdiscard ((currency.box hk trivial).yields.mono fun _ _ h => ⟨h.1.holds, h.2⟩)
  | add ops =>
      cases hc
      refine hdiscard ((hk.canonicalizeAll hes).bind fun rs k₁ h => of_makes ?_)
      exact Family.makes_add ⟨rfl, h.1.holds⟩ h.2
  | mul ops =>
      cases hc
      refine hdiscard ((hk.canonicalizeAll hes).bind fun rs k₁ h => of_makes ?_)
      exact Family.makes_mul ⟨rfl, h.1.holds⟩ h.2
  | neg e =>
      cases hc
      refine hdiscard ((hk.canonicalize (hes e (by simp))).bind fun r k₁ h => of_makes ?_)
      exact Family.makes_neg ⟨rfl, h.1.holds⟩ h.2
  | inv e =>
      cases hc
      refine hdiscard ((hk.canonicalize (hes e (by simp))).bind fun r k₁ h => of_makes ?_)
      exact Family.makes_inv ⟨rfl, h.1.holds⟩ h.2
  | sub a b =>
      cases hc
      exact hdiscard (hk.pair hes fun hk ha hb => makes_sub ⟨rfl, hk⟩ ha hb)
  | div a b =>
      cases hc
      exact hdiscard (hk.pair hes fun hk ha hb => Family.makes_div ⟨rfl, hk⟩ ha hb)
  | pow a b =>
      cases hc
      exact hdiscard (hk.pair hes fun hk ha hb => Family.makes_pow ⟨rfl, hk⟩ ha hb)
  | _ => cases hc

/-- **Every kernel of a course builds current expressions.** -/
theorem course {k₀ : Kernel} (hk : k₀.IsCurrent) (h : Course k₀ k) : k.IsCurrent := by
  induction h with
  | start => exact hk
  | call _ hc hes hrun ih => exact (ih.perform hc hes).of_run hrun

end IsCurrent

/-! ## New kernels -/

section Library

/-- A kernel in which nothing was built yet. -/
structure IsNew (k : Kernel) : Prop where
  sound : k.table.IsSound
  pool : k.pool = []

/-- What setting the precision does. -/
theorem yields_setPrecision (value : Raw) (k : Kernel) :
    Yields Anyhow (setPrecision value) k fun _ k' => k'.table = k.table ∧ k'.pool = k.pool ∧
      ∀ p : ℕ, value = .int p → k'.settings.precision = p := by
  have h := setsPrecision value k
  unfold Yields
  generalize (setPrecision value).run.run k = r at h ⊢
  cases h with
  | refused text => exact trivial
  | kept h => exact ⟨rfl, rfl, fun p hp => (h p hp).symm⟩
  | changed precision record h => exact ⟨rfl, rfl, fun p hp => (h p hp).symm⟩

theorem yields_setUnit (value : Raw) (k : Kernel) :
    Yields Anyhow (setUnit value) k fun _ k' => k'.table = k.table ∧ k'.pool = k.pool ∧
      k'.settings.precision = k.settings.precision := by
  have h := setsUnit value k
  unfold Yields
  generalize (setUnit value).run.run k = r at h ⊢
  cases h with
  | refused text => exact trivial
  | changed unit => exact ⟨rfl, rfl, rfl⟩

theorem isNew_declareAll : ∀ (library : List (String × Declaration)) (k : Kernel), IsNew k →
    Yields Anyhow (declareAll library) k fun _ k' =>
      IsNew k' ∧ k'.settings.precision = k.settings.precision
  | [], _, hk => ⟨hk, rfl⟩
  | (name, declaration) :: rest, k, hk => by
      refine (yields_declare name declaration k).bind fun _ k' h => ?_
      obtain ⟨⟨d, htable⟩, hsettings, hpool⟩ := h
      rw [← hsettings]
      refine isNew_declareAll rest k' ⟨htable ▸ hk.sound.register name d, ?_⟩
      rcases hpool with h | ⟨h, -⟩
      · exact h
      · rw [h, hk.pool]

/-- **An engine has built nothing when its library is in place**, and has the precision it was asked
for. -/
theorem isNew_configure (precision unit : Raw) (strict : Bool) (library : List (String × Declaration)) :
    Yields Anyhow (configure precision unit strict library) {} fun _ k =>
      IsNew k ∧ ∀ p : ℕ, precision = .int p → k.settings.precision = p := by
  refine (yields_setPrecision precision {}).bind fun _ k₁ h₁ => ?_
  refine (yields_setUnit unit k₁).bind fun _ k₂ h₂ => ?_
  refine Yields.bind (P := fun _ k₃ => IsNew k₃ ∧ k₃.settings.precision = k₁.settings.precision)
    ⟨⟨?_, h₂.2.1.trans h₁.2.1⟩, h₂.2.2⟩ fun _ k₃ h₃ => ?_
  · exact (h₂.1.trans h₁.1) ▸ DefinitionTable.isSound_empty
  · exact (isNew_declareAll library k₃ h₃.1).mono fun _ k h =>
      ⟨h.1, fun p hp => (h.2.trans h₃.2).trans (h₁.2.2 p hp)⟩

end Library

/-! ## The main result -/

/-- **What is boxed carries the definitions of the moment.**  In an engine whose library declares the
operators that the kernel applies by itself, at any moment of any run of declarations, boxing and
arithmetic, what is boxed is current, and has the type that its name gives it then. -/
theorem boxing_current {precision unit : Raw} {strict : Bool} {library : List (String × Declaration)}
    {k₀ k k' : Kernel} {e : Expr} {r : Raw}
    (hlibrary : (configure precision unit strict library).run.run {} = (.ok (), k₀))
    (hoperators : ∀ f ∈ ownOperators, k₀.table.contains f = true)
    (hcourse : Course k₀ k) (hbox : (box r).run.run k = (.ok e, k')) :
    e.isCurrent k'.table = true ∧
      (e.isCanonical = true → e.isWildcard = false → Expr.isWildcardName e.operator = false →
        k'.table.typeOf e = k'.table.typeNow e) := by
  have hnew := ((isNew_configure precision unit strict library).of_run hlibrary).1
  have hk₀ : k₀.IsCurrent := ⟨hnew.sound, by simp [hnew.pool], hoperators⟩
  have he : e.isCurrent k'.table = true :=
    ((currency.box (hk₀.course hcourse) trivial).yields.of_run hbox).2
  exact ⟨he, DefinitionTable.typeOf_eq_typeNow he⟩

/-- A symbol that was met, is declared, and is boxed once more. -/
theorem boxing_current_redeclared : ∃ k k' e,
    Course standard k ∧ (box (.name "x")).run.run k = (.ok e, k') ∧ k'.table.typeOf e = .real := by
  have hstep : ∀ {k : Kernel} {c : Call}, ((perform c).run.run k).1.toOption.isSome = true →
      (perform c).run.run k = (.ok (), k.after [c]) := fun {k c} h => by
    obtain ⟨a, k', hr, -⟩ := run_of_any (x := perform c) (p := fun _ => true) (by simpa using h)
    rw [hr]
    exact congrArg _ (congrArg Prod.snd hr).symm
  have hlibrary : (configure (.name "machine") (.name "rad") true
      (Library.standard.map fun entry => (entry.1, .record entry.2))).run.run {} =
        (.ok (), standard) := by
    obtain ⟨a, k', hr, -⟩ := run_of_any (x := configure (.name "machine") (.name "rad") true
      (Library.standard.map fun entry => (entry.1, .record entry.2))) (k := {}) (p := fun _ => true)
      (by decide +kernel)
    exact hr.trans (congrArg (Prod.mk _) (congrArg Prod.snd hr).symm)
  have hboxed := Course.call (c := .box (.name "x")) (Course.start : Course standard standard) rfl
    (by simp) (hstep (by rw [standard_eq]; decide +kernel))
  have hdeclared := Course.call (c := .declare "x" (.other (.raw (.name "real")))) hboxed rfl (by simp)
    (hstep (by rw [standard_eq]; decide +kernel))
  obtain ⟨e, k', hbox, he⟩ := run_of_any_after (x := box (.name "x"))
    (k := (standard.after [.box (.name "x")]).after [.declare "x" (.other (.raw (.name "real")))])
    (p := fun e k => e.isCanonical && !e.isWildcard && !Expr.isWildcardName e.operator &&
      k.table.typeNow e = .real) (by rw [standard_eq]; decide +kernel)
  simp only [Bool.and_eq_true, Bool.not_eq_true', decide_eq_true_eq] at he
  obtain ⟨⟨⟨hc, hsymbol⟩, hoperator⟩, htype⟩ := he
  have h := boxing_current hlibrary (by rw [standard_eq]; decide +kernel) hdeclared hbox
  exact ⟨_, k', e, hdeclared, hbox, (h.2 hc hsymbol hoperator).trans htype⟩

/-- **A power that was built before its operator was declared stays without a definition.** -/
theorem boxing_after_declaration : ∃ e k,
    (do
      configure (.name "machine") (.name "rad") true []
      let x ← box (.name "x")
      let y ← box (.name "y")
      let _ ← powOf x y
      declare "Power" (.record [("signature", .raw (.name "(number, number) -> number"))])
      box (.list [.name "Power", .name "x", .name "y"])).run.run {} = (.ok e, k) ∧
      e.isApplicationOf "Power" = true ∧ e.definition? = none ∧
      (k.table.functionNumber? "Power").isSome = true ∧ e.isCurrent k.table = false ∧
      k.table.typeOf e = .unknown ∧ k.table.typeNow e = .number := by
  obtain ⟨e, k, hrun, h⟩ := run_of_any_after (k := {}) (p := fun e k =>
    e.isApplicationOf "Power" && e.definition?.isNone && (k.table.functionNumber? "Power").isSome &&
      !e.isCurrent k.table && k.table.typeOf e = .unknown && k.table.typeNow e = .number)
    (x := do
      configure (.name "machine") (.name "rad") true []
      let x ← box (.name "x")
      let y ← box (.name "y")
      let _ ← powOf x y
      declare "Power" (.record [("signature", .raw (.name "(number, number) -> number"))])
      box (.list [.name "Power", .name "x", .name "y"])) (by decide +kernel)
  simp only [Bool.and_eq_true, Bool.not_eq_true', decide_eq_true_eq, Option.isNone_iff_eq_none] at h
  obtain ⟨⟨⟨⟨⟨hsum, hnone⟩, hadd⟩, hstale⟩, htype⟩, hnow⟩ := h
  exact ⟨e, k, hrun, hsum, hnone, hadd, hstale, htype, hnow⟩

end Kernel

end SymbolicAlgebra
