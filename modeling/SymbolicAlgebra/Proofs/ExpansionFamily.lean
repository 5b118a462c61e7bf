import SymbolicAlgebra.Proofs.ExpansionValue
import SymbolicAlgebra.Proofs.Family

/-!
# Proofs/ExpansionFamily — families that expansion does not leave

Expansion stays in a family that has canonical forms and relations, and it runs without end only on
expressions that *stall* (`Family.reports_expand?`).  In a family whose operators have the right
numbers of operands it also keeps track of errors: what it makes of an expression is valid if and
only if the expression is, unless it drops an error with a power whose exponent is zero.
-/

namespace SymbolicAlgebra

/-! ## Where expansion has no end, and what it drops -/

mutual

/-- Whether an expression is a sum of nothing, up to signs. -/
def Expr.isEmptySum : Expr → Bool
  | .application f ops _ _ =>
      if f == "Negate" then firstIsEmptySum ops else f == "Add" && ops.isEmpty
  | _ => false

def Expr.firstIsEmptySum : List Expr → Bool
  | a :: _ => isEmptySum a
  | [] => false

end

mutual

/-- Whether expansion runs without end: at a product of nothing, or at a power of an empty sum. -/
def Expr.stalls : Expr → Bool
  | .application f ops _ _ =>
      if (Relation.ofOperator? f).isSome || f == "Add" then anyStalls ops
      else if f == "Divide" || f == "Negate" then firstStalls ops
      else if f == "Multiply" then ops.isEmpty
      else f == "Power" && powerStalls ops
  | _ => false

def Expr.anyStalls : List Expr → Bool
  | [] => false
  | e :: rest => stalls e || anyStalls rest

def Expr.firstStalls : List Expr → Bool
  | a :: _ => stalls a
  | [] => false

def Expr.powerStalls : List Expr → Bool
  | base :: exponent :: _ =>
      match Kernel.asInteger? exponent with
      | none => false
      | some n => if n = 0 then false else if n.natAbs = 1 then stalls base else isEmptySum base
  | _ => false

end

mutual

/-- Whether expansion meets a power with exponent zero of an invalid base, which it drops. -/
def Expr.hides : Expr → Bool
  | .application f ops _ _ =>
      if (Relation.ofOperator? f).isSome || f == "Add" then anyHides ops
      else if f == "Divide" || f == "Negate" then firstHides ops
      else f == "Power" && powerHides ops
  | _ => false

def Expr.anyHides : List Expr → Bool
  | [] => false
  | e :: rest => hides e || anyHides rest

def Expr.firstHides : List Expr → Bool
  | a :: _ => hides a
  | [] => false

def Expr.powerHides : List Expr → Bool
  | base :: exponent :: _ =>
      match Kernel.asInteger? exponent with
      | none => false
      | some n => if n = 0 then !base.isValid else if n.natAbs = 1 then hides base else false
  | _ => false

end

theorem Expr.stalls_relation {f : String} (h : (Relation.ofOperator? f).isSome = true)
    (ops : List Expr) (d : Option Nat) (c : Bool) :
    (Expr.application f ops d c).stalls = Expr.anyStalls ops := by
  rw [Expr.stalls, if_pos (by simp [h])]

theorem Expr.hides_relation {f : String} (h : (Relation.ofOperator? f).isSome = true)
    (ops : List Expr) (d : Option Nat) (c : Bool) :
    (Expr.application f ops d c).hides = Expr.anyHides ops := by
  rw [Expr.hides, if_pos (by simp [h])]

namespace Kernel

/-! ## Compositions leave no part out -/

/-- The expressions that a composition gives a part. -/
def picked : List Expr → List Nat → List Expr
  | e :: es, k :: ks => if k = 0 then picked es ks else e :: picked es ks
  | _, _ => []

theorem mem_of_mem_picked : ∀ {es : List Expr} {ks : List Nat} {x : Expr}, x ∈ picked es ks → x ∈ es
  | [], _, _, h => by simp [picked] at h
  | _ :: _, [], _, h => by simp [picked] at h
  | e :: es, k :: ks, x, h => by
      rw [picked] at h
      split at h
      next => exact List.mem_cons_of_mem e (mem_of_mem_picked h)
      next =>
        rcases List.mem_cons.1 h with rfl | h
        · exact List.mem_cons_self
        · exact List.mem_cons_of_mem e (mem_of_mem_picked h)

theorem cons_mem_compositions {n total i : Nat} {ks : List Nat} (hi : i ≤ total)
    (hks : ks ∈ compositions (n + 1) (total - i)) : i :: ks ∈ compositions (n + 2) total := by
  rw [compositions, List.mem_flatMap]
  exact ⟨i, List.mem_range.2 (by omega), List.mem_map_of_mem hks⟩

theorem exists_mem_compositions : ∀ n total : Nat, ∃ ks, ks ∈ compositions (n + 1) total
  | 0, total => ⟨[total], by simp [compositions]⟩
  | n + 1, total => by
      obtain ⟨ks, hks⟩ := exists_mem_compositions n total
      exact ⟨0 :: ks, cons_mem_compositions (Nat.zero_le total) hks⟩

/-- **Every expression gets a part in some composition.** -/
theorem exists_picked {n : Nat} (hn : n ≠ 0) : ∀ {es : List Expr} {x : Expr}, x ∈ es →
    ∃ ks ∈ compositions es.length n, x ∈ picked es ks
  | [e], x, h => ⟨[n], by simp [compositions], by simpa [picked, hn] using h⟩
  | e :: e' :: es, x, h => by
      rcases List.mem_cons.1 h with rfl | h
      · obtain ⟨ks, hks⟩ := exists_mem_compositions es.length (n - n)
        exact ⟨n :: ks, cons_mem_compositions le_rfl hks, by simp [picked, hn]⟩
      · obtain ⟨ks, hks, hx⟩ := exists_picked hn h
        exact ⟨0 :: ks, cons_mem_compositions (Nat.zero_le n) hks, by simpa [picked] using hx⟩

theorem all_picked {n : Nat} (hn : n ≠ 0) (es : List Expr) :
    ((compositions es.length n).all fun ks => Expr.allValid (picked es ks)) = Expr.allValid es := by
  rw [Bool.eq_iff_iff, List.all_eq_true]
  simp only [Expr.allValid_iff]
  constructor
  · intro h x hx
    obtain ⟨ks, hks, hxk⟩ := exists_picked hn hx
    exact h ks hks x hxk
  · intro h ks _ x hx
    exact h x (mem_of_mem_picked hx)

namespace Family

variable {F : Family} {E : Fault → Prop} {k : Kernel}

/-! ## Counted families -/

/-- All expressions of the family are canonical, and sums, signs, quotients and powers have the
operands they should have. -/
structure Counted (F : Family) : Prop where
  canonical : ∀ {e}, F.Fits e → e.isCanonical = true
  sum : ∀ {ops d c}, F.Fits (.application "Add" ops d c) → ops ≠ []
  negation : ∀ {ops d c}, F.Fits (.application "Negate" ops d c) → ∃ a, ops = [a]
  quotient : ∀ {ops d c}, F.Fits (.application "Divide" ops d c) → ∃ a b, ops = [a, b]
  power : ∀ {ops d c}, F.Fits (.application "Power" ops d c) → ∃ a b, ops = [a, b]

/-- The action ends in the family or with a fault in `E`; in a counted family, `v` says whether the
result is valid. -/
def Reports (F : Family) (E : Fault → Prop) (a : Action Expr) (k : Kernel) (v : Bool) : Prop :=
  Yields E a k fun r k' => F.Holds k' ∧ F.Fits r ∧ (F.Counted → r.isValid = v)

def ReportsAll (F : Family) (E : Fault → Prop) (a : Action (List Expr)) (k : Kernel) (v : Bool) :
    Prop :=
  Yields E a k fun rs k' =>
    F.Holds k' ∧ (∀ e ∈ rs, F.Fits e) ∧ (F.Counted → Expr.allValid rs = v)

theorem Reports.of_eq {a : Action Expr} {v w : Bool} (h : F.Reports E a k v)
    (hvw : F.Counted → v = w) : F.Reports E a k w :=
  h.mono fun _ _ hr => ⟨hr.1, hr.2.1, fun hc => (hr.2.2 hc).trans (hvw hc)⟩

theorem reports_pure {e : Expr} {v : Bool} (hk : F.Holds k) (he : F.Fits e)
    (hv : F.Counted → e.isValid = v) : F.Reports E (pure e) k v := Yields.pure ⟨hk, he, hv⟩

theorem Reports.bind {a : Action Expr} {f : Expr → Action Expr} {v w : Bool}
    (ha : F.Reports E a k v)
    (hf : ∀ r k', F.Holds k' → F.Fits r → (F.Counted → r.isValid = v) → F.Reports E (f r) k' w) :
    F.Reports E (a >>= f) k w :=
  Yields.bind ha fun r k' h => hf r k' h.1 h.2.1 h.2.2

theorem reportsAll_nil (hk : F.Holds k) : F.ReportsAll E (pure []) k true :=
  Yields.pure ⟨hk, by simp, fun _ => rfl⟩

theorem ReportsAll.cons {a : Action Expr} {b : Action (List Expr)} {v w : Bool}
    (ha : F.Reports E a k v) (hb : ∀ k', F.Holds k' → F.ReportsAll E b k' w) :
    F.ReportsAll E (do let e ← a; return e :: (← b)) k (v && w) :=
  Yields.bind ha fun _ k' hr => Yields.bind (hb k' hr.1) fun _ _ hrs =>
    Yields.pure ⟨hrs.1, List.forall_mem_cons.2 ⟨hr.2.1, hrs.2.1⟩, fun hc => by
      rw [Expr.allValid, hr.2.2 hc, hrs.2.2 hc]⟩

/-- What is made of valid operands is valid; what is made of invalid ones is read off. -/
theorem reports_of_cases {a : Action Expr} {v : Bool}
    (hvalid : v = true → F.valid.Makes E a k) (hinvalid : v = false → F.Reports E a k false) :
    F.Reports E a k v := by
  cases v with
  | true => exact (hvalid rfl).mono fun _ _ h => ⟨h.1, h.2.1, fun _ => h.2.2⟩
  | false => exact hinvalid rfl

theorem reports_apply {f : String} {ops : List Expr} (hk : F.Holds k) (hf : f ∈ plainOperators)
    (hn : isBuiltWith f ops.length = true) (hops : ∀ x ∈ ops, F.Fits x) :
    F.Reports E (apply f ops) k (Expr.allValid ops) :=
  (yields_apply hk (fits_node hk hf hn hops)).mono fun _ _ h => ⟨h.1, h.2.1, fun _ => h.2.2⟩

theorem fits_valid {ops : List Expr} (hops : ∀ e ∈ ops, F.Fits e)
    (hv : Expr.allValid ops = true) : ∀ e ∈ ops, F.valid.Fits e :=
  fun e he => ⟨hops e he, Expr.allValid_iff.1 hv e he⟩

theorem isBuiltWith_length {f : String} {ops : List Expr} (hf : f = "Add" ∨ f = "Multiply")
    (hv : Expr.allValid ops = false) : isBuiltWith f ops.length = true := by
  cases ops with
  | nil => cases hv
  | cons e rest => rcases hf with rfl | rfl <;> rfl

theorem reports_add {ops : List Expr} (hk : F.Holds k) (hops : ∀ e ∈ ops, F.Fits e) :
    F.Reports Bounded (add ops) k (Expr.allValid ops) := by
  refine reports_of_cases (fun hv => makes_add hk (fits_valid hops hv)) fun hv => ?_
  rw [← Expr.allValid_flatten (some "Add")] at hv
  rw [add_eq, if_pos (by rw [hv]; rfl), ← hv]
  exact reports_apply hk (by decide) (isBuiltWith_length (.inl rfl) hv)
    (fits_flatten (by decide) hops)

theorem reports_mul {ops : List Expr} (hk : F.Holds k) (hops : ∀ e ∈ ops, F.Fits e) :
    F.Reports Bounded (mul ops) k (Expr.allValid ops) := by
  refine reports_of_cases (fun hv => makes_mul hk (fits_valid hops hv)) fun hv => ?_
  rw [← Expr.allValid_flatten (some "Multiply")] at hv
  unfold mul
  simp only
  rw [if_pos (by rw [hv]; rfl), ← hv]
  exact reports_apply hk (by decide) (isBuiltWith_length (.inr rfl) hv)
    (fits_flatten (by decide) hops)

theorem reports_neg {e : Expr} (hk : F.Holds k) (he : F.Fits e) :
    F.Reports Bounded (neg e) k e.isValid := by
  refine reports_of_cases (fun hv => makes_neg hk ⟨he, hv⟩) fun hv => ?_
  cases e with
  | number v => cases hv
  | symbol n d c => cases hv
  | error a b x =>
      unfold neg
      exact reports_apply hk (by decide) rfl (by simpa using he)
  | application f ops d c =>
      have hops : Expr.allValid ops = false := hv
      unfold neg
      split
      next hneg =>
        obtain rfl : f = "Negate" := by simpa using hneg
        cases ops with
        | nil => cases hops
        | cons a rest =>
            refine reports_pure hk (F.operand (by decide) he a (by simp)) fun hc => ?_
            obtain ⟨b, hb⟩ := hc.negation he
            obtain ⟨rfl, rfl⟩ := List.cons.inj hb
            rwa [Expr.allValid_singleton] at hops
      next =>
        rw [if_pos (by rw [hops]; rfl)]
        refine (reports_apply hk (by decide) rfl (by simpa using he)).of_eq fun _ => ?_
        rw [Expr.allValid_singleton, hv]

theorem reports_div {a b : Expr} (hk : F.Holds k) (ha : F.Fits a) (hb : F.Fits b) :
    F.Reports Bounded (div a b) k (a.isValid && b.isValid) := by
  refine reports_of_cases (fun hv => ?_) fun hv => ?_
  · rw [Bool.and_eq_true] at hv
    exact makes_div hk ⟨ha, hv.1⟩ ⟨hb, hv.2⟩
  · unfold div divWithin
    rw [if_pos (by rw [hv]; rfl), ← hv, ← Expr.allValid_pair]
    exact reports_apply hk (by decide) rfl (by simpa using ⟨ha, hb⟩)

theorem reports_pow {b e : Expr} (hfree : F.Free ∨ (b.isValid && e.isValid) = true)
    (hk : F.Holds k) (hb : F.Fits b) (he : F.Fits e) :
    F.Reports Bounded (pow b e) k (b.isValid && e.isValid) := by
  refine reports_of_cases (fun hv => ?_) fun hv => ?_
  · rw [Bool.and_eq_true] at hv
    exact makes_pow hk ⟨hb, hv.1⟩ ⟨he, hv.2⟩
  · have hfree : F.Free := hfree.resolve_right (by rw [hv]; decide)
    unfold pow
    rw [if_pos (by rw [hv]; rfl), ← hv, ← Expr.allValid_pair]
    exact (yields_apply hk (Free.power hk hb he)).mono fun _ _ h => ⟨h.1, h.2.1, fun _ => h.2.2⟩

/-- The family has all powers of its expressions, or is counted and has only valid ones. -/
def Tame (F : Family) : Prop :=
  F.Free ∨ F.Counted ∧
    ∀ {ops d c}, F.Fits (.application "Power" ops d c) → Expr.allValid ops = true

/-- Numbers are valid. -/
theorem yields_makeNumber {v : Number} (hk : F.Holds k) :
    Yields E (makeNumber v) k fun n k' => F.Holds k' ∧ F.Fits n ∧ n.isValid = true :=
  (makes_makeNumber (F := F.valid) hk).mono fun _ _ h => ⟨h.1, h.2.1, h.2.2⟩

theorem reports_inv {e : Expr} (hF : F.Tame) (hk : F.Holds k) (he : F.Fits e) :
    F.Reports Bounded (inv e) k e.isValid := by
  refine reports_of_cases (fun hv => makes_inv hk ⟨he, hv⟩) fun hv => ?_
  have h := inverts e
  generalize inv e = a at h ⊢
  cases h with
  | number v => cases hv
  | quotient n d rest i c =>
      have hops := F.operand (by decide) he
      refine (reports_div hk (hops d (by simp)) (hops n (by simp))).of_eq fun hc => ?_
      obtain ⟨x, y, hxy⟩ := hc.quotient he
      obtain rfl : rest = [] := by simpa using (List.cons.inj (List.cons.inj hxy).2).2
      rw [Bool.and_comm, ← Expr.allValid_pair]
      exact hv
  | power b v rest i c =>
      refine Yields.bind (P := fun _ k' => F.Holds k') (yields_number fun _ _ => hk) ?_
      intro w k₁ hk₁
      refine Yields.bind (yields_makeNumber hk₁) fun n k₂ hn => ?_
      have hb := F.operand (by decide) he b (by simp)
      have hfree : F.Free := hF.resolve_right fun h => Bool.false_ne_true (hv.symm.trans (h.2 he))
      refine (reports_pow (.inl hfree) hn.1 hb hn.2.1).of_eq fun hc => ?_
      obtain ⟨y, z, hyz⟩ := hc.power he
      obtain rfl : rest = [] := by simpa using (List.cons.inj (List.cons.inj hyz).2).2
      rw [hn.2.2, ← hv]
      exact (Expr.allValid_pair b (.number v)).symm
  | lacking => exact Yields.throw (by simp)
  | plain =>
      refine Yields.bind (yields_makeNumber hk) fun _ _ hn => ?_
      exact (reports_div hn.1 hn.2.1 he).of_eq fun _ => by rw [hn.2.2, hv]; rfl

/-! ## On expressions in any form -/

/-- What the family needs for expansion: canonical forms, and relations between its expressions. -/
structure Expandable (F : Family) : Prop where
  tame : F.Tame
  canonize : ∀ {k e}, F.Holds k → F.Fits e → F.Makes Bounded (canonicalize e) k
  relation : ∀ {k f ops d c rs}, F.Holds k → (Relation.ofOperator? f).isSome = true →
    F.Fits (.application f ops d c) → (∀ x ∈ rs, F.Fits x) →
    F.Fits (.application f rs (k.table.functionNumber? f) true)

/-- Canonical expressions have a canonical form. -/
theorem makes_canonicalize_of_isCanonical {e : Expr} (hc : e.isCanonical = true) (hk : F.Holds k)
    (he : F.Fits e) : F.Makes E (canonicalize e) k := by
  rw [canonicalize_of_isCanonical hc]
  exact makes_pure hk he

section Canonical

variable (hF : F.Expandable)

include hF

theorem yields_canonicalize {e : Expr} (hk : F.Holds k) (he : F.Fits e) :
    Yields Bounded (canonicalize e) k fun r k' =>
      F.Holds k' ∧ F.Fits r ∧ (F.Counted → r.isValid = e.isValid) := by
  by_cases hc : F.Counted
  · rw [canonicalize_of_isCanonical (hc.canonical he)]
    exact Yields.pure ⟨hk, he, fun _ => rfl⟩
  · exact (hF.canonize hk he).mono fun _ _ h => ⟨h.1, h.2, fun h => absurd h hc⟩

theorem yields_canonicalizeAll {es : List Expr} (hk : F.Holds k) (hes : ∀ e ∈ es, F.Fits e) :
    F.ReportsAll Bounded (canonicalizeAll es) k (Expr.allValid es) := by
  induction es generalizing k with
  | nil => exact reportsAll_nil hk
  | cons e rest ih =>
      rw [List.forall_mem_cons] at hes
      unfold canonicalizeAll
      exact .cons (yields_canonicalize hF hk hes.1) fun k' hk' => ih hk' hes.2

theorem reports_addOf {ops : List Expr} (hk : F.Holds k) (hops : ∀ e ∈ ops, F.Fits e) :
    F.Reports Bounded (addOf ops) k (Expr.allValid ops) :=
  Yields.bind (yields_canonicalizeAll hF hk hops) fun _ _ h =>
    (reports_add h.1 h.2.1).of_eq h.2.2

theorem reports_mulOf {ops : List Expr} (hk : F.Holds k) (hops : ∀ e ∈ ops, F.Fits e) :
    F.Reports Bounded (mulOf ops) k (Expr.allValid ops) :=
  Yields.bind (yields_canonicalizeAll hF hk hops) fun _ _ h =>
    (reports_mul h.1 h.2.1).of_eq h.2.2

theorem reports_negOf {e : Expr} (hk : F.Holds k) (he : F.Fits e) :
    F.Reports Bounded (negOf e) k e.isValid :=
  Yields.bind (yields_canonicalize hF hk he) fun _ _ h => (reports_neg h.1 h.2.1).of_eq h.2.2

theorem reports_invOf {e : Expr} (hk : F.Holds k) (he : F.Fits e) :
    F.Reports Bounded (invOf e) k e.isValid :=
  Yields.bind (yields_canonicalize hF hk he) fun _ _ h =>
    (reports_inv hF.tame h.1 h.2.1).of_eq h.2.2

theorem reports_divOf {a b : Expr} (hk : F.Holds k) (ha : F.Fits a) (hb : F.Fits b) :
    F.Reports Bounded (divOf a b) k (a.isValid && b.isValid) :=
  Yields.bind (yields_canonicalize hF hk ha) fun _ _ hx =>
    Yields.bind (yields_canonicalize hF hx.1 hb) fun _ _ hy =>
      (reports_div hy.1 hx.2.1 hy.2.1).of_eq fun hc => by rw [hx.2.2 hc, hy.2.2 hc]

theorem reports_powOf {b e : Expr} (hfree : F.Free ∨ F.Counted ∧ (b.isValid && e.isValid) = true)
    (hk : F.Holds k) (hb : F.Fits b) (he : F.Fits e) :
    F.Reports Bounded (powOf b e) k (b.isValid && e.isValid) := by
  refine Yields.bind (yields_canonicalize hF hk hb) fun x _ hx => ?_
  refine Yields.bind (yields_canonicalize hF hx.1 he) fun y _ hy => ?_
  have hvalid : F.Counted → (x.isValid && y.isValid) = (b.isValid && e.isValid) := fun hc => by
    rw [hx.2.2 hc, hy.2.2 hc]
  exact (reports_pow (hfree.imp_right fun h => (hvalid h.1).trans h.2) hy.1 hx.2.1 hy.2.1).of_eq hvalid

end Canonical

/-! ## Distribution -/

theorem yields_givenOperand {x : Option Expr} (hk : F.Holds k) (hx : ∀ e, x = some e → F.Fits e) :
    Yields Bounded (givenOperand x) k fun e k' => F.Holds k' ∧ F.Fits e ∧ x = some e := by
  cases x with
  | none => exact fun h => by cases h
  | some e => exact Yields.pure ⟨hk, hx e rfl, rfl⟩

theorem Counted.valid_negation (hc : F.Counted) {a : Expr} {rest : List Expr} {d : Option Nat}
    {c : Bool} (h : F.Fits (.application "Negate" (a :: rest) d c)) :
    a.isValid = (Expr.application "Negate" (a :: rest) d c).isValid := by
  obtain ⟨b, hb⟩ := hc.negation h
  obtain ⟨rfl, rfl⟩ := List.cons.inj hb
  exact (Expr.allValid_singleton a).symm

theorem Counted.valid_quotient (hc : F.Counted) {a b : Expr} {rest : List Expr} {d : Option Nat}
    {c : Bool} (h : F.Fits (.application "Divide" (a :: b :: rest) d c)) :
    (a.isValid && b.isValid) = (Expr.application "Divide" (a :: b :: rest) d c).isValid := by
  obtain ⟨x, y, hxy⟩ := hc.quotient h
  simp only [List.cons.injEq] at hxy
  obtain ⟨rfl, rfl, rfl⟩ := hxy
  exact (Expr.allValid_pair a b).symm

theorem Counted.valid_sum (hc : F.Counted) {ops : List Expr} {d : Option Nat} {c : Bool}
    (h : F.Fits (.application "Add" ops d c)) (v : Bool) :
    (ops.all fun x => x.isValid && v) = ((Expr.application "Add" ops d c).isValid && v) := by
  have hne := hc.sum h
  rw [Expr.isValid, Bool.eq_iff_iff, List.all_eq_true, Bool.and_eq_true, Expr.allValid_iff]
  simp only [Bool.and_eq_true]
  constructor
  · intro hall
    obtain ⟨x, hx⟩ := List.exists_mem_of_ne_nil ops hne
    exact ⟨fun y hy => (hall y hy).1, (hall x hx).2⟩
  · exact fun hv x hx => ⟨hv.1 x hx, hv.2⟩

/-- The action is divided by the second operand of a quotient. -/
theorem Reports.divOf (hF : F.Expandable) {a : Action Expr} {v : Bool} (ha : F.Reports Bounded a k v)
    {x : Option Expr} (hx : ∀ e, x = some e → F.Fits e) {w : Bool}
    (hw : ∀ e, x = some e → F.Counted → (v && e.isValid) = w) :
    F.Reports Bounded (do Kernel.divOf (← a) (← givenOperand x)) k w :=
  ha.bind fun _ _ hk hr hv => Yields.bind (yields_givenOperand hk hx) fun e _ he =>
    (reports_divOf hF he.1 hr he.2.1).of_eq fun hc => by rw [hv hc, hw e he.2.2 hc]

mutual

/-- **Distributing two factors keeps track of their errors.** -/
theorem reports_distribute2 (hF : F.Expandable) {a b : Expr} {k : Kernel} (hk : F.Holds k)
    (ha : F.Fits a) (hb : F.Fits b) :
    F.Reports Bounded (distribute2 a b) k (a.isValid && b.isValid) := by
  have h := distributes a b
  generalize distribute2 a b = z at h ⊢
  cases h with
  | negations x _ _ _ y =>
      have hx := F.operand (by decide) ha x (by simp)
      have hy := F.operand (by decide) hb y (by simp)
      refine (reports_distribute2 hF hk hx hy).of_eq fun hc => ?_
      rw [hc.valid_negation ha, hc.valid_negation hb]
  | ofNegation x =>
      have hx := F.operand (by decide) ha x (by simp)
      refine (reports_distribute2 hF hk hx hb).bind fun r k' hk' hr hv => ?_
      exact (reports_negOf hF hk' hr).of_eq fun hc => by rw [hv hc, hc.valid_negation ha]
  | byNegation _ y =>
      have hy := F.operand (by decide) hb y (by simp)
      refine (reports_distribute2 hF hk ha hy).bind fun r k' hk' hr hv => ?_
      exact (reports_negOf hF hk' hr).of_eq fun hc => by rw [hv hc, hc.valid_negation hb]
  | quotients x v _ _ _ y w =>
      have hops := F.operand (by decide) ha
      have hops' := F.operand (by decide) hb
      have hvw : ∀ e ∈ [v, w], F.Fits e := by simpa using ⟨hops v (by simp), hops' w (by simp)⟩
      refine (reports_mulOf hF hk hvw).bind fun r k₁ hk₁ hr hrv => ?_
      refine (reports_distribute2 hF hk₁ (hops x (by simp)) (hops' y (by simp))).bind
        fun q k₂ hk₂ hq hqv => ?_
      refine (reports_divOf hF hk₂ hq hr).of_eq fun hc => ?_
      rw [hqv hc, hrv hc, Expr.allValid_pair, ← hc.valid_quotient ha, ← hc.valid_quotient hb]
      ac_rfl
  | ofQuotient x rest =>
      have hops := F.operand (by decide) ha
      refine (reports_distribute2 hF hk (hops x (by simp)) hb).divOf hF
        (fun e he => hops e (List.mem_cons_of_mem x (List.mem_of_mem_head? he))) ?_
      rcases rest with _ | ⟨y, rest⟩
      · simp
      · rintro _ ⟨⟩ hc
        rw [← hc.valid_quotient ha]
        ac_rfl
  | byQuotient _ x rest =>
      have hops := F.operand (by decide) hb
      refine (reports_distribute2 hF hk ha (hops x (by simp))).divOf hF
        (fun e he => hops e (List.mem_cons_of_mem x (List.mem_of_mem_head? he))) ?_
      rcases rest with _ | ⟨y, rest⟩
      · simp
      · rintro _ ⟨⟩ hc
        rw [← hc.valid_quotient hb]
        ac_rfl
  | ofSum =>
      refine Yields.bind (reportsAll_distributeLeft hF hk (F.operand (by decide) ha) hb) fun rs k' h => ?_
      exact (reports_addOf hF h.1 h.2.1).of_eq fun hc => by rw [h.2.2 hc, hc.valid_sum ha]
  | bySum =>
      refine Yields.bind (reportsAll_distributeRight hF hk ha (F.operand (by decide) hb)) fun rs k' h => ?_
      exact (reports_addOf hF h.1 h.2.1).of_eq fun hc => by rw [h.2.2 hc, hc.valid_sum hb, Bool.and_comm]
  | lacking _ hf => exact Yields.throw hf
  | plain =>
      refine (reports_mulOf hF hk (by simpa using ⟨ha, hb⟩)).of_eq fun _ => ?_
      rw [Expr.allValid_pair]
termination_by sizeOf a + sizeOf b

theorem reportsAll_distributeLeft (hF : F.Expandable) {es : List Expr} {b : Expr} {k : Kernel}
    (hk : F.Holds k) (hes : ∀ e ∈ es, F.Fits e) (hb : F.Fits b) :
    F.ReportsAll Bounded (distributeLeft es b) k (es.all fun e => e.isValid && b.isValid) := by
  match es, hes with
  | [], _ =>
      rw [distributeLeft]
      exact reportsAll_nil hk
  | e :: rest, hes =>
      rw [List.forall_mem_cons] at hes
      rw [distributeLeft, List.all_cons]
      exact .cons (reports_distribute2 hF hk hes.1 hb) fun k' hk' =>
        reportsAll_distributeLeft hF hk' hes.2 hb
termination_by sizeOf es + sizeOf b

theorem reportsAll_distributeRight (hF : F.Expandable) {a : Expr} {es : List Expr} {k : Kernel}
    (hk : F.Holds k) (ha : F.Fits a) (hes : ∀ e ∈ es, F.Fits e) :
    F.ReportsAll Bounded (distributeRight a es) k (es.all fun e => e.isValid && a.isValid) := by
  match es, hes with
  | [], _ =>
      rw [distributeRight]
      exact reportsAll_nil hk
  | e :: rest, hes =>
      rw [List.forall_mem_cons] at hes
      rw [distributeRight, List.all_cons]
      exact .cons ((reports_distribute2 hF hk ha hes.1).of_eq fun _ => Bool.and_comm _ _)
        fun k' hk' => reportsAll_distributeRight hF hk' ha hes.2
termination_by sizeOf a + sizeOf es

end

theorem Reports.imp {a : Action Expr} {v : Bool} (h : F.Reports Bounded a k v)
    (hE : ∀ f, Bounded f → E f) : F.Reports E a k v := Yields.imp h hE fun _ _ hr => hr

/-- **Distributing a product has an end unless there is nothing to distribute.** -/
theorem reports_distributeProduct (hF : F.Expandable) (hE : ∀ f, Bounded f → E f) : ∀ {es : List Expr} {k : Kernel},
    F.Holds k → (∀ e ∈ es, F.Fits e) → (es = [] → E .unbounded) →
    F.Reports E (distributeProduct es) k (Expr.allValid es)
  | [], k, _, _, h => Yields.throw (h rfl)
  | [a], k, hk, hes, _ => reports_pure hk (hes a (by simp)) fun _ => (Expr.allValid_singleton a).symm
  | a :: b :: rest, k, hk, hes, _ => by
      rw [List.forall_mem_cons] at hes
      refine (reports_distributeProduct hF hE hk hes.2 (by simp)).bind fun r k' hk' hr hv => ?_
      refine ((reports_distribute2 hF hk' hes.1 hr).imp hE).of_eq fun hc => ?_
      rw [hv hc, ← Expr.allValid]

/-! ## Powers of sums -/

theorem reports_termPower (hF : F.Expandable) {e : Expr} {n : Nat}
    (hfree : F.Free ∨ F.Counted ∧ e.isValid = true) (hk : F.Holds k) (he : F.Fits e) :
    F.Reports Bounded (Realm.termPower e n) k e.isValid := by
  rw [Realm.termPower]
  split
  next => exact reports_pure hk he fun _ => rfl
  next =>
    refine Yields.bind (yields_makeNumber hk) fun m k' hm => ?_
    have hvalid : (e.isValid && m.isValid) = e.isValid := by rw [hm.2.2, Bool.and_true]
    exact (reports_powOf hF (by rwa [hvalid]) hm.1 he hm.2.1).of_eq fun _ => hvalid

theorem reportsAll_termFactors (hF : F.Expandable) : ∀ {es : List Expr} {ks : List Nat} {k : Kernel},
    (F.Free ∨ F.Counted ∧ Expr.allValid es = true) → F.Holds k → (∀ e ∈ es, F.Fits e) →
    F.ReportsAll Bounded (termFactors es ks) k (Expr.allValid (picked es ks))
  | [], _, k, _, hk, _ => reportsAll_nil hk
  | _ :: _, [], k, _, hk, _ => reportsAll_nil hk
  | e :: es, n :: ks, k, hfree, hk, hes => by
      rw [List.forall_mem_cons] at hes
      rw [Expr.allValid, Bool.and_eq_true] at hfree
      have hrest := hfree.imp_right fun h => And.intro h.1 h.2.2
      rw [picked]
      by_cases hn : n = 0
      · rw [termFactors, if_pos hn, if_pos hn]
        exact reportsAll_termFactors hF hrest hk hes.2
      · rw [Realm.termFactors_cons hn, if_neg hn, Expr.allValid]
        have hfirst := hfree.imp_right fun h => And.intro h.1 h.2.1
        exact .cons (reports_termPower hF hfirst hk hes.1) fun k' hk' =>
          reportsAll_termFactors hF hrest hk' hes.2

theorem ends_multinomialFrom : ∀ (rows : Pascal) (n : Int) (ks : List Int) (result : Nat),
    Ends (fun _ => True) (rows.multinomialFrom n ks result)
  | _, _, [], _ => trivial
  | rows, n, i :: ks, result => by
      rw [Pascal.multinomialFrom]
      refine Ends.bind (P := fun _ => True) ?_ fun p _ => ends_multinomialFrom _ _ ks _
      unfold Pascal.choose
      simp only
      split
      next => exact trivial
      next => exact fun h => by cases h

theorem reportsAll_multinomialTerms (hF : F.Expandable) {terms : List Expr}
    (hfree : F.Free ∨ F.Counted ∧ Expr.allValid terms = true) (hterms : ∀ e ∈ terms, F.Fits e) :
    ∀ {kss : List (List Nat)} {rows : Pascal} {k : Kernel}, F.Holds k →
    F.ReportsAll Bounded (multinomialTerms terms kss rows) k
      (kss.all fun ks => Expr.allValid (picked terms ks))
  | [], _, k, hk => reportsAll_nil hk
  | ks :: kss, rows, k, hk => by
      rw [multinomialTerms, List.all_cons]
      refine ((ends_multinomialFrom rows _ _ 1).yields hk).bind fun c k₁ h₁ => ?_
      refine Yields.bind (yields_makeNumber h₁.1) fun m k₂ hm => ?_
      refine Yields.bind (reportsAll_termFactors hF hfree hm.1 hterms) fun rs k₃ hrs => ?_
      have hfits : ∀ e ∈ m :: rs, F.Fits e := List.forall_mem_cons.2 ⟨hm.2.1, hrs.2.1⟩
      refine ReportsAll.cons ((reports_mulOf hF hrs.1 hfits).of_eq fun hc => ?_) fun k' hk' =>
        reportsAll_multinomialTerms hF hfree hterms hk'
      rw [Expr.allValid, hm.2.2, hrs.2.2 hc, Bool.true_and]

/-- The action ends with no expression or in the family, or with a fault in `E`; where `C` holds,
`v` says whether the result is valid. -/
def ReportsOption (F : Family) (E : Fault → Prop) (a : Action (Option Expr)) (k : Kernel) (C : Prop)
    (v : Bool) : Prop :=
  Yields E a k fun o k' => F.Holds k' ∧ ∀ r, o = some r → F.Fits r ∧ (C → r.isValid = v)

theorem reportsOption_none {C : Prop} {v : Bool} (hk : F.Holds k) :
    F.ReportsOption E (pure none) k C v := Yields.pure ⟨hk, by simp⟩

theorem ReportsOption.of_imp {a : Action (Option Expr)} {C D : Prop} {v w : Bool}
    (h : F.ReportsOption E a k C v) (hD : D → C ∧ v = w) : F.ReportsOption E a k D w :=
  h.mono fun _ _ ho =>
    ⟨ho.1, fun r hr => ⟨(ho.2 r hr).1, fun hd => ((ho.2 r hr).2 (hD hd).1).trans (hD hd).2⟩⟩

theorem Reports.some {a : Action Expr} {C : Prop} {v w : Bool} (h : F.Reports E a k v)
    (hC : C → F.Counted ∧ v = w) : F.ReportsOption E (do return some (← a)) k C w :=
  Yields.bind h fun r k' hr => Yields.pure ⟨hr.1, by
    rintro _ ⟨⟩
    exact ⟨hr.2.1, fun hc => (hr.2.2 (hC hc).1).trans (hC hc).2⟩⟩

/-- An operation on what was found, if anything was. -/
theorem ReportsOption.map {a : Action (Option Expr)} {f : Expr → Action Expr} {C D : Prop}
    {v w : Bool} (ha : F.ReportsOption E a k C v)
    (hf : ∀ r k', F.Holds k' → F.Fits r → (C → r.isValid = v) →
      F.ReportsOption E (do return some (← f r)) k' D w) :
    F.ReportsOption E (do
      match ← a with
      | none => return none
      | some r => return some (← f r)) k D w := by
  refine Yields.bind ha fun o k' ho => ?_
  cases o with
  | none => exact reportsOption_none ho.1
  | some r =>
      obtain ⟨hr, hv⟩ := ho.2 r rfl
      exact hf r k' ho.1 hr hv

/-- **Powers of sums have an end unless the sum is empty.** -/
theorem reportsOption_expandHighPower (hF : F.Expandable) (hE : ∀ f, Bounded f → E f) {n : Nat}
    (hn : n ≠ 0) : ∀ {e : Expr} {k : Kernel}, (F.Free ∨ F.Counted ∧ e.isValid = true) →
      F.Holds k → F.Fits e → (e.isEmptySum = true → E .unbounded) →
      F.ReportsOption E (expandHighPower n e) k F.Counted e.isValid
  | e, k, hfree, hk, he, hempty => by
      have h := expandsPower n e
      generalize expandHighPower n e = x at h ⊢
      cases h with
      | negation a =>
          have ha := F.operand (by decide) he a (by simp)
          have hfree' : F.Free ∨ F.Counted ∧ a.isValid = true :=
            hfree.imp_right fun h => ⟨h.1, Expr.allValid_iff.1 h.2 a (by simp)⟩
          refine Yields.bind (reportsOption_expandHighPower hF hE hn hfree' hk ha hempty)
            fun o k' ho => ?_
          cases o with
          | none => exact reportsOption_none ho.1
          | some r =>
              obtain ⟨hr, hv⟩ := ho.2 r rfl
              have hvalid : F.Counted → r.isValid = _ := fun hc =>
                (hv hc).trans (hc.valid_negation he)
              dsimp only
              split
              next =>
                exact Reports.some (reports_pure ho.1 hr fun _ => rfl) fun hc => ⟨hc, hvalid hc⟩
              next =>
                exact ((reports_negOf hF ho.1 hr).imp hE).some fun hc => ⟨hc, hvalid hc⟩
      | sum ops =>
          have hsum : F.Reports Bounded (do
              addOf (← multinomialTerms ops (compositions ops.length n) .initial)) k
              (Expr.allValid ops) := by
            refine Yields.bind (reportsAll_multinomialTerms hF hfree (F.operand (by decide) he) hk) ?_
            intro rs k' hrs
            exact (reports_addOf hF hrs.1 hrs.2.1).of_eq fun hc => by rw [hrs.2.2 hc, all_picked hn]
          rw [← bind_assoc]
          exact (hsum.imp hE).some fun hc => ⟨hc, rfl⟩
      | emptySum => exact hempty rfl
      | lacking => exact hE _ fun h => by cases h
      | other => exact reportsOption_none hk

theorem reportsOption_expandPowerWith (hF : F.Expandable) (hE : ∀ f, Bounded f → E f)
    {expandBase : Action (Option Expr)} {base : Expr} {n : Int} {C : Prop}
    (hfree : F.Free ∨ F.Counted ∧ base.isValid = true) (hk : F.Holds k) (hb : F.Fits base)
    (hbase : n.natAbs = 1 → F.ReportsOption E expandBase k (F.Counted ∧ C) base.isValid)
    (hempty : n ≠ 0 → n.natAbs ≠ 1 → base.isEmptySum = true → E .unbounded) :
    F.ReportsOption E (expandPowerWith expandBase base n) k
      (F.Counted ∧ (n = 0 → base.isValid = true) ∧ (n.natAbs = 1 → C)) base.isValid := by
  by_cases hn : n = 0
  · rw [expandPowerWith, if_pos hn]
    refine Yields.bind (yields_makeNumber (F := F) hk) fun r k' hr => Yields.pure ⟨hr.1, ?_⟩
    rintro _ ⟨⟩
    exact ⟨hr.2.1, fun h => by rw [hr.2.2, h.2.1 hn]⟩
  · rw [Realm.expandPowerWith_eq hn]
    have hmagnitude : F.ReportsOption E (Realm.expandMagnitude expandBase base n) k
        (F.Counted ∧ (n.natAbs = 1 → C)) base.isValid := by
      rw [Realm.expandMagnitude]
      split
      next h1 => exact (hbase h1).of_imp fun hc => ⟨⟨hc.1, hc.2 h1⟩, rfl⟩
      next h1 =>
        exact (reportsOption_expandHighPower hF hE (by omega) hfree hk hb (hempty hn h1)).of_imp
          fun hc => ⟨hc.1, rfl⟩
    refine Yields.bind hmagnitude fun o k' ho => ?_
    unfold Realm.expandSign
    split
    next =>
      refine Yields.pure ⟨ho.1, fun r hr => ⟨(ho.2 r hr).1, fun hc => ?_⟩⟩
      exact (ho.2 r hr).2 ⟨hc.1, hc.2.2⟩
    next =>
      cases o with
      | none => exact reportsOption_none ho.1
      | some r =>
          obtain ⟨hr, hv⟩ := ho.2 r rfl
          exact ((reports_invOf hF ho.1 hr).imp hE).some fun hc => ⟨hc.1, hv ⟨hc.1, hc.2.2⟩⟩

/-! ## Expansion -/

theorem reportsAll_mapM_divOf (hF : F.Expandable) {x : Option Expr}
    (hx : ∀ e, x = some e → F.Fits e) {es : List Expr} (hk : F.Holds k)
    (hes : ∀ e ∈ es, F.Fits e) :
    F.ReportsAll Bounded (es.mapM fun e => do divOf e (← givenOperand x)) k
      (es.all fun e => e.isValid && x.all Expr.isValid) := by
  induction es generalizing k with
  | nil =>
      rw [List.mapM_nil]
      exact reportsAll_nil hk
  | cons e rest ih =>
      rw [List.forall_mem_cons] at hes
      rw [List.mapM_cons, List.all_cons]
      refine .cons ?_ fun k' hk' => ih hk' hes.2
      refine (reports_pure hk hes.1 fun _ => rfl).divOf hF hx fun d hd _ => ?_
      rw [hd]
      rfl

/-- **Dividing an expanded numerator keeps track of errors.** -/
theorem reports_splitQuotient (hF : F.Expandable) {a : Expr} {x : Option Expr} (hk : F.Holds k)
    (ha : F.Fits a) (hx : ∀ e, x = some e → F.Fits e) :
    F.Reports Bounded (splitQuotient a x) k (a.isValid && x.all Expr.isValid) := by
  unfold splitQuotient
  split
  next hadd =>
    cases a with
    | application f ops d c =>
        obtain rfl : f = "Add" := by simpa [Expr.isApplicationOf] using hadd
        have hall := reportsAll_mapM_divOf hF hx hk (F.operand (by decide) ha)
        refine Yields.bind hall fun rs k' hrs => ?_
        exact (reports_addOf hF hrs.1 hrs.2.1).of_eq fun hc => by rw [hrs.2.2 hc, hc.valid_sum ha]
    | _ => cases hadd
  next =>
    refine (reports_pure hk ha fun _ => rfl).divOf hF hx fun d hd _ => ?_
    rw [hd]
    rfl

theorem Counted.valid_fraction (hc : F.Counted) {a : Expr} {rest : List Expr} {d : Option Nat}
    {c : Bool} (h : F.Fits (.application "Divide" (a :: rest) d c)) :
    (a.isValid && rest.head?.all Expr.isValid) =
      (Expr.application "Divide" (a :: rest) d c).isValid := by
  obtain ⟨x, y, hxy⟩ := hc.quotient h
  obtain ⟨rfl, rfl⟩ := List.cons.inj hxy
  exact hc.valid_quotient h

theorem Counted.valid_power (hc : F.Counted) {a b : Expr} {rest : List Expr} {d : Option Nat}
    {c : Bool} (h : F.Fits (.application "Power" (a :: b :: rest) d c)) {n : Int}
    (hn : asInteger? b = some n) :
    a.isValid = (Expr.application "Power" (a :: b :: rest) d c).isValid := by
  obtain ⟨x, y, hxy⟩ := hc.power h
  simp only [List.cons.injEq] at hxy
  obtain ⟨rfl, rfl, rfl⟩ := hxy
  have hb : b.isValid = true := by cases b <;> simp_all [asInteger?, Expr.isValid]
  rw [Expr.isValid, Expr.allValid_pair, hb, Bool.and_true]

/-- The relation of expanded operands. -/
theorem reports_relation (hF : F.Expandable) {f : String} {ops rs : List Expr} {d : Option Nat}
    {c : Bool} (hf : (Relation.ofOperator? f).isSome = true) (hk : F.Holds k)
    (he : F.Fits (.application f ops d c)) (hrs : ∀ e ∈ rs, F.Fits e) :
    F.Reports E (apply f rs) k (Expr.allValid rs) := by
  refine Kernel.yields_apply ((yields_intern hk (hF.relation hk hf he hrs)).mono fun r k' h => ?_)
  refine ⟨h.1, h.2.1, fun _ => ?_⟩
  rcases h.2.2 with hsame | rfl
  · exact Expr.isValid_of_same hsame
  · rfl

/-- The power of an expression whose base expands as it should. -/
theorem reportsOption_power (hF : F.Expandable) (hE : ∀ f, Bounded f → E f) {base exponent : Expr}
    {rest : List Expr} {d : Option Nat} {c : Bool} {n : Int} (hn : asInteger? exponent = some n)
    (hk : F.Holds k) (he : F.Fits (.application "Power" (base :: exponent :: rest) d c))
    (hstall : Expr.powerStalls (base :: exponent :: rest) = true → E .unbounded)
    (hbase : (base.stalls = true → E .unbounded) →
      F.ReportsOption E (expand? base) k (F.Counted ∧ base.hides = false) base.isValid) :
    F.ReportsOption E (expandPowerWith (expand? base) base n) k
      (F.Counted ∧ Expr.powerHides (base :: exponent :: rest) = false)
      (Expr.application "Power" (base :: exponent :: rest) d c).isValid := by
  rw [Expr.powerStalls, hn] at hstall
  rw [Expr.powerHides, hn]
  have hfree : F.Free ∨ F.Counted ∧ base.isValid = true :=
    hF.tame.imp_right fun h => ⟨h.1, Expr.allValid_iff.1 (h.2 he) base (by simp)⟩
  refine (reportsOption_expandPowerWith hF hE (C := base.hides = false) hfree hk
    (F.operand (by decide) he base (by simp)) (fun h1 => ?_) fun h0 h1 h => ?_).of_imp fun hc => ?_
  · exact hbase fun h => hstall (by simp [h1, h, show n ≠ 0 by omega])
  · exact hstall (by simp [h0, h1, h])
  · refine ⟨⟨hc.1, ?_, ?_⟩, hc.1.valid_power he hn⟩
    · rintro rfl
      simpa using hc.2
    · intro h1
      simpa [h1, show n ≠ 0 by omega] using hc.2

mutual

/-- **Expansion stays in the family and has an end unless it stalls.**  In a counted family it gives
valid expressions for valid ones and invalid ones for the others, unless it hides an error. -/
theorem reports_expand? (hF : F.Expandable) (hE : ∀ f, Bounded f → E f) :
    ∀ {e : Expr} {k : Kernel}, F.Holds k → F.Fits e → (e.stalls = true → E .unbounded) →
      F.ReportsOption E (expand? e) k (F.Counted ∧ e.hides = false) e.isValid
  | e, k, hk, he, hstall => by
      have h := expands e
      generalize expand? e = x at h ⊢
      cases h with
      | @relation f _ _ _ hrelation =>
          have htransparent : isTransparent f = true := by simp [isTransparent, hrelation]
          rw [Expr.stalls_relation hrelation] at hstall
          rw [Expr.hides_relation hrelation]
          refine Yields.bind (yields_expandEach hF hE hk (F.operand htransparent he) hstall) ?_
          intro rs k' hrs
          exact (reports_relation hF hrelation hrs.1 he hrs.2.1).some fun hc => ⟨hc.1, hrs.2.2 hc⟩
      | quotient a rest =>
          have hops := F.operand (by decide) he
          refine (reports_expand? hF hE hk (hops a (by simp)) hstall).map fun n k' hk' hn hv => ?_
          have hx : ∀ x, rest.head? = some x → F.Fits x := fun x hx =>
            hops x (List.mem_cons_of_mem a (List.mem_of_mem_head? hx))
          refine ((reports_splitQuotient hF hk' hn hx).imp hE).some fun hc => ⟨hc.1, ?_⟩
          rw [hv hc, hc.1.valid_fraction he]
      | product =>
          have hops := F.operand (by decide) he
          refine (reports_distributeProduct hF hE hk hops fun h => ?_).some fun hc => ⟨hc.1, rfl⟩
          exact hstall (by rw [h]; rfl)
      | sum =>
          refine Yields.bind (yields_expandEach hF hE hk (F.operand (by decide) he) hstall) ?_
          intro rs k' hrs
          exact ((reports_addOf hF hrs.1 hrs.2.1).imp hE).some fun hc => ⟨hc.1, hrs.2.2 hc⟩
      | negation a =>
          have ha := F.operand (by decide) he a (by simp)
          refine (reports_expand? hF hE hk ha hstall).map fun r k' hk' hr hv => ?_
          refine ((reports_negOf hF hk' hr).imp hE).some fun hc => ⟨hc.1, ?_⟩
          rw [hv hc, hc.1.valid_negation he]
      | power base _ _ _ _ hn =>
          exact reportsOption_power hF hE hn hk he hstall fun h =>
            reports_expand? hF hE hk (F.operand (by decide) he base (by simp)) h
      | lacking => exact hE _ fun h => by cases h
      | number | symbol | error | brokenPower | empty | other => exact reportsOption_none hk

theorem yields_expandEach (hF : F.Expandable) (hE : ∀ f, Bounded f → E f) :
    ∀ {es : List Expr} {k : Kernel}, F.Holds k → (∀ e ∈ es, F.Fits e) →
      (Expr.anyStalls es = true → E .unbounded) → Yields E (expandEach es) k fun rs k' =>
        F.Holds k' ∧ (∀ e ∈ rs, F.Fits e) ∧
          (F.Counted ∧ Expr.anyHides es = false → Expr.allValid rs = Expr.allValid es)
  | [], k, hk, _, _ => Yields.pure ⟨hk, by simp, fun _ => rfl⟩
  | e :: rest, k, hk, hes, hstall => by
      rw [List.forall_mem_cons] at hes
      rw [Expr.anyStalls, Bool.or_eq_true] at hstall
      unfold expandEach
      refine Yields.bind (reports_expand? hF hE hk hes.1 fun h => hstall (.inl h)) fun o k₁ ho => ?_
      refine (yields_expandEach hF hE ho.1 hes.2 fun h => hstall (.inr h)).bind fun rs k₂ hrs => ?_
      have hkept : F.Fits (o.getD e) ∧
          (F.Counted ∧ e.hides = false → (o.getD e).isValid = e.isValid) := by
        cases o with
        | none => exact ⟨hes.1, fun _ => rfl⟩
        | some r => exact ho.2 r rfl
      refine Yields.pure ⟨hrs.1, List.forall_mem_cons.2 ⟨hkept.1, hrs.2.1⟩, fun hc => ?_⟩
      rw [Expr.anyHides, Bool.or_eq_false_iff] at hc
      rw [Expr.allValid, hkept.2 ⟨hc.1, hc.2.1⟩, hrs.2.2 ⟨hc.1, hc.2.2⟩, Expr.allValid]

end

end Family

end Kernel

end SymbolicAlgebra
