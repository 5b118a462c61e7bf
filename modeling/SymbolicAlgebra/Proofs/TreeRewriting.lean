import SymbolicAlgebra.Proofs.RootRewriting
import SymbolicAlgebra.Proofs.Sameness

/-!
# Proofs/TreeRewriting — rewriting in all places

`replaceAll` makes passes over all parts of an expression until one has no net effect.  What a pass
gives is always left alone by the rules at its root; it may have rewritten a part all the same, if
that was undone further out (`pass_undone`).  That cannot be if rewriting goes down in some order:
then no rule changes any part of the result (`replaceAll_normal`).
-/

namespace SymbolicAlgebra

namespace Expr

/-- `s` is the expression or a part of one of its operands. -/
inductive IsPart (s : Expr) : Expr → Prop
  | self : IsPart s s
  | operand {f : String} {ops : List Expr} {d : Option Nat} {c : Bool} {o : Expr} (ho : o ∈ ops)
      (h : IsPart s o) : IsPart s (.application f ops d c)

theorem exists_same_of_mem {xs ys : List Expr} (h : sameAll xs ys = true) {x : Expr} (hx : x ∈ xs) :
    ∃ y ∈ ys, x.same y = true := by
  induction sameAll_iff_forall₂.1 h with
  | nil => cases hx
  | @cons a b _ _ hab hrest ih =>
      rcases List.mem_cons.1 hx with rfl | hx
      · exact ⟨b, List.mem_cons_self, hab⟩
      · obtain ⟨y, hy, hxy⟩ := ih (sameAll_iff_forall₂.2 hrest) hx
        exact ⟨y, List.mem_cons_of_mem b hy, hxy⟩

/-- Expressions that are the same have the same parts. -/
theorem IsPart.exists_of_same {s e x : Expr} (hs : IsPart s e) (h : e.same x = true) :
    ∃ s', IsPart s' x ∧ s.same s' = true := by
  induction hs generalizing x with
  | self => exact ⟨x, .self, h⟩
  | @operand f ops d c o ho _ ih =>
      cases x with
      | application g ys d' c' =>
          rw [same, Bool.and_eq_true] at h
          obtain ⟨y, hy, hoy⟩ := exists_same_of_mem h.2 ho
          obtain ⟨s', hs', hsame⟩ := ih hoy
          exact ⟨s', .operand hy hs', hsame⟩
      | _ => cases h

theorem eq_of_identity_scalar {a b : Scalar} (h : a.identical b = true) : a = b := by
  cases a <;> cases b <;> simp_all [Scalar.identical, Float.toBits_inj]

mutual

/-- Representations that are identical are equal, whatever numbers occur in them. -/
theorem eq_of_identity : ∀ {e x : Expr}, e.identical x = true → e = x
  | number v, x, h => by
      cases x with
      | number w =>
          cases v <;> cases w <;> simp_all [identical, Number.identical] <;>
            grind [eq_of_identity_scalar]
      | _ => cases h
  | symbol n d c, x, h => by cases x <;> simp_all [identical]
  | error c ds none, x, h => by
      cases x with
      | error c' ds' o => cases o <;> simp_all [identical]
      | _ => cases h
  | error c ds (some y), x, h => by
      cases x with
      | error c' ds' o =>
          cases o with
          | none => simp [identical] at h
          | some z =>
              simp only [identical, Bool.and_eq_true, beq_iff_eq] at h
              rw [h.1.1, h.1.2, eq_of_identity h.2]
      | _ => cases h
  | application f xs d c, x, h => by
      cases x with
      | application g ys d' c' =>
          simp only [identical, Bool.and_eq_true, beq_iff_eq] at h
          rw [h.1.1.1, h.1.1.2, h.1.2, eqAll_of_identity h.2]
      | _ => cases h

theorem eqAll_of_identity : ∀ {es xs : List Expr}, identicalAll es xs = true → es = xs
  | [], [], _ => rfl
  | [], _ :: _, h => by cases h
  | _ :: _, [], h => by cases h
  | e :: es, x :: xs, h => by
      rw [identicalAll, Bool.and_eq_true] at h
      rw [eq_of_identity h.1, eqAll_of_identity h.2]

end

end Expr

namespace Kernel

variable {φ : Rule → Expr → Option Expr} {rules : List Rule} {I : Kernel → Prop} {D : Expr → Prop}
  {α : Type} [PartialOrder α] {μ : Expr → α} {k : Kernel} {e : Expr}

/-! ## What rewriting does not leave -/

/-- Kernels and expressions that taking operands and putting others in their place does not leave. -/
structure IsClosed (I : Kernel → Prop) (D : Expr → Prop) : Prop where
  operand : ∀ {f ops d c}, D (.application f ops d c) → ∀ o ∈ ops, D o
  rebuild : ∀ {k f ops d c ops'}, I k → D (.application f ops d c) → (∀ o ∈ ops', D o) →
    Yields Anyhow (rebuild f ops' c) k fun e k' => I k' ∧ D e

/-- **Rewriting goes down**: `μ` gets smaller with each change that a rule makes, and with each
change of operands unless the outcome is the same again. -/
structure Descends (φ : Rule → Expr → Option Expr) (rules : List Rule) (I : Kernel → Prop)
    (D : Expr → Prop) (μ : Expr → α) : Prop where
  same : ∀ {x y}, x.same y = true → μ x = μ y
  rule : ∀ {r x y}, r ∈ rules → D x → φ r x = some y → y.same x = false → μ y < μ x
  rebuild : ∀ {k f ops d c ops'}, I k → D (.application f ops d c) → (∀ o ∈ ops', D o) →
    List.Forall₂ (fun o' o => μ o' < μ o ∨ o'.same o = true) ops' ops →
      Yields Anyhow (rebuild f ops' c) k fun e _ => μ e < μ (.application f ops d c) ∨
        e.same (.application f ops d c) = true ∧
          List.Forall₂ (fun o' o => o'.same o = true) ops' ops

/-- A predicate that the rules keep is kept along with what they do not leave. -/
theorem ArePure.and {J : Kernel → Expr → Prop} {Q : Expr → Prop} (h : ArePure φ rules J)
    (hQ : ∀ {r k x y}, r ∈ rules → J k x → Q x → φ r x = some y → Q y) :
    ArePure φ rules fun k e => J k e ∧ Q e := by
  intro r hr k e he
  refine (h r hr k e he.1).mono ?_
  rintro _ k' ⟨rfl, hk', hnext⟩
  exact ⟨rfl, ⟨hk', he.2⟩, fun y hy => ⟨hnext y hy, hQ hr he.1 he.2 hy⟩⟩

/-- What comes of rewriting is smaller or the same. -/
theorem Descends.rewritten (h : Descends φ rules I D μ) {x y : Expr} {q : Rule}
    (hq : q ∈ rules) (hx : D x) (hxy : φ q x = some y)
    (hxe : μ x < μ e ∨ x.same e = true) : μ y < μ e ∨ y.same e = true := by
  cases hsame : y.same x with
  | false =>
      have hlt := h.rule hq hx hxy hsame
      exact .inl (hxe.elim hlt.trans fun hxe => h.same hxe ▸ hlt)
  | true => exact hxe.imp (fun hlt => h.same hsame ▸ hlt) (Expr.same_trans hsame)

section Pass

variable (hpure : ArePure φ rules fun k e => I k ∧ D e) (hclosed : IsClosed I D)

include hpure

/-- Rewriting at the root. -/
theorem yields_replace_subsiding (hk : I k) (he : D e) :
    Yields Anyhow (replace rules none e) k fun r k' => (I k' ∧ D r) ∧ changed? φ rules r = none ∧
      (Descends φ rules I D μ → μ r < μ e ∨ r.same e = true) := by
  have hreplace := yields_replace hpure ⟨hk, he⟩
  have hdescends : Descends φ rules I D μ → Yields Anyhow (replace rules none e) k fun r _ =>
      μ r < μ e ∨ r.same e = true := fun hd => by
    have hpure' := hpure.and (Q := fun x => μ x < μ e ∨ x.same e = true)
      fun hr hx hxe hxy => hd.rewritten hr hx.2 hxy hxe
    exact (yields_replace hpure' ⟨⟨hk, he⟩, .inr (Expr.same_refl e)⟩).mono fun r _ h => h.2.1.2
  exact (hreplace.and (yields_of_imp hdescends)).mono fun r k' h => ⟨h.1.2.1, h.1.1, h.2⟩

end Pass

/-! ## Passes -/

/-- Rules that are functions do the same to expressions that are the same. -/
def Respects (φ : Rule → Expr → Option Expr) (rules : List Rule) (D : Expr → Prop) : Prop :=
  ∀ r ∈ rules, ∀ x y, D x → D y → x.same y = true →
    Option.Rel (fun a b => a.same b = true) (φ r x) (φ r y)

theorem Respects.changed? (h : Respects φ rules D) {x y : Expr} (hx : D x) (hy : D y)
    (hxy : x.same y = true) (hnone : changed? φ rules x = none) : changed? φ rules y = none := by
  rw [changed?_eq_none_iff] at hnone ⊢
  intro r hr y' hy'
  have hrel := h r hr x y hx hy hxy
  rw [hy'] at hrel
  cases hx' : φ r x with
  | none =>
      rw [hx'] at hrel
      cases hrel
  | some x' =>
      rw [hx'] at hrel
      cases hrel with
      | some hsame =>
          have hx'x := hnone r hr x' hx'
          exact Expr.same_trans (Expr.same_symm hsame) (Expr.same_trans hx'x hxy)

/-- What a pass makes of an expression: something smaller, or the same, and then no rule changes any
part of it. -/
def Subsides (φ : Rule → Expr → Option Expr) (rules : List Rule) (μ : Expr → α) (e r : Expr) : Prop :=
  μ r < μ e ∨ r.same e = true ∧ ∀ s, s.IsPart e → changed? φ rules s = none

section Subsiding

variable (hrespects : Respects φ rules D)

include hrespects

/-- **One node of a pass**: its operands settle, it is put together again, and rewritten. -/
theorem subsides_node (hd : Descends φ rules I D μ) {f : String} {ops ops' : List Expr}
    {d : Option Nat} {c : Bool} {e₁ r : Expr} (he : D (.application f ops d c)) (hr : D r)
    (hnone : changed? φ rules r = none)
    (hops : List.Forall₂ (fun o' o => Subsides φ rules μ o o') ops' ops)
    (he₁ : μ e₁ < μ (.application f ops d c) ∨ e₁.same (.application f ops d c) = true ∧
      List.Forall₂ (fun o' o => o'.same o = true) ops' ops)
    (hr₁ : μ r < μ e₁ ∨ r.same e₁ = true) : Subsides φ rules μ (.application f ops d c) r := by
  rcases he₁ with hlt | ⟨hsame, hsameAll⟩
  · exact .inl (hr₁.elim hlt.trans' fun h => (hd.same h).trans_lt hlt)
  rcases hr₁ with hlt | hr₁
  · exact .inl (hd.same hsame ▸ hlt)
  have hre := Expr.same_trans hr₁ hsame
  refine .inr ⟨hre, fun s hs => ?_⟩
  cases hs with
  | self => exact hrespects.changed? hr he hre hnone
  | operand ho hs =>
      -- No operand got smaller, because each of them is the same again.
      have hparts : ∀ {xs ys : List Expr}, List.Forall₂ (fun o' o => Subsides φ rules μ o o') xs ys →
          List.Forall₂ (fun o' o => o'.same o = true) xs ys →
          ∀ o ∈ ys, ∀ s, s.IsPart o → Kernel.changed? φ rules s = none := by
        intro xs ys hsubsides hsame
        induction hsubsides with
        | nil => simp
        | @cons x y xs ys hxy _ ih =>
            cases hsame with
            | cons hxy' hrest =>
                refine List.forall_mem_cons.2 ⟨?_, ih hrest⟩
                exact (hxy.resolve_left (hd.same hxy').not_lt).2
      exact hparts hops hsameAll _ ho s hs

/-- A symbol, a number or an error is rewritten as a whole. -/
theorem subsides_leaf {r : Expr} (hleaf : e.isApplication = false) (he : D e) (hr : D r)
    (hnone : changed? φ rules r = none) (hre : μ r < μ e ∨ r.same e = true) :
    Subsides φ rules μ e r := by
  refine hre.imp_right fun hsame => ⟨hsame, fun s hs => ?_⟩
  cases hs with
  | self => exact hrespects.changed? hr he hsame hnone
  | operand => cases hleaf

end Subsiding

theorem yields_replacePass_leaf (hpure : ArePure φ rules fun k e => I k ∧ D e)
    (hleaf : e.isApplication = false) (hk : I k) (he : D e) :
    Yields Anyhow (replacePass rules none e) k fun r k' => (I k' ∧ D r) ∧
      changed? φ rules r = none ∧
      (Descends φ rules I D μ ∧ Respects φ rules D → Subsides φ rules μ e r) := by
  have hpass : replacePass rules none e = replace rules none e := by
    cases e with
    | application => cases hleaf
    | _ => simp [replacePass]
  rw [hpass]
  exact (yields_replace_subsiding hpure hk he).mono fun r k' h =>
    ⟨h.1, h.2.1, fun hd => subsides_leaf hd.2 hleaf he h.1.2 h.2.1 (h.2.2 hd.1)⟩

mutual

/-- **A pass ends with something that no rule changes at its root**, and it subsides if rewriting goes
down. -/
theorem yields_replacePass (hpure : ArePure φ rules fun k e => I k ∧ D e)
    (hclosed : IsClosed I D) (μ : Expr → α) : ∀ {e : Expr} {k : Kernel}, I k → D e →
    Yields Anyhow (replacePass rules none e) k fun r k' => (I k' ∧ D r) ∧
      changed? φ rules r = none ∧
      (Descends φ rules I D μ ∧ Respects φ rules D → Subsides φ rules μ e r)
  | .number _, _, hk, he => yields_replacePass_leaf hpure rfl hk he
  | .symbol _ _ _, _, hk, he => yields_replacePass_leaf hpure rfl hk he
  | .error _ _ _, _, hk, he => yields_replacePass_leaf hpure rfl hk he
  | .application f ops d c, k, hk, he => by
      rw [replacePass]
      refine (yields_replacePassAll hpure hclosed μ hk (hclosed.operand he)).bind ?_
      rintro ops' k₁ ⟨⟨hk₁, hops'⟩, hsubsides⟩
      -- What is put together again is smaller, or the same with the same operands.
      have hrewritten : ∀ {e₁ k₂}, I k₂ → D e₁ →
          (Descends φ rules I D μ ∧ Respects φ rules D →
            μ e₁ < μ (.application f ops d c) ∨ e₁.same (.application f ops d c) = true ∧
              List.Forall₂ (fun o' o => o'.same o = true) ops' ops) →
          Yields Anyhow (replace rules none e₁) k₂ fun r k' => (I k' ∧ D r) ∧
            changed? φ rules r = none ∧ (Descends φ rules I D μ ∧ Respects φ rules D →
              Subsides φ rules μ (.application f ops d c) r) := fun hk₂ he₁ hbuilt =>
        (yields_replace_subsiding hpure hk₂ he₁).mono fun r k' h => ⟨h.1, h.2.1, fun hd =>
          subsides_node hd.2 hd.1 he h.1.2 h.2.1 (hsubsides hd) (hbuilt hd) (h.2.2 hd.1)⟩
      split
      next hidentical =>
        obtain rfl := Expr.eqAll_of_identity hidentical
        exact hrewritten hk₁ he fun _ => .inr ⟨Expr.same_refl _,
          List.forall₂_same.2 fun o _ => Expr.same_refl o⟩
      next =>
        have hbuilt := fun hd : Descends φ rules I D μ ∧ Respects φ rules D =>
          hd.1.rebuild hk₁ he hops' ((hsubsides hd).imp fun _ _ h => h.imp_right And.left)
        refine ((hclosed.rebuild hk₁ he hops').and (yields_of_imp hbuilt)).bind ?_
        rintro e₁ k₂ ⟨⟨hk₂, he₁⟩, hbuilt⟩
        exact hrewritten hk₂ he₁ hbuilt

theorem yields_replacePassAll (hpure : ArePure φ rules fun k e => I k ∧ D e)
    (hclosed : IsClosed I D) (μ : Expr → α) : ∀ {es : List Expr} {k : Kernel}, I k →
    (∀ e ∈ es, D e) →
    Yields Anyhow (replacePassAll rules none es) k fun rs k' => (I k' ∧ ∀ r ∈ rs, D r) ∧
      (Descends φ rules I D μ ∧ Respects φ rules D →
        List.Forall₂ (fun r e => Subsides φ rules μ e r) rs es)
  | [], k, hk, _ => Yields.pure ⟨⟨hk, by simp⟩, fun _ => .nil⟩
  | e :: rest, k, hk, hes => by
      rw [List.forall_mem_cons] at hes
      rw [replacePassAll]
      refine (yields_replacePass hpure hclosed μ hk hes.1).bind ?_
      rintro r k₁ ⟨⟨hk₁, hr⟩, -, hsubsides⟩
      refine (yields_replacePassAll hpure hclosed μ hk₁ hes.2).bind ?_
      rintro rs k₂ ⟨⟨hk₂, hrs⟩, hall⟩
      exact Yields.pure ⟨⟨hk₂, List.forall_mem_cons.2 ⟨hr, hrs⟩⟩, fun hd =>
        .cons (hsubsides hd) (hall hd)⟩

end

theorem IsClosed.part (hclosed : IsClosed I D) {s : Expr} (hs : s.IsPart e) (he : D e) : D s := by
  induction hs with
  | self => exact he
  | operand ho _ ih => exact ih (hclosed.operand he _ ho)

/-- A part that a pass has no net effect on is not changed by any rule. -/
theorem changed?_of_pass (hpure : ArePure φ rules fun k e => I k ∧ D e) (hclosed : IsClosed I D)
    (hrespects : Respects φ rules D) (hk : I k) (he : D e) {r : Expr} {k' : Kernel}
    (hr : (replacePass rules none e).run.run k = (.ok r, k')) (hsame : r.same e = true) :
    changed? φ rules e = none := by
  obtain ⟨⟨-, hDr⟩, hnone, -⟩ :=
    (yields_replacePass hpure hclosed (fun _ => ()) hk he).of_run hr
  exact hrespects.changed? hDr he hsame hnone

/-- **Passes until one has no net effect.** -/
theorem yields_replaceAll (hpure : ArePure φ rules fun k e => I k ∧ D e) (hclosed : IsClosed I D)
    (μ : Expr → α) (hk : I k) (he : D e) :
    Yields Anyhow (replaceAll rules none e) k fun r _ => D r ∧ changed? φ rules r = none ∧
      (Descends φ rules I D μ ∧ Respects φ rules D →
        ∀ s, s.IsPart r → changed? φ rules s = none) := by
  refine yields_repeatUntil (I := fun s k' => I k' ∧ D s.2) trivial ?_ ⟨hk, he⟩
  rintro ⟨passes, e⟩ k ⟨hk, he⟩
  refine (yields_replacePass hpure hclosed μ hk he).bind ?_
  rintro r k' ⟨⟨hk', hr⟩, hnone, hsubsides⟩
  cases hsame : r.same e with
  | false => exact ⟨hk', hr⟩
  | true =>
      refine ⟨hr, hnone, fun hd s hs => ?_⟩
      -- What holds of the parts before the pass holds of those after it.
      obtain ⟨s', hs', hss'⟩ := hs.exists_of_same hsame
      have hnormal := ((hsubsides hd).resolve_left (hd.1.same hsame).not_lt).2 s' hs'
      exact hd.2.changed? (hclosed.part hs' he) (hclosed.part hs hr) (Expr.same_symm hss') hnormal

/-! ## The main result -/

/-- **What rewriting in all places gives is left alone by the rules.**  No rule changes it as a whole,
nor any part that a pass has no net effect on; and no rule changes any part at all, if rewriting goes
down in some order, so that nothing that a pass does is undone in it. -/
theorem replaceAll_normal (hpure : ArePure φ rules fun k e => I k ∧ D e) (hclosed : IsClosed I D)
    (hrespects : Respects φ rules D) (hk : I k) (he : D e) {r : Expr} {k' : Kernel}
    (hr : (replaceAll rules none e).run.run k = (.ok r, k')) :
    (∀ q ∈ rules, ∀ x, φ q r = some x → x.same r = true) ∧
    (∀ s, s.IsPart r → ∀ k₁ s' k₂, I k₁ → (replacePass rules none s).run.run k₁ = (.ok s', k₂) →
      s'.same s = true → ∀ q ∈ rules, ∀ x, φ q s = some x → x.same s = true) ∧
    (Descends φ rules I D μ →
      ∀ s, s.IsPart r → ∀ q ∈ rules, ∀ x, φ q s = some x → x.same s = true) := by
  obtain ⟨hD, hroot, hparts⟩ := (yields_replaceAll hpure hclosed μ hk he).of_run hr
  refine ⟨changed?_eq_none_iff.1 hroot, fun s hs k₁ s' k₂ hk₁ hpass hsame => ?_, fun hd s hs => ?_⟩
  · have hDs := hclosed.part hs hD
    exact changed?_eq_none_iff.1 (changed?_of_pass hpure hclosed hrespects hk₁ hDs hpass hsame)
  · exact changed?_eq_none_iff.1 (hparts ⟨hd, hrespects⟩ s hs)

end Kernel

/-! ## Expressions as they stand -/

namespace Expr

mutual

/-- Whether nothing in an expression is in canonical form; it is put together again as it stands. -/
def isVerbatim : Expr → Bool
  | .application _ ops _ c => !c && allVerbatim ops
  | _ => true

def allVerbatim : List Expr → Bool
  | [] => true
  | e :: rest => isVerbatim e && allVerbatim rest

end

mutual

/-- The number of symbols, numbers, errors and operators in an expression. -/
def nodes : Expr → Nat
  | .application _ ops _ _ => nodesOfAll ops + 1
  | _ => 1

def nodesOfAll : List Expr → Nat
  | [] => 0
  | e :: rest => nodes e + nodesOfAll rest

end

theorem allVerbatim_iff {es : List Expr} : allVerbatim es = true ↔ ∀ e ∈ es, isVerbatim e = true := by
  induction es with
  | nil => simp [allVerbatim]
  | cons e rest ih => simp [allVerbatim, ih]

theorem isVerbatim_application {f : String} {ops : List Expr} {d : Option Nat} {c : Bool} :
    isVerbatim (.application f ops d c) = true ↔ c = false ∧ ∀ o ∈ ops, isVerbatim o = true := by
  rw [isVerbatim, Bool.and_eq_true, Bool.not_eq_true', allVerbatim_iff]

theorem congruence_nodes :
    Congruence (fun x y => nodes x = nodes y) fun xs ys => nodesOfAll xs = nodesOfAll ys where
  number _ := rfl
  symbol := rfl
  application _ h := by rw [nodes, nodes, h]
  error _ := rfl
  nil := rfl
  cons _ hx hxs := by rw [nodesOfAll, nodesOfAll, hx, hxs]

theorem nodes_of_same {x y : Expr} (h : x.same y = true) : nodes x = nodes y :=
  congruence_nodes.of_same h

/-- Operands none of which grew: fewer nodes, or the same operands. -/
theorem nodesOfAll_lt_or_same {xs ys : List Expr}
    (h : List.Forall₂ (fun x y => nodes x < nodes y ∨ x.same y = true) xs ys) :
    nodesOfAll xs < nodesOfAll ys ∨
      sameAll xs ys = true ∧ List.Forall₂ (fun x y => x.same y = true) xs ys := by
  induction h with
  | nil => exact .inr ⟨rfl, .nil⟩
  | @cons x y xs ys hxy _ ih =>
      rw [nodesOfAll, nodesOfAll, sameAll, Bool.and_eq_true]
      rcases ih with hlt | ⟨hall, hforall⟩
      · have hle : nodes x ≤ nodes y := hxy.elim le_of_lt fun h => (nodes_of_same h).le
        exact .inl (by omega)
      · rcases hxy with hlt | hxy
        · have heq := congruence_nodes.of_sameAll hall
          exact .inl (by omega)
        · exact .inr ⟨⟨hxy, hall⟩, .cons hxy hforall⟩

end Expr

namespace Kernel

variable {φ : Rule → Expr → Option Expr} {rules : List Rule} {k : Kernel}

section Verbatim

variable {t : DefinitionTable}

theorem yields_rebuild_verbatim {E : Fault → Prop} (f : String) (ops : List Expr) :
    Yields E (rebuild f ops false) k fun e k' =>
      e = .application f ops (k.table.functionNumber? f) false ∧ k' = k := ⟨rfl, rfl⟩

theorem isClosed_verbatim : IsClosed (fun k => k.table = t) (·.isVerbatim = true) where
  operand := fun h => (Expr.isVerbatim_application.1 h).2
  rebuild := by
    intro k f ops d c ops' hk h hops'
    obtain ⟨rfl, -⟩ := Expr.isVerbatim_application.1 h
    refine (yields_rebuild_verbatim f ops').mono ?_
    rintro _ _ ⟨rfl, rfl⟩
    exact ⟨hk, Expr.isVerbatim_application.2 ⟨rfl, hops'⟩⟩

/-- **Rewriting expressions as they stand goes down if every rule makes them smaller.** -/
theorem descends_verbatim (h : ∀ {r x y}, r ∈ rules → x.isVerbatim = true → φ r x = some y →
      y.same x = false → y.nodes < x.nodes) :
    Descends φ rules (fun k => k.table = t) (·.isVerbatim = true) Expr.nodes where
  same := Expr.nodes_of_same
  rule := h
  rebuild := by
    intro k f ops d c ops' hk he hops' hall
    obtain ⟨rfl, -⟩ := Expr.isVerbatim_application.1 he
    refine (yields_rebuild_verbatim f ops').mono ?_
    rintro _ _ ⟨rfl, rfl⟩
    refine (Expr.nodesOfAll_lt_or_same hall).imp (fun hlt => ?_) fun hsame => ?_
    · rw [Expr.nodes, Expr.nodes]
      omega
    · exact ⟨by rw [Expr.same, hsame.1, beq_self_eq_true]; rfl, hsame.2⟩

/-- What `f(_x) => _x` does. -/
theorem takeOut_dropF {x y : Expr} :
    takeOut dropF x = some y ↔ ∃ d c, x = .application "f" [y] d c := by
  have hf : Expr.isWildcardName "f" = false := by decide +kernel
  have hx : Expr.isWildcardName "_x" = true := by decide +kernel
  cases x with
  | application g es d c =>
      rcases es with _ | ⟨e, _ | ⟨e', rest⟩⟩
      · simp [takeOut, dropF, Pattern.match?, Pattern.matchFrom?]
      · by_cases hg : g = "f"
        · subst hg
          simp [takeOut, dropF, readLeaf, Pattern.match?, Pattern.matchFrom?,
            Pattern.matchAllFrom?, Pattern.matchOperator?, Pattern.bind?, hf, hx]
        · simp [takeOut, dropF, Pattern.match?, Pattern.matchFrom?, Pattern.matchOperator?, hf, hg,
            Ne.symm hg]
      · simp [takeOut, dropF, Pattern.match?, Pattern.matchFrom?]
  | _ => simp [takeOut, dropF, Pattern.match?, Pattern.matchFrom?]

theorem arePure_dropF : ArePure takeOut [dropF] fun k e => k.table = t ∧ e.isVerbatim = true := by
  refine ArePure.and (arePure_takeOut (by decide +kernel) fun _ h => h) ?_
  intro r k x y hr _ hx hxy
  obtain rfl := List.mem_singleton.1 hr
  obtain ⟨d, c, rfl⟩ := takeOut_dropF.1 hxy
  exact (Expr.isVerbatim_application.1 hx).2 y (by simp)

theorem respects_dropF {D : Expr → Prop} : Respects takeOut [dropF] D := by
  intro r hr x x' _ _ hxx'
  obtain rfl := List.mem_singleton.1 hr
  -- Of two expressions that are the same, both have the form or none.
  have htaken : ∀ {x x' y : Expr}, x.same x' = true → takeOut dropF x = some y →
      ∃ y', takeOut dropF x' = some y' ∧ y.same y' = true := by
    intro x x' y hxx' hy
    obtain ⟨d, c, rfl⟩ := takeOut_dropF.1 hy
    cases x' with
    | application g es d' c' =>
        rcases es with _ | ⟨y', _ | ⟨z, rest⟩⟩
        · simp [Expr.same, Expr.sameAll] at hxx'
        · simp only [Expr.same, Expr.sameAll, Bool.and_true, Bool.and_eq_true, beq_iff_eq] at hxx'
          obtain ⟨rfl, hsame⟩ := hxx'
          exact ⟨y', takeOut_dropF.2 ⟨d', c', rfl⟩, hsame⟩
        · simp [Expr.same, Expr.sameAll] at hxx'
    | _ => cases hxx'
  cases hx : takeOut dropF x with
  | some y =>
      obtain ⟨y', hy', hsame⟩ := htaken hxx' hx
      rw [hy']
      exact .some hsame
  | none =>
      cases hx' : takeOut dropF x' with
      | none => exact .none
      | some y' =>
          obtain ⟨y, hy, -⟩ := htaken (Expr.same_symm hxx') hx'
          rw [hx] at hy
          cases hy

theorem descends_dropF :
    Descends takeOut [dropF] (fun k => k.table = t) (·.isVerbatim = true) Expr.nodes := by
  refine descends_verbatim ?_
  intro r x y hr _ hxy _
  obtain rfl := List.mem_singleton.1 hr
  obtain ⟨d, c, rfl⟩ := takeOut_dropF.1 hxy
  simp [Expr.nodes, Expr.nodesOfAll]

/-! ### Runs of passes -/

/-- An operator applied to one operand, as it stands. -/
def held (f : String) (x : Expr) : Expr := .application f [x] none false

/-- A pass makes `r` of `e`, and defines nothing. -/
def PassGives (t : DefinitionTable) (rules : List Rule) (e r : Expr) : Prop :=
  ∀ k : Kernel, k.table = t →
    ∃ k', (replacePass rules none e).run.run k = (.ok r, k') ∧ k'.table = t

theorem passGives_symbol (hpure : ArePure φ rules fun k _ => k.table = t) {n : String}
    {d : Option Nat} {c : Bool} {m : Nat}
    (hm : changed? φ rules ((advance φ rules)^[m] (.symbol n d c)) = none) :
    PassGives t rules (.symbol n d c) ((advance φ rules)^[m] (.symbol n d c)) := by
  intro k hk
  have hpass : replacePass rules none (.symbol n d c) = replace rules none (.symbol n d c) := by
    simp [replacePass]
  rw [hpass]
  exact run_replace hpure hk hm

/-- An operator that is not defined: its operand is put in place as it stands, and it is rewritten. -/
theorem passGives_held (hpure : ArePure φ rules fun k _ => k.table = t) {f : String} {x x' : Expr}
    {m : Nat} (hx : PassGives t rules x x') (hf : t.functionNumber? f = none)
    (hm : changed? φ rules ((advance φ rules)^[m] (held f x')) = none) :
    PassGives t rules (held f x) ((advance φ rules)^[m] (held f x')) := by
  intro k hk
  obtain ⟨k₁, hx, hk₁⟩ := hx k hk
  obtain ⟨k₂, hr, hk₂⟩ := run_replace hpure hk₁ hm
  have hall : (replacePassAll rules none [x]).run.run k = (.ok [x'], k₁) := by
    rw [replacePassAll, run_bind, hx]
    rfl
  refine ⟨k₂, ?_, hk₂⟩
  rw [held, replacePass, run_bind, hall]
  simp only
  split
  next hidentical =>
    obtain rfl : x' = x := by simpa using Expr.eqAll_of_identity hidentical
    exact hr
  next =>
    have hrebuild : (rebuild f [x'] false).run.run k₁ = (.ok (held f x'), k₁) := by
      rw [held, ← hf, ← hk₁]
      rfl
    rw [run_bind, hrebuild]
    exact hr

/-- The last pass. -/
theorem PassGives.last {e r : Expr} (h : PassGives t rules e r) (hsame : r.same e = true)
    (hk : k.table = t) (passes : Nat) :
    ∃ k', outcome? (replaceAllStep rules none) (passes, e) k = some (.ok r, k') := by
  obtain ⟨k', hr, -⟩ := h k hk
  refine ⟨k', outcome?_last ?_⟩
  change (replacePass rules none e >>= fun e' => _).run.run k = _
  rw [run_bind, hr]
  simp only [hsame, if_true]
  rfl

/-- A pass that changes something is followed by another one. -/
theorem PassGives.next {e r : Expr} (h : PassGives t rules e r) (hsame : r.same e = false)
    (hk : k.table = t) (passes : Nat) :
    ∃ k', outcome? (replaceAllStep rules none) (passes, e) k =
      outcome? (replaceAllStep rules none) (passes + 1, r) k' ∧ k'.table = t := by
  obtain ⟨k', hr, hk'⟩ := h k hk
  refine ⟨k', outcome?_next ?_, hk'⟩
  change (replacePass rules none e >>= fun e' => _).run.run k = _
  rw [run_bind, hr]
  simp only [hsame]
  rfl

end Verbatim

/-- `g(f(a))` is rewritten to `g(a)`, of which no rule changes any part. -/
theorem replaceAll_normal_dropF :
    ∃ r k', (replaceAll [dropF] none (held "g" (held "f" (wrapped 0)))).run.run standard =
        (.ok r, k') ∧ r.same (held "g" (wrapped 0)) = true ∧
      ∀ s, s.IsPart r → ∀ q ∈ [dropF], ∀ x, takeOut q s = some x → x.same s = true := by
  have hpure : ArePure takeOut [dropF] fun k _ => k.table = standard.table :=
    arePure_takeOut (by decide +kernel) fun _ h => h
  have ha : PassGives standard.table [dropF] (wrapped 0) (wrapped 0) :=
    passGives_symbol hpure (m := 0) (Option.isNone_iff_eq_none.1 (by decide))
  have hf : PassGives standard.table [dropF] (held "f" (wrapped 0)) (wrapped 0) := by
    have hdrop : (advance takeOut [dropF])^[1] (held "f" (wrapped 0)) = wrapped 0 :=
      Expr.eq_of_identity (by decide +kernel)
    have h := passGives_held hpure ha (m := 1) (f := "f")
      (Option.isNone_iff_eq_none.1 (by rw [standard_eq]; decide +kernel))
      (Option.isNone_iff_eq_none.1 (by decide +kernel))
    rwa [hdrop] at h
  have hg : ∀ {x}, PassGives standard.table [dropF] x (wrapped 0) →
      PassGives standard.table [dropF] (held "g" x) (held "g" (wrapped 0)) := fun hx =>
    passGives_held hpure (m := 0) hx
      (Option.isNone_iff_eq_none.1 (by rw [standard_eq]; decide +kernel))
      (Option.isNone_iff_eq_none.1 (by decide +kernel))
  obtain ⟨k₁, hfirst, hk₁⟩ := (hg hf).next (by decide) rfl 0
  obtain ⟨k₂, hlast⟩ := (hg ha).last (Expr.same_refl _) hk₁ 1
  have hrun : (replaceAll [dropF] none (held "g" (held "f" (wrapped 0)))).run.run standard =
      (.ok (held "g" (wrapped 0)), k₂) := run_repeatUntil (hfirst.trans hlast)
  refine ⟨_, k₂, hrun, Expr.same_refl _, ?_⟩
  exact (replaceAll_normal arePure_dropF isClosed_verbatim respects_dropF rfl (by decide)
    hrun).2.2 descends_dropF

/-- `Foo(q) => Foo(p)`. -/
def fooBack : Rule where
  lhs := .application "Foo" [.symbol "q" none true] none true
  rhs := .application "Foo" [.symbol "p" none true] none true

/-- **A rewrite that is undone**: in `Foo(p)` the rules rewrite `p` to `q`, and `Foo(q)` back to
`Foo(p)`; so the pass has no net effect, and the result has a part that a rule changes. -/
theorem pass_undone :
    ArePure takeOut [pToQ, fooBack] (fun _ _ => True) ∧
    ∃ r k', (replaceAll [pToQ, fooBack] none (held "Foo" (.symbol "p" none false))).run.run
        standard = (.ok r, k') ∧
      ∃ s x, s.IsPart r ∧ takeOut pToQ s = some x ∧ x.same s = false := by
  refine ⟨arePure_takeOut (by decide +kernel) fun _ h => h, ?_⟩
  have hpure : ArePure takeOut [pToQ, fooBack] fun k _ => k.table = standard.table :=
    arePure_takeOut (by decide +kernel) fun _ h => h
  have hp := passGives_symbol hpure (n := "p") (d := none) (c := false) (m := 1)
    (Option.isNone_iff_eq_none.1 (by decide +kernel))
  have hfoo := passGives_held hpure (m := 1) (f := "Foo") hp
    (Option.isNone_iff_eq_none.1 (by rw [standard_eq]; decide +kernel))
    (Option.isNone_iff_eq_none.1 (by decide +kernel))
  have hback : (advance takeOut [pToQ, fooBack])^[1] (held "Foo"
      ((advance takeOut [pToQ, fooBack])^[1] (.symbol "p" none false))) = fooBack.rhs :=
    Expr.eq_of_identity (by decide +kernel)
  rw [hback] at hfoo
  obtain ⟨k', hlast⟩ := hfoo.last (by decide) rfl 0
  refine ⟨_, k', run_repeatUntil hlast, .symbol "p" none true, .symbol "q" none true,
    .operand (by simp) .self, ?_, by decide⟩
  have hp : Expr.isWildcardName "p" = false := by decide +kernel
  have hq : Expr.isWildcardName "q" = false := by decide +kernel
  simp [takeOut, pToQ, readLeaf, Pattern.match?, Pattern.matchFrom?, Expr.symbol?, hp, hq]

end Kernel

end SymbolicAlgebra
