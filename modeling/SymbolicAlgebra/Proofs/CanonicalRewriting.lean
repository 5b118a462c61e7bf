import SymbolicAlgebra.Proofs.Lasting
import SymbolicAlgebra.Proofs.Marking
import SymbolicAlgebra.Proofs.Matching
import SymbolicAlgebra.Proofs.RootRewriting

/-!
# Proofs/CanonicalRewriting — rewriting in canonical form

An operator that holds its operands back has operands that are not in canonical form, also where it
is in canonical form itself.  A wildcard of a pattern that stands among them is bound to such an
operand (`Pattern.revealed`).  Rewriting builds everything anew, except where a replacement is a
wildcard and nothing else: then what is bound takes the place of the expression as it stands.

`rewriting_canonical` says that rewriting stays in canonical form for rules whose replacement is no
revealed wildcard; `held_operand_revealed` shows a revealed one.
-/

open SymbolicAlgebra.Expr

namespace SymbolicAlgebra

variable {lazy : String → Bool}

namespace Pattern

/-! ## What a match reveals -/

mutual

/-- The wildcards of a pattern that may be bound to something that is not in canonical form: those
in the place of operators, and those among operands that are held back or may be. -/
def revealed (lazy : String → Bool) : Expr → List String
  | .application f ps _ _ =>
      (if isNamed f then [f] else []) ++
        if lazy f || isNamed f then wildcardsAll ps else revealedAll lazy ps
  | _ => []

def revealedAll (lazy : String → Bool) : List Expr → List String
  | [] => []
  | p :: ps => revealed lazy p ++ revealedAll lazy ps

end

/-- Bindings to well-marked expressions, which are canonical except for some wildcards. -/
def BindsWell (lazy : String → Bool) (except : List String) (b : Bindings) : Prop :=
  ∀ q ∈ b, q.2.isWellMarked lazy = true ∧ (q.1 ∉ except → q.2.isCanonical = true)

variable {except : List String} {t : DefinitionTable}

theorem BindsWell.add {b : Bindings} {n : String} {e : Expr} (hb : BindsWell lazy except b)
    (he : e.isWellMarked lazy = true) (hn : n ∉ except → e.isCanonical = true) :
    BindsWell lazy except (b ++ [(n, e)]) := by
  intro q hq
  rcases List.mem_append.1 hq with hq | hq
  · exact hb q hq
  · rw [List.mem_singleton.1 hq]
    exact ⟨he, hn⟩

theorem BindsWell.lookup {b : Bindings} {n : String} {e : Expr} (hb : BindsWell lazy except b)
    (h : b.lookup n = some e) :
    e.isWellMarked lazy = true ∧ (n ∉ except → e.isCanonical = true) := by
  obtain ⟨l, l', rfl, -⟩ := List.lookup_eq_some_iff.1 h
  exact hb (n, e) (by simp)

theorem bindsWell_bind? {n : String} {e : Expr} {b b' : Bindings} (hb : BindsWell lazy except b)
    (he : e.isWellMarked lazy = true) (hn : n ≠ "_" → n ∉ except → e.isCanonical = true)
    (h : bind? n e b = some b') : BindsWell lazy except b' := by
  obtain ⟨-, rfl⟩ | ⟨hblank, ⟨-, -, -, rfl⟩ | ⟨-, rfl⟩⟩ := cases_of_bind? h
  · exact hb
  · exact hb
  · exact hb.add he (hn hblank)

theorem isWellMarked_headSymbol (g : String) : (headSymbol t g).isWellMarked lazy = true := by
  unfold headSymbol
  split <;> rfl

theorem bindsWell_matchOperator? {f g : String} {b b' : Bindings} (hb : BindsWell lazy except b)
    (hf : isNamed f = true → f ∈ except) (h : matchOperator? t f g b = some b') :
    BindsWell lazy except b' := by
  obtain ⟨-, -, rfl⟩ | ⟨hnamed, ⟨-, -, -, rfl⟩ | ⟨-, rfl⟩⟩ := cases_of_matchOperator? h
  · exact hb
  · exact hb
  · exact hb.add (isWellMarked_headSymbol g) fun hn => absurd (hf hnamed) hn

/-- An operator that is no wildcard matches itself. -/
theorem eq_of_matchOperator? {f g : String} {b b' : Bindings} (hf : isNamed f = false)
    (h : matchOperator? t f g b = some b') : f = g := by
  obtain ⟨-, hfg, -⟩ | ⟨hnamed, -⟩ := cases_of_matchOperator? h
  · exact hfg
  · rw [hf] at hnamed
    cases hnamed

mutual

/-- **What a match binds is well marked, and canonical where it is not revealed**: of a canonical
expression the revealed wildcards are excepted, of any other one all wildcards are. -/
theorem bindsWell_matchFrom? : ∀ {p e : Expr} {b b' : Bindings}, BindsWell lazy except b →
    e.isWellMarked lazy = true →
    e.isCanonical = true ∧ revealed lazy p ⊆ except ∨ wildcards p ⊆ except →
    matchFrom? t p e b = some b' → BindsWell lazy except b'
  | .symbol n _ _, e, b, b', hb, he, hp, h => by
      obtain ⟨hn, hbind⟩ | ⟨-, -, rfl⟩ := cases_of_symbol h
      · refine bindsWell_bind? hb he (fun hblank hfree => ?_) hbind
        refine hp.elim (·.1) fun hp => absurd (hp ?_) hfree
        rw [wildcards, if_pos (by simp [isNamed, hn, hblank])]
        exact List.mem_singleton_self n
      · exact hb
  | .number v, e, b, b', hb, _, _, h => by
      obtain ⟨-, -, -, rfl⟩ := exists_of_number h
      exact hb
  | .error _ _ _, _, _, _, _, _, _, h => by cases h
  | .application f ps _ _, e, b, b', hb, he, hp, h => by
      obtain ⟨g, es, d, c, b₁, rfl, -, hoperator, hops⟩ := exists_of_application h
      rw [isWellMarked_application] at he
      rw [revealed, wildcards, List.append_subset, List.append_subset] at hp
      have hnamed : isNamed f = true → f ∈ except := fun hf => by
        rw [if_pos hf, List.cons_subset] at hp
        exact hp.elim (·.2.1.1) (·.1.1)
      refine bindsWell_matchAllFrom? (bindsWell_matchOperator? hb hnamed hoperator) he.2 ?_ hops
      -- Operands that are held back are excepted, others are canonical.
      rcases hp with ⟨hc, -, hps⟩ | ⟨-, hps⟩
      · by_cases hheld : (lazy f || isNamed f) = true
        · rw [if_pos hheld] at hps
          exact .inr hps
        · rw [if_neg hheld] at hps
          rw [Bool.not_eq_true, Bool.or_eq_false_iff] at hheld
          obtain rfl := eq_of_matchOperator? hheld.2 hoperator
          exact .inl ⟨he.1 hc hheld.1, hps⟩
      · exact .inr hps

theorem bindsWell_matchAllFrom? : ∀ {ps es : List Expr} {b b' : Bindings},
    BindsWell lazy except b → (∀ e ∈ es, e.isWellMarked lazy = true) →
    (∀ e ∈ es, e.isCanonical = true) ∧ revealedAll lazy ps ⊆ except ∨ wildcardsAll ps ⊆ except →
    matchAllFrom? t ps es b = some b' → BindsWell lazy except b'
  | [], _, b, b', hb, _, _, h => by
      cases h
      exact hb
  | _ :: _, [], b, b', hb, _, _, h => by
      cases h
      exact hb
  | p :: ps, e :: es, b, b', hb, hes, hps, h => by
      obtain ⟨b₁, hp, hrest⟩ := exists_of_cons h
      rw [List.forall_mem_cons] at hes
      rw [List.forall_mem_cons, revealedAll, wildcardsAll, List.append_subset,
        List.append_subset] at hps
      have hb₁ := bindsWell_matchFrom? hb hes.1 (hps.imp (fun h => ⟨h.1.1, h.2.1⟩) (·.1)) hp
      exact bindsWell_matchAllFrom? hb₁ hes.2 (hps.imp (fun h => ⟨h.1.2, h.2.2⟩) (·.2)) hrest

end

theorem bindsWell_match? {p e : Expr} {b : Bindings} (he : e.isWellMarked lazy = true)
    (h : match? t p e = some b) :
    (∀ q ∈ b, q.2.isWellMarked lazy = true) ∧
      (e.isCanonical = true → BindsWell lazy (revealed lazy p) b) := by
  have hnone : ∀ {except}, BindsWell lazy except [] := fun _ hq => by cases hq
  refine ⟨fun q hq => ?_, fun hc => ?_⟩
  · exact (bindsWell_matchFrom? hnone he (.inr (List.Subset.refl (wildcards p))) h q hq).1
  · exact bindsWell_matchFrom? hnone he (.inl ⟨hc, List.Subset.refl _⟩) h

end Pattern

/-- **A rule that stays in canonical form**: what it builds is well marked and canonical, and it does
not take out a revealed operand as it stands. -/
structure Rule.KeepsForm (lazy : String → Bool) (r : Rule) : Prop where
  replacement : IsSound lazy r.rhs
  guard : ∀ template, r.guard = some (.holds template) → template.isWellMarked lazy = true
  hidden : ∀ w d c, r.rhs = .symbol w d c → w ∉ Pattern.revealed lazy r.lhs

/-- What an expression is rewritten to: something well marked, and canonical if the expression is. -/
structure Expr.FormKept (lazy : String → Bool) (e r : Expr) : Prop where
  marked : r.isWellMarked lazy = true
  canonical : e.isCanonical = true → r.isCanonical = true

theorem Expr.FormKept.trans {e r s : Expr} (h : FormKept lazy e r) (h' : FormKept lazy r s) :
    FormKept lazy e s := ⟨h'.marked, fun he => h'.canonical (h.canonical he)⟩

namespace Kernel

variable {k : Kernel}

/-! ## Values and truth -/

section Truth

variable (hl : Releases lazy)

include hl

theorem maintains_constant (n : String) : Maintains (WellMarked lazy) (constant n) :=
  Maintains.getTable.bind fun _ => maintains_constantWithin
    (fun r _ hk => (upholds_box hl hk r).forget) (fun _ _ _ hk => hk.of_table rfl fun _ => rfl) _ _

theorem maintains_evaluate (e : Expr) (numeric : Bool) :
    Maintains (WellMarked lazy) (evaluate e numeric) :=
  maintains_evaluateWith (maintains_constant hl) numeric e

theorem maintains_realValue {e : Expr} (he : e.isWellMarked lazy = true) :
    Maintains (WellMarked lazy) (realValue e) := by
  unfold realValue
  split
  next => exact .pure _
  next n _ _ =>
    exact Maintains.getTable.bind fun t => .ite ((maintains_constant hl n).bind fun _ => .pure _) (.pure _)
  next =>
    refine Maintains.getTable.bind fun t => .ite (fun k hk => ?_) (.pure _)
    refine (upholds_canonicalize hl hk he).bind fun r k₁ hk₁ _ => ?_
    exact (maintains_evaluate hl r false).bind (fun _ => .pure _) k₁ hk₁
  next => exact .pure _

theorem maintains_compareValues {a b : Expr} (ha : a.isWellMarked lazy = true)
    (hb : b.isWellMarked lazy = true) : Maintains (WellMarked lazy) (compareValues a b) := by
  have hcompare : Maintains (WellMarked lazy) (compare? a b) := by
    refine (maintains_realValue hl ha).bind fun x => (maintains_realValue hl hb).bind fun y => ?_
    split
    · exact .pure _
    · refine .ite (.pure _) (.ite (Maintains.getTable.bind fun _ => .pure _) (.pure _))
  refine hcompare.bind fun o => ?_
  split
  · exact .pure _
  · refine (maintains_evaluate hl a true).bind fun x => (maintains_evaluate hl b true).bind fun y => ?_
    split
    · exact .pure _
    · exact .pure _

omit hl in
mutual

theorem maintains_isTrue (hl : Releases lazy) : ∀ {e : Expr}, e.isWellMarked lazy = true →
    Maintains (WellMarked lazy) (isTrue e)
  | .number _, _ => by
      unfold isTrue
      exact .pure _
  | .error _ _ _, _ => by
      unfold isTrue
      exact .pure _
  | .symbol _ _ _, _ => by
      unfold isTrue
      exact .pure _
  | .application f ops _ _, he => by
      have hops := (isWellMarked_application.1 he).2
      unfold isTrue
      split
      next r a b h =>
        obtain rfl : ops = [a, b] := by
          unfold relation? at h
          split at h
          · cases h
            rfl
          · cases h
        exact (maintains_compareValues hl (hops a (by simp)) (hops b (by simp))).bind fun _ => .pure _
      next =>
        refine .ite ?_ (.ite ?_ (.pure _))
        · split
          next a _ => exact (maintains_isTrue hl (hops a (by simp))).bind fun _ => .pure _
          next => exact .pure _
        · exact (maintains_areTrue hl hops).bind fun _ => .pure _

theorem maintains_areTrue (hl : Releases lazy) : ∀ {es : List Expr},
    (∀ e ∈ es, e.isWellMarked lazy = true) → Maintains (WellMarked lazy) (areTrue es)
  | [], _ => by
      unfold areTrue
      exact .pure _
  | e :: rest, hes => by
      rw [List.forall_mem_cons] at hes
      unfold areTrue
      exact (maintains_isTrue hl hes.1).bind fun _ => (maintains_areTrue hl hes.2).bind fun _ => .pure _

end

end Truth

/-! ## Substitution -/

section Substitution

variable {b : Bindings}

mutual

/-- **What is put in stays well marked**, and canonical unless a wildcard itself is replaced. -/
theorem upholds_substitute (hl : Releases lazy) (hb : ∀ q ∈ b, q.2.isWellMarked lazy = true) :
    ∀ {x : Expr} {k : Kernel}, WellMarked lazy k → x.isWellMarked lazy = true →
      Upholds (WellMarked lazy) (substitute b x) k fun r _ =>
        r.isWellMarked lazy = true ∧
          (x.isSymbol = false → x.isCanonical = true → r.isCanonical = true)
  | .number v, k, hk, hx => by
      unfold substitute
      exact .pure hk ⟨hx, fun _ h => h⟩
  | .error _ _ _, k, hk, hx => by
      unfold substitute
      exact .pure hk ⟨hx, fun _ h => h⟩
  | .symbol n d c, k, hk, hx => by
      unfold substitute
      refine .pure hk ⟨?_, fun h => by cases h⟩
      split
      next =>
        cases hlookup : b.lookup n with
        | none => exact hx
        | some e =>
            obtain ⟨l, l', rfl, -⟩ := List.lookup_eq_some_iff.1 hlookup
            exact hb (n, e) (by simp)
      next => exact hx
  | .application f ops d c, k, hk, hx => by
      unfold substitute
      refine (upholds_substituteAll hl hb hk (isWellMarked_application.1 hx).2).bind
        fun ops' k₁ hk₁ hops' => ?_
      have hrebuild : ∀ g, Upholds (WellMarked lazy) (rebuild g ops' c) k₁ fun r _ =>
          r.isWellMarked lazy = true ∧ ((Expr.application f ops d c).isSymbol = false →
            (Expr.application f ops d c).isCanonical = true → r.isCanonical = true) := fun g =>
        (upholds_rebuild hl hk₁ g hops' c).mono fun _ _ _ h => ⟨h.1, fun _ => h.2⟩
      simp only
      split
      next g _ => exact hrebuild g
      next =>
        split
        next => exact .pure hk₁ ⟨hx, fun _ h => h⟩
        next => exact hrebuild f

theorem upholds_substituteAll (hl : Releases lazy) (hb : ∀ q ∈ b, q.2.isWellMarked lazy = true) :
    ∀ {xs : List Expr} {k : Kernel}, WellMarked lazy k → (∀ x ∈ xs, x.isWellMarked lazy = true) →
      Upholds (WellMarked lazy) (substituteAll b xs) k fun rs _ =>
        ∀ r ∈ rs, r.isWellMarked lazy = true
  | [], k, hk, _ => by
      unfold substituteAll
      exact .pure hk (by simp)
  | x :: rest, k, hk, hxs => by
      rw [List.forall_mem_cons] at hxs
      unfold substituteAll
      refine (upholds_substitute hl hb hk hxs.1).bind fun r k₁ hk₁ hr => ?_
      refine (upholds_substituteAll hl hb hk₁ hxs.2).bind fun rs k₂ hk₂ hrs => ?_
      exact .pure hk₂ (List.forall_mem_cons.2 ⟨hr.1, hrs⟩)

end

theorem maintains_guardHolds (hl : Releases lazy) (hb : ∀ q ∈ b, q.2.isWellMarked lazy = true)
    {r : Rule} (hr : r.KeepsForm lazy) : Maintains (WellMarked lazy) (guardHolds r b) := by
  have hcheck : ∀ g, r.guard = some g → Maintains (WellMarked lazy) (checkGuard g b) := by
    intro g hg
    unfold checkGuard
    split
    · exact .pure _
    · exact .pure _
    · exact .pure _
    · exact .throw _
    · split
      · exact .pure _
      · exact .throw _
    · intro k hk
      refine (upholds_substitute hl hb hk (hr.guard _ hg)).bind fun x k₁ hk₁ hx => ?_
      refine (upholds_canonicalize hl hk₁ hx.1).bind fun y k₂ hk₂ hy => ?_
      exact (maintains_isTrue hl hy.marked k₂ hk₂).bind fun _ k₃ hk₃ _ => .pure hk₃ trivial
  unfold guardHolds
  split
  next => exact .pure _
  next g hg =>
    exact fun k hk => (hcheck g hg k hk).tryCatch fun f k₁ hk₁ =>
      (maintains_log _ _ _ k₁ hk₁).bind fun _ k₂ hk₂ _ => .pure hk₂ trivial

end Substitution

/-! ## Rewriting -/

section Rewriting

variable {rules : List Rule} {e : Expr} (hl : Releases lazy)

include hl

/-- **One application of a rule** keeps the form. -/
theorem upholds_applyRule (hk : WellMarked lazy k) {r : Rule} (hr : r.KeepsForm lazy)
    (he : e.isWellMarked lazy = true) :
    Upholds (WellMarked lazy) (applyRule r e) k fun o _ => ∀ e', o = some e' → FormKept lazy e e' := by
  unfold applyRule
  refine (Maintains.getTable k hk).bind fun t k₁ hk₁ _ => ?_
  split
  next => exact .pure hk₁ (by simp)
  next b hmatch =>
    obtain ⟨hb, hcanonical⟩ := Pattern.bindsWell_match? he hmatch
    refine (maintains_guardHolds hl hb hr k₁ hk₁).bind fun holds k₂ hk₂ _ => ?_
    split
    next =>
      have hresult : Upholds (WellMarked lazy) (substitute b r.rhs) k₂ fun e' _ =>
          FormKept lazy e e' := by
        have hsubstitute := upholds_substitute hl hb hk₂ hr.replacement.marked
        -- A replacement that is a symbol gives what is bound, or itself.
        cases hrhs : r.rhs with
        | symbol w d c =>
            rw [hrhs] at hsubstitute
            unfold substitute at hsubstitute ⊢
            refine .pure hk₂ ⟨hsubstitute.2.1, fun hc => ?_⟩
            have hcanonical' := hr.replacement.canonical
            rw [hrhs] at hcanonical'
            split
            next =>
              cases hlookup : b.lookup w with
              | none => exact hcanonical'
              | some x => exact ((hcanonical hc).lookup hlookup).2 (hr.hidden w d c hrhs)
            next => exact hcanonical'
        | _ =>
            rw [hrhs] at hsubstitute
            refine hsubstitute.mono fun _ _ _ h => ⟨h.1, fun _ => h.2 rfl ?_⟩
            rw [← hrhs]
            exact hr.replacement.canonical
      refine hresult.bind fun e' k₃ hk₃ he' => ?_
      refine (maintains_log _ _ _ k₃ hk₃).bind fun _ k₄ hk₄ _ => ?_
      exact .pure hk₄ fun _ h => by cases h; exact he'
    next => exact .pure hk₂ (by simp)

theorem upholds_replaceOnce (hk : WellMarked lazy k) (hrules : ∀ r ∈ rules, r.KeepsForm lazy)
    (he : e.isWellMarked lazy = true) :
    Upholds (WellMarked lazy) (replaceOnce rules e) k fun o _ =>
      ∀ e', o = some e' → FormKept lazy e e' := by
  induction rules generalizing k with
  | nil => exact .pure hk (by simp)
  | cons r rest ih =>
      rw [List.forall_mem_cons] at hrules
      unfold replaceOnce
      refine (upholds_applyRule hl hk hrules.1 he).bind fun o k₁ hk₁ ho => ?_
      split
      next e' =>
        split
        next => exact ih hk₁ hrules.2
        next => exact .pure hk₁ ho
      next => exact ih hk₁ hrules.2

/-- What holds of a result after steps that keep the form. -/
abbrev Kept (lazy : String → Bool) (e : Expr) (r : Expr) (k : Kernel) : Prop :=
  WellMarked lazy k ∧ FormKept lazy e r

/-- **Rewriting at the root** keeps the form, whatever the bound. -/
theorem yields_replace_kept (hk : WellMarked lazy k) (hrules : ∀ r ∈ rules, r.KeepsForm lazy)
    (he : e.isWellMarked lazy = true) (bound : Option Int) :
    Yields Anyhow (replace rules bound e) k (Kept lazy e) := by
  refine yields_repeatUntil (I := fun s k' => Kept lazy e s.2 k') trivial ?_ ⟨hk, he, id⟩
  rintro ⟨count, x⟩ k' ⟨hk', hx⟩
  unfold replaceStep
  refine (upholds_replaceOnce hl hk' hrules hx.marked).yields.bind fun o k₁ ho => ?_
  split
  next => exact Yields.pure ⟨ho.1, hx⟩
  next x' =>
    have hx' := hx.trans (ho.2 x' rfl)
    simp only
    split
    next =>
      exact (maintains_log _ _ _ k₁ ho.1).yields.bind fun _ k₂ hk₂ => Yields.pure ⟨hk₂.1, hx'⟩
    next => exact Yields.pure ⟨ho.1, hx'⟩

omit hl in
mutual

/-- **A pass over all subexpressions** keeps the form: operands that are held back are rewritten as
they stand, others in canonical form. -/
theorem yields_replacePass_kept (hl : Releases lazy) (hrules : ∀ r ∈ rules, r.KeepsForm lazy)
    (bound : Option Int) : ∀ {e : Expr} {k : Kernel}, WellMarked lazy k →
      e.isWellMarked lazy = true → Yields Anyhow (replacePass rules bound e) k (Kept lazy e)
  | .number v, k, hk, he => by
      unfold replacePass
      exact yields_replace_kept hl hk hrules he bound
  | .symbol n d c, k, hk, he => by
      unfold replacePass
      exact yields_replace_kept hl hk hrules he bound
  | .error x y z, k, hk, he => by
      unfold replacePass
      exact yields_replace_kept hl hk hrules he bound
  | .application f ops d c, k, hk, he => by
      unfold replacePass
      refine (yields_replacePassAll_kept hl hrules bound hk (isWellMarked_application.1 he).2).bind
        fun ops' k₁ hops' => ?_
      have hreplace : ∀ x k₂, Kept lazy (.application f ops d c) x k₂ →
          Yields Anyhow (replace rules bound x) k₂ (Kept lazy (.application f ops d c)) :=
        fun x k₂ hx => (yields_replace_kept hl hx.1 hrules hx.2.marked bound).mono fun _ _ hr =>
          ⟨hr.1, hx.2.trans hr.2⟩
      split
      next => exact hreplace _ k₁ ⟨hops'.1, he, id⟩
      next =>
        exact (upholds_rebuild hl hops'.1 f hops'.2 c).yields.bind fun x k₂ hx =>
          hreplace x k₂ ⟨hx.1, hx.2.1, hx.2.2⟩

theorem yields_replacePassAll_kept (hl : Releases lazy) (hrules : ∀ r ∈ rules, r.KeepsForm lazy)
    (bound : Option Int) : ∀ {es : List Expr} {k : Kernel}, WellMarked lazy k →
      (∀ e ∈ es, e.isWellMarked lazy = true) →
        Yields Anyhow (replacePassAll rules bound es) k fun rs k' =>
          WellMarked lazy k' ∧ ∀ r ∈ rs, r.isWellMarked lazy = true
  | [], k, hk, _ => by
      unfold replacePassAll
      exact Yields.pure ⟨hk, by simp⟩
  | e :: rest, k, hk, hes => by
      rw [List.forall_mem_cons] at hes
      unfold replacePassAll
      refine (yields_replacePass_kept hl hrules bound hk hes.1).bind fun r k₁ hr => ?_
      refine (yields_replacePassAll_kept hl hrules bound hr.1 hes.2).bind fun rs k₂ hrs => ?_
      exact Yields.pure ⟨hrs.1, List.forall_mem_cons.2 ⟨hr.2.marked, hrs.2⟩⟩

end

/-- **Rewriting everywhere** keeps the form, whatever the bound. -/
theorem yields_replaceAll_kept (hk : WellMarked lazy k) (hrules : ∀ r ∈ rules, r.KeepsForm lazy)
    (he : e.isWellMarked lazy = true) (bound : Option Int) :
    Yields Anyhow (replaceAll rules bound e) k (Kept lazy e) := by
  refine yields_repeatUntil (I := fun s k' => Kept lazy e s.2 k') trivial ?_ ⟨hk, he, id⟩
  rintro ⟨passes, x⟩ k' ⟨hk', hx⟩
  unfold replaceAllStep
  simp only
  split
  next => exact Yields.pure ⟨hk', hx⟩
  next =>
    refine (yields_replacePass_kept hl hrules bound hk' hx.marked).bind fun x' k₁ hx' => ?_
    have htrans := hx.trans hx'.2
    split
    next => exact Yields.pure ⟨hx'.1, htrans⟩
    next => exact Yields.pure ⟨hx'.1, htrans⟩

end Rewriting

/-! ## The main result -/

/-- **Rewriting stays in canonical form.**  In a kernel in which everything is well marked, rules
that build well-marked canonical expressions and take out no revealed operand rewrite canonical
expressions to canonical ones: applied once, at the root, or everywhere, with or without a bound. -/
theorem rewriting_canonical {rules : List Rule} {e : Expr}
    (hl : Releases k.table.holdsOperands)
    (hk : WellMarked k.table.holdsOperands k)
    (hrules : ∀ r ∈ rules, r.KeepsForm k.table.holdsOperands)
    (he : e.isWellMarked k.table.holdsOperands = true) (hcanonical : e.isCanonical = true) :
    (∀ r ∈ rules, ∀ e' k', (applyRule r e).run.run k = (.ok (some e'), k') →
      e'.isCanonical = true) ∧
    (∀ bound e' k', (replace rules bound e).run.run k = (.ok e', k') → e'.isCanonical = true) ∧
    ∀ bound e' k', (replaceAll rules bound e).run.run k = (.ok e', k') → e'.isCanonical = true := by
  refine ⟨fun r hr e' k' hrun => ?_, fun bound e' k' hrun => ?_, fun bound e' k' hrun => ?_⟩
  · have h := (upholds_applyRule hl hk (hrules r hr) he).yields.of_run hrun
    exact (h.2 e' rfl).canonical hcanonical
  · exact ((yields_replace_kept hl hk hrules he bound).of_run hrun).2.canonical hcanonical
  · exact ((yields_replaceAll_kept hl hk hrules he bound).of_run hrun).2.canonical hcanonical

/-- `Foo(_x) => _x`: the operand of `Foo` is canonical. -/
def unwrapFoo : Rule where
  lhs := .application "Foo" [.symbol "_x" none true] none true
  rhs := .symbol "_x" none true

/-- `Hold(1 + 2)`: a canonical expression, whose operand is not. -/
def heldSum : Expr :=
  .application "Hold" [.application "Add" [.number (.ofInt 1), .number (.ofInt 2)] none false]
    none true

/-- `Foo(Hold(1 + 2))`, of which `Hold(1 + 2)` is taken out. -/
theorem rewriting_canonical_unwrapFoo :
    standard.table.holdsOperands "Hold" = true ∧
    unwrapFoo.KeepsForm standard.table.holdsOperands ∧
    (∃ e' k', (applyRule unwrapFoo (.application "Foo" [heldSum] none true)).run.run standard =
      (.ok (some e'), k') ∧ e'.same heldSum = true ∧ e'.isCanonical = true) ∧
    ∃ e' k', (replace [unwrapFoo] none (.application "Foo" [heldSum] none true)).run.run standard =
      (.ok e', k') ∧ e'.isCanonical = true := by
  have hkeeps : ∀ r ∈ [unwrapFoo], r.KeepsForm standard.table.holdsOperands := by
    intro r hr
    obtain rfl := List.mem_singleton.1 hr
    refine ⟨⟨rfl, rfl⟩, fun _ h => (by cases h), fun w d c h => ?_⟩
    cases h
    rw [standard_eq]
    decide +kernel
  obtain ⟨happly, hreplace, -⟩ := rewriting_canonical
    (e := .application "Foo" [heldSum] none true)
    ⟨by rw [standard_eq]; decide +kernel, by rw [standard_eq]; decide +kernel⟩
    (wellMarked_of_isEmpty (List.isEmpty_iff.2 standard_pool)) hkeeps
    (by rw [standard_eq]; decide +kernel) rfl
  refine ⟨by rw [standard_eq]; decide +kernel, hkeeps _ (by simp), ?_, ?_⟩
  · obtain ⟨o, k', hrun, ho⟩ := run_of_any (k := standard)
      (x := applyRule unwrapFoo (.application "Foo" [heldSum] none true))
      (p := Option.any (·.same heldSum)) (by rw [standard_eq]; decide +kernel)
    cases o with
    | none => cases ho
    | some e' => exact ⟨e', k', hrun, ho, happly _ (by simp) e' k' hrun⟩
  · have hpure : ArePure takeOut [unwrapFoo] fun _ _ => True :=
      arePure_takeOut (by decide +kernel) fun _ h => h
    obtain ⟨k', hrun, -⟩ := run_replace (k := standard) (m := 1)
      (e := .application "Foo" [heldSum] none true) hpure trivial
      (Option.isNone_iff_eq_none.1 (by decide +kernel))
    exact ⟨_, k', hrun, hreplace none _ k' hrun⟩

/-- `Hold(_x) => _x`: the operand of `Hold` is held back. -/
def unwrapHold : Rule where
  lhs := .application "Hold" [.symbol "_x" none true] none true
  rhs := .symbol "_x" none true

/-- **A held operand is taken out as it stands**: both sides of `Hold(_x) => _x` are canonical, and so
is `Hold(1 + 2)` as it is built, but not what it is rewritten to. -/
theorem held_operand_revealed :
    unwrapHold.lhs.isCanonical = true ∧ unwrapHold.rhs.isCanonical = true ∧
    ∃ e k e' k', (box (.list [.name "Hold", .list [.name "Add", .int 1, .int 2]])).run.run standard =
        (.ok e, k) ∧ e.isCanonical = true ∧
      (applyRule unwrapHold e).run.run k = (.ok (some e'), k') ∧ e'.isCanonical = false := by
  refine ⟨rfl, rfl, ?_⟩
  obtain ⟨q, k', hrun, hq⟩ := run_of_any (k := standard)
    (x := do
      let e ← box (.list [.name "Hold", .list [.name "Add", .int 1, .int 2]])
      let o ← applyRule unwrapHold e
      return (e, o))
    (p := fun q => q.1.isCanonical && q.2.any fun e' => !e'.isCanonical)
    (by rw [standard_eq]; decide +kernel)
  obtain ⟨e, k, hbox, hrun⟩ := exists_run_of_bind hrun
  obtain ⟨o, k₁, happly, hrun⟩ := exists_run_of_bind hrun
  cases hrun
  cases o with
  | none => simp at hq
  | some e' =>
      rw [Bool.and_eq_true, Option.any_some, Bool.not_eq_true'] at hq
      exact ⟨e, k, e', _, hbox, hq.1, happly, hq.2⟩

end Kernel

end SymbolicAlgebra
