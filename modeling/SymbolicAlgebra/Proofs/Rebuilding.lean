import SymbolicAlgebra.Proofs.Calls
import SymbolicAlgebra.Proofs.Copies
import SymbolicAlgebra.Proofs.Refusal
import SymbolicAlgebra.Proofs.Standard

/-!
# Proofs/Rebuilding — what is printed is built again as it was

In a settled kernel each operator takes its operands again and infers nothing from them.  So building
the shape of a readable expression that rests there ends with a copy of it and changes no definition
(`Kernel.reproduces_box`), by induction over the expression: numbers are folded again from their parts,
operands are rebuilt as copies, and the form and the check of their operator tell no copy from the
original.
-/

namespace SymbolicAlgebra

variable {t : DefinitionTable}

/-! ## Literals as operands -/

namespace Kernel

/-- A function of numbers takes as many literals as it should, and there is nothing to be inferred. -/
theorem accepts_literals {d : FunctionDefinition} {count : Nat} {ops : List Expr}
    (hd : d.takesNumbers count = true) (hlength : ops.length = count)
    (hops : ∀ e ∈ ops, e.isNumber = true) : t.Accepts d ops := by
  simp only [FunctionDefinition.takesNumbers, Bool.and_eq_true, beq_iff_eq] at hd
  obtain ⟨⟨⟨hn, -⟩, hfixed⟩, hcount⟩ := hd
  refine ⟨?_, ?_⟩
  · rw [takes, if_pos hn, Bool.and_eq_true, List.all_eq_true, hfixed, hcount, hlength]
    refine ⟨fun e he => ?_, by simp⟩
    cases e with
    | number v => exact Expr.acceptsNumber_of_takesHead (.refl t) rfl
    | _ => cases hops _ he
  · rw [DefinitionTable.inferences, if_pos hn]
    intro p hp
    obtain ⟨x, hx, rfl⟩ := List.mem_map.1 hp
    obtain ⟨e, he, hx⟩ := List.mem_flatMap.1 hx
    cases e with
    | number v =>
        obtain rfl : x = .number v := by simpa [isCollection, Expr.isApplicationOf] using hx
        rfl
    | _ => cases hops _ he

/-- A function of numbers takes as many as it should. -/
theorem length_of_takes {d : FunctionDefinition} {count : Nat} {ops : List Expr}
    (hd : d.takesNumbers count = true) (h : takes t d ops = true) : ops.length = count := by
  simp only [FunctionDefinition.takesNumbers, Bool.and_eq_true, beq_iff_eq] at hd
  rw [takes, if_pos hd.1.1.1, hd.1.2, hd.2] at h
  simpa using (Bool.and_eq_true_iff.1 h).2

variable {k : Kernel} {x : Action Expr} {e : Expr}

theorem yields_checkNumeric_of_accepts (hk : k.settings.strict = true) {d : FunctionDefinition}
    {count : Nat} {ops : List Expr} (hd : d.takesNumbers count = true) (hlazy : d.isLazy.truthy = false)
    (hflat : Expr.flatten none ops = ops) (h : k.table.Accepts d ops) :
    Yields Never (checkNumeric ops (some count) none) k fun rs k' => rs = ops ∧ k'.table = k.table := by
  rw [← checkOperands_of_takesNumbers hd, hflat]
  exact yields_checkOperands_of_accepts hk hlazy hflat h

/-! ## Reproduction -/

/-- The action gives an expression of the structure of `e`, and changes no definition. -/
def Reproduces (x : Action Expr) (e : Expr) (k : Kernel) : Prop :=
  Yields Never x k fun r k' => e.same r = true ∧ k'.table = k.table

theorem Reproduces.of_table (h : Reproduces x e k) (ht : k.table = t) :
    Yields Never x k fun r k' => e.same r = true ∧ k'.table = t :=
  h.mono fun _ _ h => ⟨h.1, h.2.trans ht⟩

theorem reproduces_intern {x : Expr} (h : e.same x = true) : Reproduces (intern x) e k :=
  yields_intern (fun _ _ hy => ⟨Expr.same_trans h hy, rfl⟩) ⟨h, rfl⟩

theorem reproduces_makeNumber (v : Number) : Reproduces (makeNumber v) (.number v) k :=
  reproduces_intern (Expr.same_refl _)

theorem reproduces_apply {f : String} {ops xs : List Expr} {d : Option Nat} {c : Bool}
    (h : Expr.sameAll ops xs = true) : Reproduces (apply f xs) (.application f ops d c) k :=
  yields_apply (reproduces_intern (by rw [Expr.same, h]; simp))

theorem Reproduces.some (h : Reproduces x e k) (ht : k.table = t) :
    Yields Never (do return some (← x)) k fun o k' =>
      ∃ r, o = some r ∧ e.same r = true ∧ k'.table = t :=
  (h.of_table ht).bind fun r _ hr => Yields.pure ⟨r, rfl, hr⟩

theorem reproduces_boxNumber {r : Raw} {v : Number} (h : ∀ p, Definition.numberOf p r = .ok v) :
    Reproduces (boxNumber r) (.number v) k := by
  unfold boxNumber
  refine Yields.bind (P := fun _ k' => k' = k) rfl ?_
  rintro p k rfl
  refine (yields_ofExcept (P := fun w k' => w = v ∧ k' = k) (fun f hf => ?_) fun w hw => ?_).bind ?_
  · rw [h] at hf
    cases hf
  · rw [h] at hw
    cases hw
    exact ⟨rfl, rfl⟩
  · rintro _ _ ⟨rfl, rfl⟩
    exact reproduces_makeNumber _

theorem reproduces_makeSymbol {n : String} {d : Option Nat} {c : Bool}
    (h : Expr.isWildcardName n = true ∨ k.table.contains n = true) :
    Reproduces (makeSymbol n) (.symbol n d c) k := by
  have hsame : ∀ i, (Expr.symbol n d c).same (.symbol n i true) = true := fun _ => by simp [Expr.same]
  unfold makeSymbol
  split
  next => exact reproduces_intern (hsame _)
  next hwildcard =>
    obtain ⟨i, hi⟩ := Option.isSome_iff_exists.1 (h.resolve_left hwildcard)
    refine Yields.bind (P := fun _ k' => k' = k) ?_ ?_
    · unfold meetSymbol
      refine Yields.bind (P := fun t k' => t = k.table ∧ k' = k) ⟨rfl, rfl⟩ ?_
      rintro _ _ ⟨rfl, rfl⟩
      simp only [hi]
      exact Yields.pure rfl
    · rintro _ _ rfl
      exact reproduces_intern (hsame _)

/-! ## Applying an operator again -/

section Applying

variable {f : String} {d : FunctionDefinition} {ops xs : List Expr}

theorem sameAll_of_copies (h : List.Forall₂ (Expr.Copies t) ops xs) : Expr.sameAll ops xs = true := by
  induction h with
  | nil => rfl
  | cons he _ ih => rw [Expr.sameAll, he.same, ih]; rfl

/-- A form of its own leaves copies of what it left alone as they are. -/
theorem yields_buildForm_copies {form : CanonicalForm} {count : Nat}
    (hform : ownForm? f = some (form, count)) (hlength : xs.length = count)
    (hirreducible : Irreducible f xs)
    (hcheck : Yields Never (checkNumeric xs (some count) none) k fun rs k' =>
      rs = xs ∧ k'.table = k.table)
    (hsame : Expr.sameAll ops xs = true) {i : Option Nat} {c : Bool} :
    Yields Never (buildForm (.canonicalForm form) xs) k fun o k' =>
      ∃ r, o = some r ∧ (Expr.application f ops i c).same r = true ∧ k'.table = k.table := by
  have happly : ∀ {k₁ : Kernel}, k₁.table = k.table →
      Yields Never (do return some (← apply f xs)) k₁ fun o k' =>
        ∃ r, o = some r ∧ (Expr.application f ops i c).same r = true ∧ k'.table = k.table :=
    fun hk₁ => (reproduces_apply hsame).some hk₁
  obtain ⟨step, heq, hstep⟩ := exists_forms (arity?_of_ownForm? hform) xs
  rw [heq]
  refine hcheck.bind ?_
  rintro rs k₁ ⟨rfl, hk₁⟩
  have h := hstep rs
  generalize step rs = x at h ⊢
  obtain ⟨rfl, rfl, rfl⟩ | ⟨rfl, rfl, rfl⟩ | ⟨rfl, rfl, rfl⟩ := ownForm?_cases hform
  · obtain ⟨e, rfl⟩ := List.length_eq_one_iff.1 hlength
    obtain ⟨hnumber, hnegate⟩ := hirreducible.negate rfl e rfl
    cases h with
    | opposite => cases hnumber
    | negated _ _ _ _ hv => exact absurd (Bool.and_eq_true_iff.2 ⟨rfl, hv⟩) (ne_true_of_eq_false hnegate)
    | negation => exact happly hk₁
    | miscounted h => cases h
  · cases h with
    | quotient n d h => exact absurd h (by rw [hirreducible.rational rfl n d rfl]; decide)
    | rational => exact happly hk₁
    | miscounted _ h => exact absurd hlength h
  · cases h with
    | parts x y => exact absurd rfl (hirreducible.complex rfl x y)
    | complex => exact happly hk₁
    | miscounted _ h => exact absurd hlength h

/-- **A function that is applied to copies of its operands is reproduced.** -/
theorem reproduces_applyFunction (hk : k.IsSettled) (hd : k.table.find? f = some (.function d))
    (hlazy : d.isLazy.truthy = false) (hremains : Remains k.table f d ops)
    (hcopies : List.Forall₂ (Expr.Copies k.table) ops xs) {i : Option Nat} {c : Bool} :
    Reproduces (applyFunction f d xs) (.application f ops i c) k := by
  have hsame := sameAll_of_copies hcopies
  have hleaves := flatten_copies hcopies hremains.leaves
  have hflat : Expr.flatten none xs = xs := by rw [← hleaves, Expr.flatten_none_flatten]
  have haccepts := accepts_copies hcopies hk.regular (hremains.accepts _ .refl)
  unfold applyFunction
  rcases FunctionDefinition.hasForm_cases (hk.regular.function hd).form with
    ⟨-, hnone⟩ | ⟨form, count, hform, hown, hnumbers⟩
  · rw [hnone]
    simp only
    rw [applyChecked_eq, hleaves]
    refine (yields_checkOperands_of_accepts hk.strict hlazy hflat haccepts).bind ?_
    rintro _ k₁ ⟨rfl, hk₁⟩
    exact (reproduces_apply hsame).of_table hk₁
  · rw [hown]
    have hcheck := yields_checkNumeric_of_accepts hk.strict hnumbers hlazy hflat haccepts
    refine (yields_buildForm_copies (i := i) (c := c) hform (length_of_takes hnumbers haccepts.takes)
      (irreducible_copies hcopies hremains.irreducible) hcheck hsame).bind ?_
    rintro _ k₁ ⟨r, rfl, hr, hk₁⟩
    exact Yields.pure ⟨hr, hk₁⟩

end Applying

/-! ## Building from shapes again -/

/-- A shape from which an expression at rest in a table is built again, in every settled kernel with that
table. -/
structure Writes (t : DefinitionTable) (r : Raw) (e : Expr) : Prop where
  written : r.isWritten = true
  readable : e.isReadable = true
  rests : e.Rests t
  reproduces : ∀ k : Kernel, k.IsSettled → k.table = t → Reproduces (box r) e k

/-- What is built again is a copy, in a kernel that is settled still. -/
theorem Writes.copies {r : Raw} (h : Writes t r e) (hk : k.IsSettled) (ht : k.table = t) :
    Yields Never (box r) k fun x k' => k'.IsSettled ∧ k'.table = t ∧ e.Copies t x := by
  subst ht
  refine ((h.reproduces k hk rfl).and (settlement.box hk h.written).yields).mono ?_
  rintro x k' ⟨⟨hsame, ht⟩, hfrom, hx⟩
  rw [ht] at hx
  exact ⟨hfrom.holds, ht, hsame, h.readable, h.rests, hx⟩

theorem copies_of_writes {rs : List Raw} {es : List Expr} (h : List.Forall₂ (Writes t) rs es) :
    ∀ {k : Kernel}, k.IsSettled → k.table = t → Yields Never (boxAll rs) k fun xs k' =>
      k'.IsSettled ∧ k'.table = t ∧ List.Forall₂ (Expr.Copies t) es xs := by
  induction h with
  | nil => exact fun hk ht => Yields.pure ⟨hk, ht, .nil⟩
  | cons he _ ih =>
      intro k hk ht
      refine (he.copies hk ht).bind ?_
      rintro x k₁ ⟨hk₁, ht₁, hx⟩
      refine (ih hk₁ ht₁).bind ?_
      rintro xs k₂ ⟨hk₂, ht₂, hxs⟩
      exact Yields.pure ⟨hk₂, ht₂, .cons hx hxs⟩

/-- A function that does not hold its operands back, applied to what is built again. -/
theorem yields_box_function (hk : k.IsSettled) {f : String} (hf : f ≠ "Error")
    {d : FunctionDefinition} (hd : k.table.find? f = some (.function d)) (hlazy : d.isLazy.truthy = false)
    {rs : List Raw} {es : List Expr} (hes : List.Forall₂ (Writes k.table) rs es)
    {P : Expr → Kernel → Prop} (happly : ∀ xs k', k'.IsSettled → k'.table = k.table →
      List.Forall₂ (Expr.Copies k.table) es xs → Yields Never (applyFunction f d xs) k' P) :
    Yields Never (box (.list (.name f :: rs))) k P := by
  have hcontains := DefinitionTable.contains_of_find? hd
  unfold box
  rw [if_neg (by simpa using hf)]
  refine yields_build_of_contains (hk.regular.isWildcardName_eq_false hcontains) hcontains ?_
  rw [hd, applyMet, hlazy, if_neg Bool.false_ne_true]
  refine (copies_of_writes hes hk rfl).bind ?_
  rintro xs k' ⟨hk', ht', hxs⟩
  exact happly xs k' hk' ht' hxs

/-! ### Numbers -/

theorem writes_literal {r : Raw} {v : Number} (hr : r.isWritten = true) (hv : v.isReadable = true)
    (hbox : box r = boxNumber r) (h : ∀ p, Definition.numberOf p r = .ok v) :
    Writes t r (.number v) where
  written := hr
  readable := hv
  rests := ⟨trivial, rfl⟩
  reproduces _ _ _ := hbox ▸ reproduces_boxNumber h

/-- A number that is written as a pair of numbers is folded again. -/
theorem writes_pair {f : String} {form : CanonicalForm} (hf : f ∈ regularOperators)
    (hform : ownForm? f = some (form, 2)) {a b : Raw} {v w z : Number}
    (ha : Writes t a (.number v)) (hb : Writes t b (.number w)) (hz : z.isReadable = true)
    (hwritten : (Raw.list [.name f, a, b]).isWritten = true)
    (hfold : ∀ k : Kernel, Yields Never (checkNumeric [.number v, .number w] (some 2) none) k
        (fun rs k' => rs = [.number v, .number w] ∧ k'.table = k.table) →
      Yields Never (buildForm (.canonicalForm form) [.number v, .number w]) k fun o k' =>
        ∃ r, o = some r ∧ (Expr.number z).same r = true ∧ k'.table = k.table) :
    Writes t (.list [.name f, a, b]) (.number z) where
  written := hwritten
  readable := hz
  rests := ⟨trivial, rfl⟩
  reproduces k hk ht := by
    subst ht
    obtain ⟨d, hd⟩ := hk.regular.exists_function hf
    have hregular := hk.regular.function hd
    rcases FunctionDefinition.hasForm_cases hregular.form with
      ⟨hnone, -⟩ | ⟨form', count, hform', hown, hnumbers⟩
    · rw [hform] at hnone
      cases hnone
    · rw [hform] at hform'
      cases hform'
      have hlazy : d.isLazy.truthy = false := by
        simp only [FunctionDefinition.takesNumbers, Bool.and_eq_true] at hnumbers
        exact hregular.numeric hnumbers.1.1.1
      have herror : f ≠ "Error" := by
        rintro rfl
        exact absurd hf (by decide)
      refine yields_box_function hk herror hd hlazy (.cons ha (.cons hb .nil)) ?_
      rintro xs k' hk' ht' (_ | ⟨hx, _ | ⟨hy, _ | _⟩⟩)
      rw [hx.number_eq, hy.number_eq]
      have haccepts : k'.table.Accepts d [.number v, .number w] :=
        accepts_literals hnumbers rfl (by simp [Expr.isNumber])
      unfold applyFunction
      rw [hown]
      refine (hfold k' (yields_checkNumeric_of_accepts hk'.strict hnumbers hlazy rfl haccepts)).bind ?_
      rintro _ k₂ ⟨r, rfl, hr, ht₂⟩
      exact Yields.pure ⟨hr, ht₂.trans ht'⟩

/-- **A scalar is built again from its shape**, a fraction from its numerator and denominator. -/
theorem writes_scalar {a : Scalar} (ha : a.isReadable = true) :
    Writes t (Expr.scalarRaw a) (.number (.real a)) := by
  have hint : ∀ n : Int, Writes t (.int n) (.number (.ofInt n)) := fun n =>
    writes_literal rfl rfl rfl fun _ => rfl
  cases a with
  | big d p => cases ha
  | machine x => exact writes_literal rfl ha rfl fun _ => rfl
  | exact q =>
      rw [Expr.scalarRaw]
      split
      next hq =>
        have hnum : Number.real (.exact q) = .ofInt q.num := by
          rw [Number.ofInt, Scalar.ofInt, Rat.coe_int_num_of_den_eq_one hq]
        exact hnum ▸ hint q.num
      next =>
        refine writes_pair (by decide) (show ownForm? "Rational" = some (.rational, 2) from rfl) (hint _)
          (hint _) rfl rfl ?_
        intro k hcheck
        unfold buildForm rationalForm
        refine hcheck.bind ?_
        rintro _ k₁ ⟨rfl, ht⟩
        refine Yields.bind (P := fun p k' => p = (_, _) ∧ k' = k₁) ⟨rfl, rfl⟩ ?_
        rintro _ k₁ ⟨rfl, rfl⟩
        have hquotient : (Number.ofInt q.num).div (.ofInt q.den) = .ok (.real (.exact q)) := by
          have hden : (q.den : ℚ) ≠ 0 := by exact_mod_cast q.den_nz
          refine (Number.div_ofRat q.num hden).trans ?_
          rw [Rat.num_div_den]
          rfl
        split
        next n m heq =>
          cases heq
          rw [if_pos (by rfl), hquotient]
          exact (reproduces_makeNumber _).some ht
        next hne => exact absurd rfl (hne _ _)

theorem writes_number {v : Number} (hv : v.isReadable = true) :
    Writes t (Expr.numberRaw v) (.number v) := by
  cases v with
  | real a => exact writes_scalar hv
  | complex a b =>
      have hparts := hv
      rw [Number.isReadable, Bool.and_eq_true, Bool.and_eq_true, Bool.not_eq_true'] at hparts
      refine writes_pair (by decide) (show ownForm? "Complex" = some (.complexPair, 2) from rfl)
        (writes_scalar hparts.1.1) (writes_scalar hparts.1.2) hv ?_ ?_
      · exact Raw.isWritten_of_isReadable (Number.isReadable_toRaw hv)
      · intro k hcheck
        unfold buildForm complexForm
        refine hcheck.bind ?_
        rintro _ k₁ ⟨rfl, ht⟩
        refine Yields.bind (P := fun p k' => p = (_, _) ∧ k' = k₁) ⟨rfl, rfl⟩ ?_
        rintro _ k₁ ⟨rfl, rfl⟩
        have hpair : Number.ofParts a b = .complex a b := by
          rw [Number.ofParts, hparts.2, if_neg (by decide)]
        simp only [hpair]
        exact (reproduces_makeNumber _).some ht

/-! ### Operands that are held back -/

mutual

/-- **What stands as it was written is held back again as it stands.** -/
theorem reproduces_hold : ∀ {e : Expr} {k : Kernel}, e.isReadable = true → e.isValid = true →
    e.isHeldBack = true → Reproduces (hold e.toRaw) e k
  | .number (.real (.exact q)), _, _, _, hheld => by
      rw [Expr.isHeldBack, Number.isAtomic, beq_iff_eq] at hheld
      have hnum : Number.ofInt q.num = .real (.exact q) := by
        rw [Number.ofInt, Scalar.ofInt, Rat.coe_int_num_of_den_eq_one hheld]
      rw [Expr.toRaw, Expr.numberRaw, Expr.scalarRaw, if_pos hheld, ← hnum]
      exact reproduces_boxNumber fun _ => rfl
  | .number (.real (.machine x)), _, _, _, _ => reproduces_boxNumber fun _ => rfl
  | .number (.real (.big _ _)), _, hr, _, _ => by cases hr
  | .number (.complex _ _), _, _, _, hheld => by cases hheld
  | .symbol n d c, k, _, _, _ => by
      rw [Expr.toRaw]
      unfold hold holdSymbol
      split
      next => exact reproduces_intern (by simp [Expr.same])
      next =>
        refine Yields.bind (P := fun t k' => t = k.table ∧ k' = k) ⟨rfl, rfl⟩ ?_
        rintro _ _ ⟨rfl, rfl⟩
        exact ⟨by simp [Expr.same], rfl⟩
  | .error _ _ _, _, _, hv, _ => by cases hv
  | .application f ops d c, k, hr, hv, hheld => by
      rw [Expr.isHeldBack, Bool.and_eq_true] at hheld
      rw [Expr.isReadable, Bool.and_eq_true, Bool.and_eq_true, bne_iff_ne] at hr
      rw [Expr.toRaw]
      unfold hold
      rw [if_neg (by simpa using hr.1.2)]
      refine (yields_holdAll_same hr.2 hv hheld.2).bind ?_
      rintro xs k₁ ⟨hsame, ht⟩
      refine Yields.bind (P := fun t k' => t = k₁.table ∧ k' = k₁) ⟨rfl, rfl⟩ ?_
      rintro _ _ ⟨rfl, rfl⟩
      exact ⟨by rw [Expr.same, hsame]; simp, ht⟩

theorem yields_holdAll_same : ∀ {es : List Expr} {k : Kernel}, Expr.allReadable es = true →
    Expr.allValid es = true → Expr.allHeldBack es = true →
    Yields Never (holdAll (Expr.toRawAll es)) k fun xs k' =>
      Expr.sameAll es xs = true ∧ k'.table = k.table
  | [], _, _, _, _ => ⟨rfl, rfl⟩
  | e :: rest, k, hr, hv, hheld => by
      rw [Expr.allReadable, Bool.and_eq_true] at hr
      rw [Expr.allValid, Bool.and_eq_true] at hv
      rw [Expr.allHeldBack, Bool.and_eq_true] at hheld
      refine (reproduces_hold hr.1 hv.1 hheld.1).bind ?_
      rintro x k₁ ⟨hx, ht₁⟩
      refine (yields_holdAll_same hr.2 hv.2 hheld.2).bind ?_
      rintro xs k₂ ⟨hxs, ht₂⟩
      exact Yields.pure ⟨by rw [Expr.sameAll, hx, hxs]; rfl, ht₂.trans ht₁⟩

end

/-! ### Expressions -/

/-- An operator without a check, applied to what is built again. -/
theorem yields_apply_again (hk : k.IsSettled) (ht : k.table = t) {f : String} {rs : List Raw}
    {ops : List Expr} (hops : List.Forall₂ (Writes t) rs ops) {i : Option Nat} {c : Bool} :
    Yields Never (do apply f (← boxAll rs)) k fun r k' =>
      (Expr.application f ops i c).same r = true ∧ k'.table = t := by
  refine (copies_of_writes hops hk ht).bind ?_
  rintro xs k₁ ⟨-, ht₁, hxs⟩
  exact (reproduces_apply (sameAll_of_copies hxs)).of_table ht₁

theorem writes_application (ht : t.IsRegular) {f : String} {ops : List Expr} {d : Option Nat} {c : Bool}
    (hr : (Expr.application f ops d c).isReadable = true) (hv : (Expr.application f ops d c).isValid = true)
    (he : (Expr.application f ops d c).Rests t)
    (hops : f ≠ "Hold" → List.Forall₂ (Writes t) (Expr.toRawAll ops) ops) :
    Writes t (Expr.application f ops d c).toRaw (.application f ops d c) := by
  refine ⟨Raw.isWritten_of_isReadable (Expr.isReadable_toRaw hr hv), hr, he, fun k hk hkt => ?_⟩
  subst hkt
  obtain ⟨hdefinition, hfits⟩ := he.settled.2 he.canonical
  have herror := (Expr.isReadable_application.1 hr).1.2
  rw [Expr.toRaw]
  rcases hdefinition with ⟨hwildcard, -⟩ | ⟨hcontains, -⟩
  · -- a wildcard is no function
    have hhold : f ≠ "Hold" := by
      rintro rfl
      revert hwildcard
      decide +kernel
    unfold box
    rw [if_neg (by simpa using herror), build_of_isWildcardName hwildcard]
    exact yields_apply_again hk rfl (hops hhold)
  · obtain ⟨x, hx⟩ := Option.isSome_iff_exists.1 (ht.sound f hcontains)
    have hwildcard := ht.isWildcardName_eq_false hcontains
    have hbuild : Yields Never (build f (boxAll (Expr.toRawAll ops)) (holdAll (Expr.toRawAll ops))) k
        (fun r k' => (Expr.application f ops d c).same r = true ∧ k'.table = k.table) →
        Reproduces (box (.list (.name f :: Expr.toRawAll ops))) (.application f ops d c) k := fun h => by
      unfold box
      rw [if_neg (by simpa using herror)]
      exact h
    cases x with
    | symbol s =>
        have hhold : f ≠ "Hold" := by
          rintro rfl
          obtain ⟨g, hg⟩ := ht.exists_function (f := "Hold") (by decide)
          rw [hg] at hx
          cases hx
        refine hbuild (yields_build_of_contains hwildcard hcontains ?_)
        rw [hx]
        exact yields_apply_again hk rfl (hops hhold)
    | function g =>
        cases hlazy : g.isLazy.truthy with
        | false =>
            have hhold := (ht.function hx).ne_hold hlazy
            rw [Fits, if_neg hhold] at hfits
            refine yields_box_function hk herror hx hlazy (hops hhold) fun xs k' hk' ht' hxs => ?_
            rw [← ht'] at hx hxs hfits
            exact (reproduces_applyFunction hk' hx hlazy (hfits.2 g hx hv) hxs).of_table ht'
        | true =>
            obtain rfl := (ht.function hx).isLazy_iff.1 hlazy
            rw [Fits, if_pos rfl, ← Expr.allHeldBack_iff] at hfits
            rw [Expr.isReadable, Bool.and_eq_true] at hr
            refine hbuild (yields_build_of_contains hwildcard hcontains ?_)
            rw [hx, applyMet, if_pos hlazy]
            refine (yields_holdAll_same hr.2 hv hfits).bind ?_
            rintro xs k₁ ⟨hsame, ht₁⟩
            exact (reproduces_apply hsame).of_table ht₁

mutual

/-- **A readable expression is built again from its shape**, if it rests in a regular table. -/
theorem writes_toRaw (ht : t.IsRegular) : ∀ {e : Expr}, e.isReadable = true → e.isValid = true →
    e.Rests t → Writes t e.toRaw e
  | .number _, hr, _, _ => writes_number hr
  | .symbol n d c, hr, _, he => ⟨rfl, hr, he, fun k _ hkt => by
      rw [Expr.toRaw]
      unfold box
      refine reproduces_makeSymbol ((he.settled he.canonical).imp (·.1) fun h => ?_)
      rw [hkt]
      exact h.1⟩
  | .error _ _ _, _, hv, _ => by cases hv
  | .application f ops d c, hr, hv, he =>
      have hparts := Bool.and_eq_true_iff.1 hr
      writes_application ht hr hv he fun hhold => allWrite_toRaw ht hparts.2 hv (he.operand hhold)

theorem allWrite_toRaw (ht : t.IsRegular) : ∀ {es : List Expr}, Expr.allReadable es = true →
    Expr.allValid es = true → (∀ e ∈ es, e.Rests t) → List.Forall₂ (Writes t) (Expr.toRawAll es) es
  | [], _, _, _ => .nil
  | e :: rest, hr, hv, hes => by
      rw [Expr.allReadable, Bool.and_eq_true] at hr
      rw [Expr.allValid, Bool.and_eq_true] at hv
      rw [List.forall_mem_cons] at hes
      exact .cons (writes_toRaw ht hr.1 hv.1 hes.1) (allWrite_toRaw ht hr.2 hv.2 hes.2)

end

/-! ## Reading what was printed -/

/-- **The standard definitions are regular.** -/
theorem isRegular_standard : standard.table.IsRegular :=
  DefinitionTable.isRegular_of_names (by rw [standard_eq]; decide +kernel)
    (by rw [standard_eq]; decide +kernel)

/-- A kernel with the definitions of another, in which nothing was built yet. -/
theorem isSettled_of_isEmpty {settings : Settings} (hstrict : settings.strict = true)
    (hregular : k.table.IsRegular) (hpool : k.pool.isEmpty = true) :
    IsSettled { k with settings } where
  strict := hstrict
  regular := hregular
  pool x hx := by
    rw [List.isEmpty_iff] at hpool
    simp only [hpool] at hx
    cases hx

/-- A strict kernel with the standard definitions, in which nothing was built yet. -/
def fresh (precision : Nat) (unit : AngularUnit) : Kernel :=
  { standard with settings := { precision, strict := true, unit } }

theorem isSettled_fresh (precision : Nat) (unit : AngularUnit) : (fresh precision unit).IsSettled :=
  isSettled_of_isEmpty rfl isRegular_standard (by rw [standard_eq]; decide +kernel)

/-- Reading a text keeps a kernel settled, also where the text cannot be read, and what is built of it in
canonical form is at rest. -/
theorem upholds_parse {k : Kernel} (hk : k.IsSettled) (text : String) (canonical : Bool) :
    Upholds IsSettled (parse text canonical) k fun o k' =>
      canonical = true → ∀ e, o = some e → e.Rests k'.table := by
  unfold parse
  cases hparse : Sexpr.parse text with
  | error f => exact hk
  | ok o =>
      refine Upholds.bind (P := fun o' k' => o' = o ∧ k' = k) ⟨hk, rfl, rfl⟩ ?_
      rintro o k - ⟨rfl, rfl⟩
      cases o with
      | none => exact .pure hk fun _ _ h => by cases h
      | some r =>
          have hr := Sexpr.isWritten_of_parse hparse
          cases canonical with
          | true =>
              refine ((settlement.box hk hr).weaken fun _ h => h.holds).bind fun e k₁ hk₁ he => ?_
              exact .pure hk₁ fun _ x hx => by
                cases hx
                exact he.2
          | false =>
              refine ((settlement.hold hk hr).weaken fun _ h => h.holds).bind fun e k₁ hk₁ _ => ?_
              exact .pure hk₁ fun h => by cases h

theorem IsSettled.after_parse {k : Kernel} (hk : k.IsSettled) (texts : List (String × Bool)) :
    (k.after (texts.map fun t => .parse t.1 t.2)).IsSettled := by
  induction texts generalizing k with
  | nil => exact hk
  | cons t rest ih =>
      have hparse : Maintains IsSettled (parse t.1 t.2) := fun _ hk => (upholds_parse hk t.1 t.2).forget
      exact ih (hparse.discard k hk).kernel

/-- What is read from a text whose numbers are integers is readable. -/
theorem yields_parse_readable {k : Kernel} {text : String} (h : Sexpr.hasIntegersOnly text = true) :
    Yields Anyhow (parse text true) k fun o _ => ∀ e, o = some e → e.isReadable = true := by
  unfold parse
  cases hparse : Sexpr.parse text with
  | error f => exact trivial
  | ok o =>
      refine Yields.bind (P := fun o' k' => o' = o ∧ k' = k) ⟨rfl, rfl⟩ ?_
      rintro o k ⟨rfl, rfl⟩
      cases o with
      | none => exact Yields.pure fun _ h => by cases h
      | some r =>
          have hr := Sexpr.isReadable_of_parse h hparse
          refine (legibility.box trivial hr).yields.bind fun e k₁ he => Yields.pure fun x hx => ?_
          cases hx
          exact he.2

/-- In a settled kernel, what was read is read again from its text. -/
theorem IsSettled.read_again {k₀ : Kernel} (hsettled : k₀.IsSettled) {text : String} {e : Expr}
    (hnumbers : Sexpr.hasIntegersOnly text = true)
    (hread : (parse text true).run.run k₀ = (.ok (some e), k)) (hvalid : e.isValid = true) :
    ∃ x k', (parse e.text true).run.run k = (.ok (some x), k') ∧ x.isValid = true ∧
      e.same x = true ∧ k'.table = k.table := by
  obtain ⟨hk, hrests⟩ := (upholds_parse hsettled text true).yields.of_run hread
  have hreadable := (yields_parse_readable hnumbers).of_run hread e rfl
  have hparse : parse e.text true = (do return some (← box e.toRaw)) := by
    unfold parse
    rw [Expr.parse_text hreadable hvalid]
    rfl
  obtain ⟨_, k', hrun, x, rfl, hsame, htable⟩ :=
    (((writes_toRaw hk.regular hreadable hvalid (hrests rfl e rfl)).reproduces k hk rfl).some
      rfl).exists_run
  exact ⟨x, k', hparse ▸ hrun, (Expr.isValid_of_same hsame).trans hvalid, hsame, htable⟩

/-- **Printing and reading again is the identity**, types that were inferred included: after texts were
read in a fresh kernel, a valid expression that is read from a text whose numbers are integers is read
from its own text as well, as an expression of the same structure and without changing a definition. -/
theorem reading_again (precision : Nat) (unit : AngularUnit) (texts : List (String × Bool))
    {text : String} {e : Expr} {k : Kernel} (hnumbers : Sexpr.hasIntegersOnly text = true)
    (hread : (parse text true).run.run
      ((fresh precision unit).after (texts.map fun t => .parse t.1 t.2)) = (.ok (some e), k))
    (hvalid : e.isValid = true) :
    ∃ x k', (parse e.text true).run.run k = (.ok (some x), k') ∧ x.isValid = true ∧
      e.same x = true ∧ k'.table = k.table :=
  ((isSettled_fresh precision unit).after_parse texts).read_again hnumbers hread hvalid

/-- A power with a folded base and a negated exponent, after its symbol was compared. -/
theorem reading_again_foldedPower :
    Sexpr.hasIntegersOnly "(Power (Rational 2 4) (Negate x))" = true ∧
      ∃ e k x k', (parse "(Power (Rational 2 4) (Negate x))" true).run.run
          ((fresh 15 .rad).after ([("(Less y x)", true)].map fun t => .parse t.1 t.2)) =
            (.ok (some e), k) ∧ e.isValid = true ∧
        (parse e.text true).run.run k = (.ok (some x), k') ∧ x.isValid = true ∧ e.same x = true ∧
          k'.table = k.table := by
  have hnumbers : Sexpr.hasIntegersOnly "(Power (Rational 2 4) (Negate x))" = true := by
    decide +kernel
  obtain ⟨o, k, hrun, ho⟩ := run_of_any (x := parse "(Power (Rational 2 4) (Negate x))" true)
    (k := (fresh 15 .rad).after ([("(Less y x)", true)].map fun t => .parse t.1 t.2))
    (p := fun o => o.any (·.isValid)) (by decide +kernel)
  obtain ⟨e, rfl, hvalid⟩ := (Option.any_eq_true _ _).1 ho
  obtain ⟨x, k', hagain⟩ := reading_again 15 .rad [("(Less y x)", true)] hnumbers hrun hvalid
  exact ⟨hnumbers, e, k, x, k', hrun, hvalid, hagain⟩

end Kernel

end SymbolicAlgebra
