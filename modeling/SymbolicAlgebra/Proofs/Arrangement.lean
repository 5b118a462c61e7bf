import SymbolicAlgebra.Proofs.Code
import SymbolicAlgebra.Proofs.Sum

/-!
# Proofs/Arrangement — products and sums of regular expressions

On regular expressions, powers and terms are sorted by their codes, so that what `mul` and `add`
give is a function of the bare operands: `product` and, as long as the exponents of the monomials
are finite, the sum assembled from `gather` and `arrangeTerms`.
-/

namespace SymbolicAlgebra.Kernel

open OrderKey

/-! ## Sorting by codes -/

/-- Powers in the order of their bases. -/
def arrange (κ : String → ℤ) (l : Tally) : Tally :=
  l.mergeSort fun x y => decide (code κ x.1 ≤ code κ y.1)

/-- The code of a monomial; one whose bases cannot be read has none. -/
def monomialCode (κ : String → ℤ) (m : Expr) : List Letter :=
  match monomialFactors m with
  | .ok factors => termCode κ factors
  | .error _ => []

/-- Terms in the order of their monomials. -/
def arrangeTerms (κ : String → ℤ) (l : Tally) : Tally :=
  l.mergeSort fun x y => decide (monomialCode κ x.1 ≤ monomialCode κ y.1)

/-- Whether the bases of a monomial can be read and their exponents are finite. -/
def isSteady (m : Expr) : Bool :=
  match monomialFactors m with
  | .ok factors => areFinite factors
  | .error _ => false

section Sorting

variable {α : Type} {c : α → List Letter}

theorem pairwise_sorted (l : List α) :
    (l.mergeSort fun x y => decide (c x ≤ c y)).Pairwise fun x y => c x ≤ c y := by
  have h : (l.mergeSort fun x y => decide (c x ≤ c y)).Pairwise
      fun x y => decide (c x ≤ c y) = true :=
    List.pairwise_mergeSort
      (fun x y z hxy hyz => by simpa using le_trans (by simpa using hxy) (by simpa using hyz))
      (fun x y => by simpa using le_total (c x) (c y)) l
  simpa using h

theorem mergeSort_of_sorted {l : List α} (h : l.Pairwise fun x y => c x ≤ c y) :
    (l.mergeSort fun x y => decide (c x ≤ c y)) = l :=
  List.mergeSort_of_pairwise (by simpa using h)

/-- **Lists with the same elements are sorted to one list** if codes tell their elements apart. -/
theorem mergeSort_eq_of_perm {l l' : List α} (h : l.Perm l')
    (hc : ∀ x ∈ l, ∀ y ∈ l, c x = c y → x = y) :
    (l.mergeSort fun x y => decide (c x ≤ c y)) = l'.mergeSort fun x y => decide (c x ≤ c y) := by
  have hl := List.mergeSort_perm l fun x y => decide (c x ≤ c y)
  have hl' := List.mergeSort_perm l' fun x y => decide (c x ≤ c y)
  refine List.Perm.eq_of_pairwise (fun x y hx hy hxy hyx => ?_) (pairwise_sorted l)
    (pairwise_sorted l') (hl.trans (h.trans hl'.symm))
  exact hc x (hl.mem_iff.1 hx) y (h.mem_iff.2 (hl'.mem_iff.1 hy)) (le_antisymm hxy hyx)

end Sorting

theorem arrange_perm (κ : String → ℤ) (l : Tally) : (arrange κ l).Perm l := List.mergeSort_perm _ _

theorem arrangeTerms_perm (κ : String → ℤ) (l : Tally) : (arrangeTerms κ l).Perm l :=
  List.mergeSort_perm _ _

/-! ## The regular realm -/

variable {t : DefinitionTable}

/-- Powers of regular bases are sorted by code. -/
theorem bareTally_sortPowers {l : Tally} (hl : ∀ q ∈ l, q.1.isRegular t = true) :
    bareTally (sortPowers t l) = arrange t.registeredComplexity (bareTally l) := by
  have hsort : sortPowers t l = arrange t.registeredComplexity l := by
    unfold sortPowers arrange
    rw [List.map_mergeSort (s := fun x y => decide (code t.registeredComplexity x.1 ≤
      code t.registeredComplexity y.1)), List.map_map]
    · exact congrArg (List.mergeSort · _) (List.map_id _)
    intro a ha b hb
    obtain ⟨p, hp, rfl⟩ := List.mem_map.1 ha
    obtain ⟨q, hq, rfl⟩ := List.mem_map.1 hb
    exact le_eq_code (hl p hp) (hl q hq)
  rw [hsort, bareTally, bareTally, arrange, arrange]
  exact List.map_mergeSort fun a _ b _ => by simp

/-- The base and the exponent of a factor of a monomial. -/
def factorOf (f : Expr) : Except Fault (Expr × Float) :=
  if f.operator == "Power" then
    match f.operands with
    | base :: .number (.real x) :: _ => .ok (base, x.toFloat)
    | _ :: _ :: _ => .ok (f, 1)
    | _ => .error .missingOperand
  else .ok (f, 1)

theorem monomialFactors_eq (m : Expr) : monomialFactors m =
    (if m.operator == "Multiply" then m.operands else [m]).mapM factorOf := rfl

theorem isRegular_operands {e : Expr} (he : e.isRegular t = true) :
    ∀ x ∈ e.operands, x.isRegular t = true := by
  cases e with
  | application f ops d c =>
      rw [Expr.isRegular, Bool.and_eq_true] at he
      exact Expr.allRegular_iff.1 he.2
  | _ => simp [Expr.operands]

theorem isRegular_of_factorOf {f : Expr} {q : Expr × Float} (hf : f.isRegular t = true)
    (h : factorOf f = .ok q) : q.1.isRegular t = true := by
  unfold factorOf at h
  split at h
  next =>
    split at h
    next base x rest hops =>
      cases h
      exact isRegular_operands hf base (by simp [hops])
    next =>
      cases h
      exact hf
    next => cases h
  next =>
    cases h
    exact hf

/-- The bases of a regular monomial are regular. -/
theorem isRegular_of_monomialFactors {m : Expr} {factors : List (Expr × Float)}
    (hm : m.isRegular t = true) (h : monomialFactors m = .ok factors) :
    ∀ q ∈ factors, q.1.isRegular t = true := by
  rw [monomialFactors_eq] at h
  have hfactors : ∀ f ∈ (if m.operator == "Multiply" then m.operands else [m]),
      f.isRegular t = true := by
    split
    · exact isRegular_operands hm
    · simpa using hm
  exact forall_of_forall₂ (fun f q hq hf => isRegular_of_factorOf hf hq) (forall₂_of_mapM_ok h) hfactors

theorem termKey_eq {m : Expr} {factors : List (Expr × Float)} (h : monomialFactors m = .ok factors) :
    TermKey.of t m = .ok ⟨-degreeOf factors, factors.map fun q => (OrderKey.of t q.1, -q.2)⟩ := by
  rw [TermKey.of, h]
  rfl

theorem isSteady_bare (m : Expr) : isSteady m.bare = isSteady m := by
  rw [isSteady, isSteady, monomialFactors_bare]
  cases monomialFactors m with
  | error f => rfl
  | ok factors =>
      change areFinite (factors.map _) = areFinite factors
      rw [areFinite, areFinite, List.all_map]
      rfl

theorem monomialCode_bare (κ : String → ℤ) (m : Expr) : monomialCode κ m.bare = monomialCode κ m := by
  have hdegree : ∀ factors : List (Expr × Float),
      degreeOf (factors.map fun q => (q.1.bare, q.2)) = degreeOf factors := by
    intro factors
    rw [degreeOf, degreeOf, List.foldl_map]
    simp
  have hfactors : ∀ factors : List (Expr × Float),
      factorsCode κ (factors.map fun q => (q.1.bare, q.2)) = factorsCode κ factors := by
    intro factors
    induction factors with
    | nil => rfl
    | cons q rest ih => rw [List.map_cons, factorsCode, factorsCode, ih, code_bare]
  rw [monomialCode, monomialCode, monomialFactors_bare]
  cases monomialFactors m with
  | error f => rfl
  | ok factors =>
      change termCode κ (factors.map _) = termCode κ factors
      rw [termCode, termCode, hdegree, hfactors]

/-- The key of a regular and steady monomial is ordered like its code. -/
theorem le_eq_monomialCode {m n : Expr} {x y : TermKey} (hm : m.isRegular t = true)
    (hn : n.isRegular t = true) (hsm : isSteady m = true) (hsn : isSteady n = true)
    (hx : TermKey.of t m = .ok x) (hy : TermKey.of t n = .ok y) :
    x.le y = decide (monomialCode t.registeredComplexity m ≤
      monomialCode t.registeredComplexity n) := by
  rw [isSteady] at hsm hsn
  rw [monomialCode, monomialCode]
  cases hfm : monomialFactors m with
  | error f => simp [hfm] at hsm
  | ok xs =>
      cases hfn : monomialFactors n with
      | error f => simp [hfn] at hsn
      | ok ys =>
          rw [hfm] at hsm
          rw [hfn] at hsn
          rw [termKey_eq hfm] at hx
          rw [termKey_eq hfn] at hy
          cases hx
          cases hy
          exact le_eq_termCode hsm hsn (isRegular_of_monomialFactors hm hfm)
            (isRegular_of_monomialFactors hn hfn)

/-- Terms with regular and steady monomials are sorted by code. -/
theorem bareTally_sortTerms {l l' : Tally} (hl : ∀ q ∈ l, q.1.isRegular t = true)
    (hs : ∀ q ∈ l, isSteady q.1 = true) (h : sortTerms t l = .ok l') :
    bareTally l' = arrangeTerms t.registeredComplexity (bareTally l) := by
  have hsort : l' = arrangeTerms t.registeredComplexity l := by
    rw [sortTerms_eq] at h
    cases hk : l.mapM (keyed t) with
    | error f =>
        rw [hk] at h
        cases h
    | ok ks =>
        rw [hk] at h
        cases h
        have hmem : ∀ x ∈ ks, x.2 ∈ l := fun x hx => by
          rw [← map_snd_of_keyed hk]
          exact List.mem_map_of_mem hx
        have hkey : ∀ x ∈ ks, TermKey.of t x.2.1 = .ok x.1 :=
          forall_of_forall₂ (P := fun _ => True) (fun q x h _ => (keyed_ok h).2 ▸ (keyed_ok h).1)
            (forall₂_of_mapM_ok hk) (by simp)
        rw [arrangeTerms, ← map_snd_of_keyed hk]
        refine List.map_mergeSort fun a ha b hb => ?_
        exact le_eq_monomialCode (hl _ (hmem a ha)) (hl _ (hmem b hb)) (hs _ (hmem a ha))
          (hs _ (hmem b hb)) (hkey a ha) (hkey b hb)
  rw [hsort, bareTally, bareTally, arrangeTerms, arrangeTerms]
  exact List.map_mergeSort fun a _ b _ => by simp [monomialCode_bare]

/-- The complexity of an application does not depend on its operands. -/
theorem complexity_of_functionNumber (t : DefinitionTable) (f : String) (ops : List Expr) :
    t.complexity (.application f ops (t.functionNumber? f) true) = t.registeredComplexity f := by
  have hfunction : t.functionOf (.application f ops (t.functionNumber? f) true) =
      t.functionOf (.application f [] (t.functionNumber? f) true) := rfl
  unfold DefinitionTable.registeredComplexity DefinitionTable.complexity
  rw [hfunction]
  cases t.functionOf (.application f [] (t.functionNumber? f) true) <;> rfl

/-- All regular expressions. -/
def Realm.regular (t : DefinitionTable) (settings : Settings) : Realm where
  table := t
  settings := settings
  Good := fun e => e.isRegular t = true
  Arranged := fun l' l => l' = arrange t.registeredComplexity l
  ArrangedTerms := fun l' l => l'.Perm l ∧
    ((∀ q ∈ l, isSteady q.1 = true) → l' = arrangeTerms t.registeredComplexity l)
  proper := Expr.isProper_of_isRegular
  good_number := fun hv => hv
  good_node := fun {f ops} _ hops => by
    rw [Expr.isRegular, Bool.and_eq_true, beq_iff_eq]
    exact ⟨complexity_of_functionNumber t f ops, Expr.allRegular_iff.2 hops⟩
  good_operand := fun h => isRegular_operands h
  arranged := bareTally_sortPowers
  arranged_perm := by
    rintro l _ rfl
    exact arrange_perm _ _
  arrangedTerms := fun {l l'} hl h => by
    refine ⟨(sortTerms_perm h).map _, fun hs => bareTally_sortTerms hl (fun q hq => ?_) h⟩
    rw [← isSteady_bare]
    exact hs _ (List.mem_map_of_mem hq)
  arrangedTerms_perm := fun h => h.1

/-! ## Products and sums -/

section Functions

variable (κ : String → ℤ) (precision : Nat)

/-- The product of bare factors. -/
def product (es : List Expr) : Except Fault Expr := do
  let p ← multiplyAll (piecesAll (Expr.flatten (some "Multiply") es)) {}
  written precision (arrange κ p.powers) p.coefficient

/-- The coefficient and the monomial of a bare summand. -/
def splitProduct (e : Expr) : Except Fault (Number × Option Expr) := (product κ precision [e]).bind splitOf

/-- Adds the terms of bare summands to a sum. -/
def gather : List Expr → Terms → Except Fault Terms
  | [], s => .ok s
  | e :: rest, s => do
      match ← splitProduct κ precision e with
      | (v, none) => gather rest { s with constant := ← liftNumber (s.constant.add v) }
      | (v, some m) => gather rest { s with monomials := ← liftNumber (tally m v s.monomials) }

end Functions

namespace Realm

variable {settings : Settings} {es : List Expr}

theorem eq_product {o : Except Fault Expr} (h : (regular t settings).FlatProduct es o) :
    o = product t.registeredComplexity settings.precision es := by
  rw [product]
  rcases h with ⟨f, hp, rfl⟩ | ⟨p, powers, hp, rfl, rfl⟩
  · rw [hp]
    rfl
  · rw [hp]
    rfl

theorem eq_splitProduct {e : Expr} {o : Except Fault (Number × Option Expr)}
    (h : (regular t settings).Split e o) :
    o = splitProduct t.registeredComplexity settings.precision e := by
  obtain ⟨p, hp, rfl⟩ := h
  rw [eq_product hp]
  rfl

theorem eq_gather {s : Terms} {o : Except Fault Terms}
    (h : (regular t settings).Collected es s o) :
    o = gather t.registeredComplexity settings.precision es s := by
  induction h with
  | nil => rfl
  | fault h =>
      rw [gather, ← eq_splitProduct h]
      rfl
  | constant h hc _ ih =>
      rw [gather, ← eq_splitProduct h]
      simpa [liftNumber, hc, bind, Except.bind] using ih
  | monomial h hl _ ih =>
      rw [gather, ← eq_splitProduct h]
      simpa [liftNumber, hl, bind, Except.bind] using ih

end Realm

end SymbolicAlgebra.Kernel
