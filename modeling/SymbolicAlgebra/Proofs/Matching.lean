import SymbolicAlgebra.Proofs.Sameness
import SymbolicAlgebra.Rewriting.Pattern

/-!
# Proofs/Matching — what a match says

`Pattern.Fits σ p e` says, without an algorithm, that the expression `e` is the pattern `p` with its
wildcards read by `σ`.  Matching threads bindings from left to right and stops at the first conflict;
`match_iff_fits` says that it finds bindings under which the pattern fits, that it binds exactly the
named wildcards of the pattern, and that it finds them whenever there are any: then every reading
under which the pattern fits agrees with what was bound.
-/

namespace SymbolicAlgebra.Pattern

/-! ## Fitting -/

/-- What wildcards are read as. -/
abbrev Reading := String → Option Expr

/-- Whether a name is a wildcard that is bound when it is matched. -/
def isNamed (n : String) : Bool := Expr.isWildcardName n && n != "_"

/-- Whether an operator fits: a named wildcard is read as a symbol of its name, any other operator
is the operator itself. -/
def FitsOperator (σ : Reading) (f g : String) : Prop :=
  if isNamed f then ∃ x, σ f = some x ∧ x.symbol? = some g else f = g

mutual

/-- Whether an expression is a pattern whose wildcards are read by `σ`. -/
def Fits (σ : Reading) : Expr → Expr → Prop
  | .symbol n _ _, e =>
      if Expr.isWildcardName n then n = "_" ∨ ∃ x, σ n = some x ∧ x.same e = true
      else e.symbol? = some n
  | .number v, e => ∃ w, e = .number w ∧ v.compare? w = some 0
  | .application f ps _ _, e =>
      ∃ g es d c, e = .application g es d c ∧ ps.length = es.length ∧ FitsOperator σ f g ∧
        FitsAll σ ps es
  | .error _ _ _, _ => False

def FitsAll (σ : Reading) : List Expr → List Expr → Prop
  | p :: ps, e :: es => Fits σ p e ∧ FitsAll σ ps es
  | _, _ => True

end

mutual

/-- The named wildcards of a pattern, operands and operators. -/
def wildcards : Expr → List String
  | .symbol n _ _ => if isNamed n then [n] else []
  | .application f ps _ _ => (if isNamed f then [f] else []) ++ wildcardsAll ps
  | _ => []

def wildcardsAll : List Expr → List String
  | [] => []
  | p :: ps => wildcards p ++ wildcardsAll ps

end

/-! ## What one step binds -/

/-- The wildcards that are bound. -/
abbrev names (b : Bindings) : List String := b.map (·.1)

theorem mem_names_of_lookup {b : Bindings} {w : String} {x : Expr} (h : b.lookup w = some x) :
    w ∈ names b := by
  obtain ⟨l, l', rfl, -⟩ := List.lookup_eq_some_iff.1 h
  simp

theorem exists_lookup {b : Bindings} {w : String} (h : w ∈ names b) : ∃ x, b.lookup w = some x := by
  obtain ⟨q, hq, rfl⟩ := List.mem_map.1 h
  exact Option.isSome_iff_exists.1 (List.lookup_isSome_iff.2 ⟨q, hq, beq_self_eq_true _⟩)

/-- Bindings grow by wildcards: none is bound twice, and what is bound stays. -/
structure Grows (new : List String) (b b' : Bindings) : Prop where
  kept : ∀ w x, b.lookup w = some x → b'.lookup w = some x
  names : ∀ w, w ∈ names b' ↔ w ∈ names b ∨ w ∈ new
  nodup : (Pattern.names b).Nodup → (Pattern.names b').Nodup

namespace Grows

variable {b b' b'' : Bindings} {new new' : List String}

theorem none (h : ∀ w ∈ new, w ∈ Pattern.names b) : Grows new b b where
  kept := fun _ _ hx => hx
  names := fun w => ⟨.inl, fun hw => hw.elim id (h w)⟩
  nodup := id

theorem bound {w : String} {x : Expr} (h : b.lookup w = some x) : Grows [w] b b :=
  none (by simpa using mem_names_of_lookup h)

theorem add {w : String} (x : Expr) (h : b.lookup w = .none) : Grows [w] b (b ++ [(w, x)]) where
  kept := fun v y hy => by rw [List.lookup_append, hy, Option.some_or]
  names := fun v => by simp
  nodup := fun hb => by
    rw [Pattern.names, List.map_append, List.nodup_append]
    refine ⟨hb, by simp, fun v hv u hu heq => ?_⟩
    obtain ⟨y, hy⟩ := exists_lookup hv
    rw [heq, List.mem_singleton.1 hu, h] at hy
    cases hy

theorem trans (h : Grows new b b') (h' : Grows new' b' b'') : Grows (new ++ new') b b'' where
  kept := fun w x hx => h'.kept w x (h.kept w x hx)
  names := fun w => by rw [h'.names, h.names, List.mem_append, or_assoc]
  nodup := fun hb => h'.nodup (h.nodup hb)

end Grows

/-- A reading that has what is bound. -/
def Reads (σ : Reading) (b : Bindings) : Prop := ∀ w x, b.lookup w = some x → σ w = some x

theorem Reads.of_grows {σ : Reading} {b b' : Bindings} {new : List String} (h : Reads σ b')
    (hb : Grows new b b') : Reads σ b := fun w x hx => h w x (hb.kept w x hx)

/-! ## What a match went through -/

section Inversion

variable {t : DefinitionTable} {b b' : Bindings}

/-- A wildcard was bound before, is bound now, or is never bound. -/
theorem cases_of_bind? {n : String} {e : Expr} (h : bind? n e b = some b') :
    (n = "_" ∧ b' = b) ∨ n ≠ "_" ∧
      ((∃ x, b.lookup n = some x ∧ x.same e = true ∧ b' = b) ∨
        b.lookup n = none ∧ b' = b ++ [(n, e)]) := by
  unfold bind? at h
  split at h
  next hblank =>
    cases h
    exact .inl ⟨by simpa using hblank, rfl⟩
  next hblank =>
    refine .inr ⟨by simpa using hblank, ?_⟩
    split at h
    next x hx =>
      split at h
      next hsame =>
        cases h
        exact .inl ⟨x, hx, hsame, rfl⟩
      next => cases h
    next hnone =>
      cases h
      exact .inr ⟨hnone, rfl⟩

theorem cases_of_matchOperator? {f g : String} (h : matchOperator? t f g b = some b') :
    (isNamed f = false ∧ f = g ∧ b' = b) ∨ isNamed f = true ∧
      ((∃ x, b.lookup f = some x ∧ x.symbol? = some g ∧ b' = b) ∨
        b.lookup f = none ∧ b' = b ++ [(f, headSymbol t g)]) := by
  change (if isNamed f then _ else _) = _ at h
  split at h
  next hnamed =>
    refine .inr ⟨hnamed, ?_⟩
    split at h
    next x hx =>
      split at h
      next hsymbol =>
        cases h
        exact .inl ⟨x, hx, by simpa using hsymbol, rfl⟩
      next => cases h
    next hnone =>
      cases h
      exact .inr ⟨hnone, rfl⟩
  next hnamed =>
    split at h
    next heq =>
      cases h
      exact .inl ⟨by simpa using hnamed, by simpa using heq, rfl⟩
    next => cases h

theorem cases_of_symbol {n : String} {d : Option Nat} {c : Bool} {e : Expr}
    (h : matchFrom? t (.symbol n d c) e b = some b') :
    (Expr.isWildcardName n = true ∧ bind? n e b = some b') ∨
      Expr.isWildcardName n = false ∧ e.symbol? = some n ∧ b' = b := by
  rw [matchFrom?] at h
  split at h
  next hn => exact .inl ⟨hn, h⟩
  next hn =>
    split at h
    next hsymbol =>
      cases h
      exact .inr ⟨by simpa using hn, by simpa using hsymbol, rfl⟩
    next => cases h

theorem exists_of_number {v : Number} {e : Expr} (h : matchFrom? t (.number v) e b = some b') :
    ∃ w, e = .number w ∧ v.compare? w = some 0 ∧ b' = b := by
  cases e with
  | number w =>
      rw [matchFrom?] at h
      split at h
      next hcompare =>
        cases h
        exact ⟨w, rfl, by simpa using hcompare, rfl⟩
      next => cases h
  | _ => cases h

theorem exists_of_application {f : String} {ps : List Expr} {d : Option Nat} {c : Bool} {e : Expr}
    (h : matchFrom? t (.application f ps d c) e b = some b') :
    ∃ g es d' c' b₁, e = .application g es d' c' ∧ ps.length = es.length ∧
      matchOperator? t f g b = some b₁ ∧ matchAllFrom? t ps es b₁ = some b' := by
  cases e with
  | application g es d' c' =>
      rw [matchFrom?] at h
      split at h
      next => cases h
      next hlength =>
        split at h
        next => cases h
        next b₁ hoperator => exact ⟨g, es, d', c', b₁, rfl, by simpa using hlength, hoperator, h⟩
  | _ => cases h

theorem exists_of_cons {p e : Expr} {ps es : List Expr}
    (h : matchAllFrom? t (p :: ps) (e :: es) b = some b') :
    ∃ b₁, matchFrom? t p e b = some b₁ ∧ matchAllFrom? t ps es b₁ = some b' := by
  rw [matchAllFrom?] at h
  split at h
  next => cases h
  next b₁ hp => exact ⟨b₁, hp, h⟩

end Inversion

/-! ## What a match binds -/

section Bound

variable {t : DefinitionTable} {P : Expr → Prop}

/-- Bindings to expressions with a property. -/
def Binds (P : Expr → Prop) (b : Bindings) : Prop := ∀ q ∈ b, P q.2

/-- A property of all symbols, which passes on to operands. -/
structure PassesOn (P : Expr → Prop) : Prop where
  symbol : ∀ n d c, P (.symbol n d c)
  operand : ∀ {f ops d c}, P (.application f ops d c) → ∀ e ∈ ops, P e

namespace Binds

variable {b b' : Bindings}

theorem add (hb : Binds P b) (n : String) {e : Expr} (he : P e) : Binds P (b ++ [(n, e)]) :=
  List.forall_mem_append.2 ⟨hb, List.forall_mem_singleton.2 he⟩

theorem lookup (hb : Binds P b) {n : String} {e : Expr} (h : b.lookup n = some e) : P e := by
  obtain ⟨l, l', rfl, -⟩ := List.lookup_eq_some_iff.1 h
  exact hb (n, e) (by simp)

theorem bind? (hb : Binds P b) {n : String} {e : Expr} (he : P e)
    (h : Pattern.bind? n e b = some b') : Binds P b' := by
  obtain ⟨-, rfl⟩ | ⟨-, ⟨-, -, -, rfl⟩ | ⟨-, rfl⟩⟩ := cases_of_bind? h
  · exact hb
  · exact hb
  · exact hb.add n he

theorem matchOperator? (hP : PassesOn P) (hb : Binds P b) {f g : String}
    (h : Pattern.matchOperator? t f g b = some b') : Binds P b' := by
  obtain ⟨-, -, rfl⟩ | ⟨-, ⟨-, -, -, rfl⟩ | ⟨-, rfl⟩⟩ := cases_of_matchOperator? h
  · exact hb
  · exact hb
  · refine hb.add f ?_
    unfold headSymbol
    split <;> exact hP.symbol _ _ _

end Binds

mutual

theorem binds_matchFrom? (hP : PassesOn P) : ∀ {p e : Expr} {b b' : Bindings}, Binds P b → P e →
    matchFrom? t p e b = some b' → Binds P b'
  | .symbol _ _ _, _, _, _, hb, he, h => by
      obtain ⟨-, hbind⟩ | ⟨-, -, rfl⟩ := cases_of_symbol h
      · exact hb.bind? he hbind
      · exact hb
  | .number _, _, _, _, hb, _, h => by
      obtain ⟨-, -, -, rfl⟩ := exists_of_number h
      exact hb
  | .error _ _ _, _, _, _, _, _, h => by cases h
  | .application _ _ _ _, _, _, _, hb, he, h => by
      obtain ⟨g, es, d, c, b₁, rfl, -, hoperator, hops⟩ := exists_of_application h
      exact binds_matchAllFrom? hP (hb.matchOperator? hP hoperator) (hP.operand he) hops

theorem binds_matchAllFrom? (hP : PassesOn P) : ∀ {ps es : List Expr} {b b' : Bindings}, Binds P b →
    (∀ e ∈ es, P e) → matchAllFrom? t ps es b = some b' → Binds P b'
  | [], _, _, _, hb, _, h => by
      cases h
      exact hb
  | _ :: _, [], _, _, hb, _, h => by
      cases h
      exact hb
  | _ :: _, _ :: _, _, _, hb, hes, h => by
      obtain ⟨b₁, hp, hrest⟩ := exists_of_cons h
      rw [List.forall_mem_cons] at hes
      exact binds_matchAllFrom? hP (binds_matchFrom? hP hb hes.1 hp) hes.2 hrest

end

/-- **A match binds parts of the expression, and symbols.** -/
theorem binds_match? (hP : PassesOn P) {p e : Expr} {b : Bindings} (he : P e)
    (h : match? t p e = some b) : Binds P b :=
  binds_matchFrom? hP (fun _ hq => by cases hq) he h

end Bound

/-! ## Soundness -/

section Sound

variable {t : DefinitionTable}

theorem bind?_sound {n : String} {e : Expr} {b b' : Bindings} (hn : Expr.isWildcardName n = true)
    (h : bind? n e b = some b') :
    Grows (if isNamed n then [n] else []) b b' ∧
      ∀ σ, Reads σ b' → n = "_" ∨ ∃ x, σ n = some x ∧ x.same e = true := by
  obtain ⟨rfl, rfl⟩ | ⟨hblank, hbound⟩ := cases_of_bind? h
  · exact ⟨.none (by simp [isNamed]), fun _ _ => .inl rfl⟩
  have hnamed : isNamed n = true := by simpa [isNamed, hn] using hblank
  rw [if_pos hnamed]
  obtain ⟨x, hx, hsame, rfl⟩ | ⟨hnone, rfl⟩ := hbound
  · exact ⟨.bound hx, fun σ hσ => .inr ⟨x, hσ n x hx, hsame⟩⟩
  · have hself : (b ++ [(n, e)]).lookup n = some e := by
      rw [List.lookup_append, hnone, Option.none_or, List.lookup_cons_self]
    exact ⟨.add e hnone, fun σ hσ => .inr ⟨e, hσ n e hself, Expr.same_refl e⟩⟩

theorem symbol?_headSymbol (g : String) : (headSymbol t g).symbol? = some g := by
  unfold headSymbol
  split <;> rfl

theorem matchOperator?_sound {f g : String} {b b' : Bindings}
    (h : matchOperator? t f g b = some b') :
    Grows (if isNamed f then [f] else []) b b' ∧ ∀ σ, Reads σ b' → FitsOperator σ f g := by
  unfold FitsOperator
  obtain ⟨hnamed, heq, rfl⟩ | ⟨hnamed, hbound⟩ := cases_of_matchOperator? h
  · simp only [hnamed, Bool.false_eq_true, if_false]
    exact ⟨.none (by simp), fun _ _ => heq⟩
  simp only [if_pos hnamed]
  obtain ⟨x, hx, hsymbol, rfl⟩ | ⟨hnone, rfl⟩ := hbound
  · exact ⟨.bound hx, fun σ hσ => ⟨x, hσ f x hx, hsymbol⟩⟩
  · have hself : (b ++ [(f, headSymbol t g)]).lookup f = some (headSymbol t g) := by
      rw [List.lookup_append, hnone, Option.none_or, List.lookup_cons_self]
    exact ⟨.add _ hnone, fun σ hσ => ⟨_, hσ f _ hself, symbol?_headSymbol g⟩⟩

mutual

/-- **A match is sound**: the bindings grow by the wildcards of the pattern, and the pattern fits
under every reading that has them, also once more is bound. -/
theorem matchFrom?_sound : ∀ {p e : Expr} {b b' : Bindings}, matchFrom? t p e b = some b' →
    Grows (wildcards p) b b' ∧ ∀ σ, Reads σ b' → Fits σ p e
  | .symbol n _ _, e, b, b', h => by
      rw [wildcards]
      obtain ⟨hn, hbind⟩ | ⟨hn, hsymbol, rfl⟩ := cases_of_symbol h
      · refine (bind?_sound hn hbind).imp_right fun hfits σ hσ => ?_
        rw [Fits, if_pos hn]
        exact hfits σ hσ
      · rw [if_neg (by simp [isNamed, hn])]
        refine ⟨.none (by simp), fun σ _ => ?_⟩
        rw [Fits, if_neg (by simp [hn])]
        exact hsymbol
  | .number v, e, b, b', h => by
      obtain ⟨w, rfl, hcompare, rfl⟩ := exists_of_number h
      exact ⟨.none (by simp [wildcards]), fun _ _ => ⟨w, rfl, hcompare⟩⟩
  | .application f ps _ _, e, b, b', h => by
      obtain ⟨g, es, d, c, b₁, rfl, hlength, hoperator, hops⟩ := exists_of_application h
      obtain ⟨hgrows, hfits⟩ := matchOperator?_sound hoperator
      obtain ⟨hgrowsAll, hfitsAll⟩ := matchAllFrom?_sound hlength hops
      exact ⟨hgrows.trans hgrowsAll, fun σ hσ => ⟨g, es, d, c, rfl, hlength,
        hfits σ (hσ.of_grows hgrowsAll), hfitsAll σ hσ⟩⟩
  | .error _ _ _, _, _, _, h => by cases h

theorem matchAllFrom?_sound : ∀ {ps es : List Expr} {b b' : Bindings}, ps.length = es.length →
    matchAllFrom? t ps es b = some b' →
    Grows (wildcardsAll ps) b b' ∧ ∀ σ, Reads σ b' → FitsAll σ ps es
  | [], [], b, b', _, h => by
      cases h
      exact ⟨.none (by simp [wildcardsAll]), fun _ _ => trivial⟩
  | p :: ps, e :: es, b, b', hlength, h => by
      obtain ⟨b₁, hp, hps⟩ := exists_of_cons h
      obtain ⟨hgrows, hfits⟩ := matchFrom?_sound hp
      obtain ⟨hgrowsAll, hfitsAll⟩ := matchAllFrom?_sound (by simpa using hlength) hps
      exact ⟨hgrows.trans hgrowsAll, fun σ hσ => ⟨hfits σ (hσ.of_grows hgrowsAll), hfitsAll σ hσ⟩⟩

end

end Sound

/-! ## Completeness -/

section Complete

variable {t : DefinitionTable} {σ : Reading}

/-- A reading that agrees with what is bound, up to structure. -/
def Agrees (σ : Reading) (b : Bindings) : Prop :=
  ∀ w x, b.lookup w = some x → ∃ y, σ w = some y ∧ x.same y = true

theorem Agrees.add {b : Bindings} {w : String} {x y : Expr} (hb : Agrees σ b)
    (hy : σ w = some y) (h : x.same y = true) : Agrees σ (b ++ [(w, x)]) := by
  intro v z hz
  rw [List.lookup_append, Option.or_eq_some_iff] at hz
  rcases hz with hz | ⟨-, hz⟩
  · exact hb v z hz
  · obtain ⟨l, l', heq, -⟩ := List.lookup_eq_some_iff.1 hz
    have hmem : (v, z) ∈ [(w, x)] := by simp [heq]
    rw [List.mem_singleton, Prod.mk.injEq] at hmem
    obtain ⟨rfl, rfl⟩ := hmem
    exact ⟨y, hy, h⟩

theorem symbol?_of_same {x y : Expr} {n : String} (h : x.same y = true) (hy : y.symbol? = some n) :
    x.symbol? = some n := by
  cases y with
  | symbol m d c =>
      cases hy
      cases x with
      | symbol m' d' c' => simpa [Expr.same, Expr.symbol?] using h
      | _ => cases h
  | _ => cases hy

theorem bind?_complete {n : String} {e : Expr} {b : Bindings} (hb : Agrees σ b)
    (h : n = "_" ∨ ∃ x, σ n = some x ∧ x.same e = true) :
    ∃ b', bind? n e b = some b' ∧ Agrees σ b' := by
  unfold bind?
  split
  next => exact ⟨b, rfl, hb⟩
  next hblank =>
    obtain ⟨x, hx, hxe⟩ := h.resolve_left (by simpa using hblank)
    split
    next y hy =>
      obtain ⟨z, hz, hyz⟩ := hb n y hy
      cases hx.symm.trans hz
      rw [if_pos (Expr.same_trans hyz hxe)]
      exact ⟨b, rfl, hb⟩
    next => exact ⟨_, rfl, hb.add hx (Expr.same_symm hxe)⟩

theorem matchOperator?_complete {f g : String} {b : Bindings} (hb : Agrees σ b)
    (h : FitsOperator σ f g) : ∃ b', matchOperator? t f g b = some b' ∧ Agrees σ b' := by
  change ∃ b', (if isNamed f then _ else _) = some b' ∧ _
  unfold FitsOperator at h
  split
  next hnamed =>
    rw [if_pos hnamed] at h
    obtain ⟨x, hx, hxg⟩ := h
    split
    next y hy =>
      obtain ⟨z, hz, hyz⟩ := hb f y hy
      cases hx.symm.trans hz
      rw [if_pos (by simp [symbol?_of_same hyz hxg])]
      exact ⟨b, rfl, hb⟩
    next =>
      refine ⟨_, rfl, hb.add hx ?_⟩
      cases x with
      | symbol m d c =>
          cases hxg
          unfold headSymbol
          split <;> simp [Expr.same]
      | _ => cases hxg
  next hnamed =>
    rw [if_neg hnamed] at h
    rw [if_pos (by simpa using h)]
    exact ⟨b, rfl, hb⟩

mutual

/-- **A match is complete**: it succeeds from bindings that agree with a reading under which the
pattern fits, and binds nothing else than that reading. -/
theorem matchFrom?_complete : ∀ {p e : Expr} {b : Bindings}, Agrees σ b → Fits σ p e →
    ∃ b', matchFrom? t p e b = some b' ∧ Agrees σ b'
  | .symbol n _ _, e, b, hb, h => by
      rw [matchFrom?]
      rw [Fits] at h
      split
      next hn =>
        rw [if_pos hn] at h
        exact bind?_complete hb h
      next hn =>
        rw [if_neg hn] at h
        rw [if_pos (by simp [h])]
        exact ⟨b, rfl, hb⟩
  | .number v, e, b, hb, ⟨w, he, hw⟩ => by
      subst he
      rw [matchFrom?, if_pos (by simp [hw])]
      exact ⟨b, rfl, hb⟩
  | .application f ps _ _, e, b, hb, ⟨g, es, d, c, he, hlength, hoperator, hall⟩ => by
      subst he
      rw [matchFrom?, if_neg (by simp [hlength])]
      obtain ⟨b₁, hb₁, hagrees⟩ := matchOperator?_complete (t := t) hb hoperator
      simp only [hb₁]
      exact matchAllFrom?_complete hagrees hall
  | .error _ _ _, _, _, _, h => h.elim

theorem matchAllFrom?_complete : ∀ {ps es : List Expr} {b : Bindings}, Agrees σ b →
    FitsAll σ ps es → ∃ b', matchAllFrom? t ps es b = some b' ∧ Agrees σ b'
  | [], _, b, hb, _ => ⟨b, by rw [matchAllFrom?]; simp, hb⟩
  | _ :: _, [], b, hb, _ => ⟨b, by rw [matchAllFrom?]; simp, hb⟩
  | p :: ps, e :: es, b, hb, ⟨hp, hps⟩ => by
      obtain ⟨b₁, hb₁, hagrees⟩ := matchFrom?_complete hb hp
      rw [matchAllFrom?, hb₁]
      exact matchAllFrom?_complete hagrees hps

end

end Complete

/-! ## The main result -/

/-- **Matching is sound, complete and minimal.**  What it binds are the named wildcards of the
pattern, each once, and the pattern fits when they are read as bound; and it binds them whenever the
pattern fits under any reading, in agreement with that reading. -/
theorem match_iff_fits (t : DefinitionTable) (p e : Expr) :
    (∀ b, match? t p e = some b → Fits (b.lookup ·) p e ∧ (names b).Nodup ∧
      ∀ w, w ∈ names b ↔ w ∈ wildcards p) ∧
    ∀ σ, Fits σ p e → ∃ b, match? t p e = some b ∧
      ∀ w ∈ wildcards p, ∃ x y, b.lookup w = some x ∧ σ w = some y ∧ x.same y = true := by
  refine ⟨fun b hb => ?_, fun σ hσ => ?_⟩
  · obtain ⟨hgrows, hfits⟩ := matchFrom?_sound hb
    exact ⟨hfits _ fun _ _ hx => hx, hgrows.nodup .nil, fun w => by simpa using hgrows.names w⟩
  · obtain ⟨b, hb, hagrees⟩ : ∃ b, match? t p e = some b ∧ Agrees σ b :=
      matchFrom?_complete (fun _ _ h => by cases h) hσ
    refine ⟨b, hb, fun w hw => ?_⟩
    obtain ⟨x, hx⟩ := exists_lookup (((matchFrom?_sound hb).1.names w).2 (.inr hw))
    obtain ⟨y, hy, hxy⟩ := hagrees w x hx
    exact ⟨x, y, hx, hy, hxy⟩

/-- `_f(_x, _f(2, _x))`: a wildcard in the place of an operator, and each of them twice. -/
def nested : Expr :=
  .application "_f" [.symbol "_x" none true,
    .application "_f" [.number (.ofInt 2), .symbol "_x" none true] none true] none true

/-- `Foo(a, Foo(2.0, a))`. -/
def nestedFoo : Expr :=
  .application "Foo" [.symbol "a" none true,
    .application "Foo" [.number (.real (.machine 2)), .symbol "a" none false] none false] none true

theorem match_iff_fits_nested :
    ∃ b, match? {} nested nestedFoo = some b ∧ Fits (b.lookup ·) nested nestedFoo ∧
      (∀ w, w ∈ names b ↔ w ∈ wildcards nested) ∧
      ∃ b', match? {} nested nestedFoo = some b' ∧ ∀ w ∈ wildcards nested,
        ∃ x y, b'.lookup w = some x ∧ b.lookup w = some y ∧ x.same y = true := by
  obtain ⟨b, hb⟩ := Option.isSome_iff_exists.1
    (show (match? {} nested nestedFoo).isSome = true by decide +kernel)
  obtain ⟨hfits, -, hnames⟩ := (match_iff_fits {} nested nestedFoo).1 b hb
  exact ⟨b, hb, hfits, hnames, (match_iff_fits {} nested nestedFoo).2 _ hfits⟩

end SymbolicAlgebra.Pattern
