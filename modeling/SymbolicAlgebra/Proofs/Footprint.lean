import SymbolicAlgebra.Proofs.Construction
import SymbolicAlgebra.Proofs.Standard
import SymbolicAlgebra.Rewriting.RuleFile

/-!
# Proofs/Footprint — what building a shape leaves in the table

A shape is built from the inside out, and each part leaves its mark at once: names are met, types are
inferred.  Nothing is taken back when a later part turns out not to be built.  `Footprint` bounds the
mark: names are added that occur in the shape and had no definition, and definitions that these names
refer to are narrowed if they were inferred and open; everything else is as it was.

`construction_footprint` says this of every shape, and of every line of a rule file, whether it is built
or skipped; `failed_construction_meets` shows that something does stay behind.
-/

namespace SymbolicAlgebra

/-! ## Definitions that are narrowed once -/

/-- A definition, and what inferring may make of it. -/
inductive Definition.Refines (d : Definition) : Definition → Prop
  | refl : Refines d d
  | narrowed {type : TypeName} (h : d.accepts type = true) : Refines d (d.narrow type)

namespace Definition

/-- What was narrowed is settled, so it stays. -/
theorem Refines.eq_of_accepts {d d' : Definition} {type : TypeName} (h : d.Refines d')
    (h' : d'.accepts type = true) : d' = d := by
  cases h with
  | refl => rfl
  | narrowed h =>
      rw [accepts_iff, isSettled_narrow h] at h'
      exact absurd h'.2.1 (by simp)

end Definition

/-! ## What names refer to -/

namespace Expr

mutual

/-- Whether a name stands in an expression for the registration `i`. -/
def refersTo (name : String) (i : Nat) : Expr → Bool
  | symbol n d _ => n == name && d == some i
  | application f ops d _ => (f == name && d == some i) || anyRefersTo name i ops
  | _ => false

def anyRefersTo (name : String) (i : Nat) : List Expr → Bool
  | [] => false
  | e :: rest => refersTo name i e || anyRefersTo name i rest

end

theorem anyRefersTo_iff {name : String} {i : Nat} {es : List Expr} :
    anyRefersTo name i es = true ↔ ∃ e ∈ es, e.refersTo name i = true := by
  induction es with
  | nil => simp [anyRefersTo]
  | cons e rest ih => simp [anyRefersTo, ih]

theorem anyMentions_iff {name : String} {es : List Expr} :
    anyMentions name es = true ↔ ∃ e ∈ es, e.mentions name = true := by
  induction es with
  | nil => simp [anyMentions]
  | cons e rest ih => simp [anyMentions, ih]

theorem congruence_mentions (name : String) :
    Congruence (fun e x => x.mentions name = e.mentions name)
      fun xs ys => anyMentions name ys = anyMentions name xs where
  number _ := rfl
  symbol := rfl
  application _ h := by rw [mentions, mentions, h]
  error _ := rfl
  nil := rfl
  cons _ hx hxs := by rw [anyMentions, anyMentions, hx, hxs]

/-- Equal expressions have the same names. -/
theorem mentions_of_same {name : String} {e x : Expr} (h : e.same x = true) :
    x.mentions name = e.mentions name :=
  (congruence_mentions name).of_same h

/-- The registration of an expression is what its own name refers to. -/
theorem exists_refersTo {e : Expr} {i : Nat} (h : e.definition? = some i) :
    ∃ name, e.mentions name = true ∧ e.refersTo name i = true := by
  cases e with
  | symbol n d c => exact ⟨n, by simp [mentions], by simp [refersTo, show d = some i from h]⟩
  | application f ops d c =>
      exact ⟨f, by simp [mentions], by simp [refersTo, show d = some i from h]⟩
  | number _ => cases h
  | error _ _ _ => cases h

end Expr

/-- Whether a name refers to a registration: it stands for it, or does in an expression built before. -/
def Kernel.Refers (k : Kernel) (name : String) (i : Nat) : Prop :=
  k.table.number? name = some i ∨ ∃ x ∈ k.pool, x.refersTo name i = true

namespace Kernel

open DefinitionTable

/-! ## Footprints -/

/-- A table that was the one of `k` before a shape with these names was built, or was about to be. -/
structure Footprint (k : Kernel) (names : List String) (t : DefinitionTable) : Prop where
  /-- Names that had no definition are added to those that had one. -/
  added : ∃ new, t.names = k.table.names ++ new ∧
    t.entries.size = k.table.entries.size + new.length ∧
    ∀ q ∈ new, q.1 ∈ names ∧ Expr.isWildcardName q.1 = false ∧ k.table.contains q.1 = false ∧
      k.table.entries.size ≤ q.2 ∧
      ∃ d d', Definition.IsMet q.1 d ∧ t.get? q.2 = some d' ∧ d.Refines d'
  /-- Definitions are as they were, or narrowed once if a name refers to them. -/
  kept : ∀ i d, k.table.get? i = some d → ∃ d', t.get? i = some d' ∧ d.Refines d' ∧
    (d' = d ∨ ∃ name, (name ∈ names ∨ name ∈ formOperators) ∧ k.Refers name i)

/-- Whether these names all have definitions, and refer to none that is open. -/
structure Knows (k : Kernel) (names : List String) : Prop where
  defined : ∀ n ∈ names, Expr.isWildcardName n = true ∨ k.table.contains n = true
  settled : ∀ n, n ∈ names ∨ n ∈ formOperators → ∀ i d type, k.Refers n i →
    k.table.get? i = some d → d.accepts type = false

namespace Footprint

variable {k : Kernel} {names : List String} {t : DefinitionTable}

theorem refl (k : Kernel) (names : List String) : Footprint k names k.table where
  added := ⟨[], by simp⟩
  kept _ d hd := ⟨d, hd, .refl, .inl rfl⟩

/-- A name that had a definition has one still. -/
theorem contains (h : Footprint k names t) {n : String} (hn : k.table.contains n = true) :
    t.contains n = true := by
  obtain ⟨new, hnames, -⟩ := h.added
  rw [DefinitionTable.contains, number?] at hn ⊢
  rw [hnames, List.lookup_append, Option.isSome_or, hn, Bool.true_or]

/-- A registration that a name stands for is the one it stood for, or a new one. -/
theorem number? (h : Footprint k names t) {n : String} {i : Nat} (hn : t.number? n = some i) :
    k.table.number? n = some i ∨ k.table.entries.size ≤ i := by
  obtain ⟨new, hnames, -, hnew⟩ := h.added
  rw [DefinitionTable.number?, hnames, List.lookup_append] at hn
  cases hold : k.table.names.lookup n with
  | some j =>
      rw [hold, Option.some_or] at hn
      exact .inl (hold.trans hn)
  | none =>
      rw [hold, Option.none_or] at hn
      obtain ⟨before, after, hsplit⟩ := List.lookup_eq_some_iff.1 hn
      exact .inr (hnew (n, i) (by rw [hsplit.1]; simp)).2.2.2.1

/-- A name of the shape is met. -/
theorem register (h : Footprint k names t) {name : String} {d : Definition} (hname : name ∈ names)
    (hwildcard : Expr.isWildcardName name = false) (hnew : t.contains name = false)
    (hd : Definition.IsMet name d) : Footprint k names (t.register name d) where
  added := by
    obtain ⟨new, hnames, hsize, hadded⟩ := h.added
    have hold : k.table.contains name = false := by
      by_contra hold
      rw [h.contains (by simpa using hold)] at hnew
      cases hnew
    refine ⟨new ++ [(name, t.entries.size)], ?_, ?_, ?_⟩
    · simp [DefinitionTable.register, hnew, hnames]
    · simp [DefinitionTable.register, hsize]
      omega
    · rw [List.forall_mem_append, List.forall_mem_singleton]
      refine ⟨fun q hq => ?_, hname, hwildcard, hold, by omega, d, d, hd, ?_, .refl⟩
      · obtain ⟨hmem, hw, hcontains, hle, x, x', hx, hx', hrefines⟩ := hadded q hq
        refine ⟨hmem, hw, hcontains, hle, x, x', hx, ?_, hrefines⟩
        rw [get?_register, if_neg (ne_size_of_get? hx'), hx']
      · rw [get?_register, if_pos rfl]
  kept i x hx := by
    obtain ⟨x', hx', hrefines, hreason⟩ := h.kept i x hx
    exact ⟨x', by rw [get?_register, if_neg (ne_size_of_get? hx'), hx'], hrefines, hreason⟩

/-- A definition that a name of the shape refers to is narrowed, or one that was just met. -/
theorem narrow (h : Footprint k names t) {i : Nat} {d : Definition} {type : TypeName}
    (hd : t.get? i = some d) (haccepts : d.accepts type = true)
    (hrefers : k.table.entries.size ≤ i ∨
      ∃ name, (name ∈ names ∨ name ∈ formOperators) ∧ k.Refers name i) :
    Footprint k names (t.modify i fun _ => d.narrow type) where
  added := by
    obtain ⟨new, hnames, hsize, hadded⟩ := h.added
    refine ⟨new, hnames, ?_, fun q hq => ?_⟩
    · rw [← hsize]
      exact Array.size_modify
    · obtain ⟨hmem, hw, hcontains, hle, x, x', hx, hx', hrefines⟩ := hadded q hq
      refine ⟨hmem, hw, hcontains, hle, ?_⟩
      rw [get?_narrow hd]
      split
      next hi =>
        rw [← hi, hd] at hx'
        cases hx'
        obtain rfl := hrefines.eq_of_accepts haccepts
        exact ⟨_, _, hx, rfl, .narrowed haccepts⟩
      next => exact ⟨x, x', hx, hx', hrefines⟩
  kept j x hx := by
    obtain ⟨x', hx', hrefines, hreason⟩ := h.kept j x hx
    rw [get?_narrow hd]
    split
    next hi =>
      subst hi
      rw [hd] at hx'
      cases hx'
      obtain rfl := hrefines.eq_of_accepts haccepts
      refine ⟨_, rfl, .narrowed haccepts, .inr (hrefers.resolve_left fun hle => ?_)⟩
      obtain ⟨hlt, -⟩ := Array.getElem?_eq_some_iff.1 hx
      omega
    next => exact ⟨x', hx', hrefines, hreason⟩

/-- Names that are known leave the table as it is. -/
theorem eq_of_knows (h : Footprint k names t) (hknows : k.Knows names) : t = k.table := by
  obtain ⟨new, hlist, hsize, hadded⟩ := h.added
  have hnone : new = [] := by
    refine List.eq_nil_iff_forall_not_mem.2 fun q hq => ?_
    obtain ⟨hmem, hw, hcontains, -⟩ := hadded q hq
    rcases hknows.defined q.1 hmem with h | h
    · rw [hw] at h
      cases h
    · rw [hcontains] at h
      cases h
  subst hnone
  have hentries : t.entries = k.table.entries := by
    refine Array.ext (by simpa using hsize) fun i hi hi' => ?_
    obtain ⟨d', hd', hrefines, hreason⟩ := h.kept i k.table.entries[i] (by simp [get?, hi'])
    have heq : d' = k.table.entries[i] := by
      rcases hreason with heq | ⟨n, hn, hrefers⟩
      · exact heq
      · cases hrefines with
        | refl => rfl
        | narrowed haccepts =>
            rw [hknows.settled n hn i _ _ hrefers (by simp [get?, hi'])] at haccepts
            cases haccepts
    rw [get?, Array.getElem?_eq_getElem hi, Option.some.injEq] at hd'
    exact hd'.trans heq
  rw [List.append_nil] at hlist
  cases t
  cases hk : k.table
  simp_all

end Footprint

/-! ## Building leaves a footprint -/

/-- Whether the names in an expression refer to nothing that they did not refer to before. -/
def Points (k : Kernel) (e : Expr) : Prop :=
  ∀ n i, e.refersTo n i = true → k.Refers n i ∨ k.table.entries.size ≤ i

/-- An expression that has only names of the shape, or the operators of forms, and points. -/
structure Traced (k : Kernel) (names : List String) (e : Expr) : Prop where
  names : ∀ n, e.mentions n = true → n ∈ names ∨ n ∈ formOperators
  points : k.Points e

namespace Traced

variable {k : Kernel} {names : List String}

theorem symbol {n : String} {d : Option Nat} {c : Bool} (hn : n ∈ names)
    (hd : ∀ i, d = some i → k.Refers n i ∨ k.table.entries.size ≤ i) :
    Traced k names (.symbol n d c) where
  names m hm := by
    rw [Expr.mentions, beq_iff_eq] at hm
    exact .inl (hm ▸ hn)
  points m i hm := by
    rw [Expr.refersTo, Bool.and_eq_true, beq_iff_eq, beq_iff_eq] at hm
    exact hm.1 ▸ hd i hm.2

theorem application {f : String} {ops : List Expr} {d : Option Nat} {c : Bool}
    (hf : f ∈ names ∨ f ∈ formOperators)
    (hd : ∀ i, d = some i → k.Refers f i ∨ k.table.entries.size ≤ i)
    (hops : ∀ e ∈ ops, Traced k names e) : Traced k names (.application f ops d c) where
  names m hm := by
    rw [Expr.mentions, Bool.or_eq_true, beq_iff_eq, Expr.anyMentions_iff] at hm
    rcases hm with rfl | ⟨e, he, hm⟩
    · exact hf
    · exact (hops e he).names m hm
  points m i hm := by
    rw [Expr.refersTo, Bool.or_eq_true, Bool.and_eq_true, beq_iff_eq, beq_iff_eq,
      Expr.anyRefersTo_iff] at hm
    rcases hm with ⟨rfl, rfl⟩ | ⟨e, he, hm⟩
    · exact hd i rfl
    · exact (hops e he).points m i hm

theorem operand {f : String} {ops : List Expr} {d : Option Nat} {c : Bool}
    (h : Traced k names (.application f ops d c)) : ∀ e ∈ ops, Traced k names e := fun e he =>
  { names := fun n hn => h.names n <| by
      rw [Expr.mentions, Expr.anyMentions_iff.2 ⟨e, he, hn⟩, Bool.or_true]
    points := fun n i hn => h.points n i <| by
      rw [Expr.refersTo, Expr.anyRefersTo_iff.2 ⟨e, he, hn⟩, Bool.or_true] }

theorem of_isError {e : Expr} (h : e.isError = true) : Traced k names e := by
  cases e with
  | error a b x =>
      exact ⟨fun _ h => by simp [Expr.mentions] at h, fun _ _ h => by simp [Expr.refersTo] at h⟩
  | _ => cases h

end Traced

/-- **What is built of a shape has its names**, and leaves a footprint of them. -/
def tracing (k : Kernel) (names : List String) : Construction where
  Holds k' := Footprint k names k'.table ∧ ∀ x ∈ k'.pool, k.Points x
  Built := Traced k names
  Stands := Traced k names
  Meets n := n ∈ names
  Mode _ _ := True
  stands he := he
  built he _ := he
  number v := ⟨fun _ h => by simp [Expr.mentions] at h, fun _ _ h => by simp [Expr.refersTo] at h⟩
  error := .of_isError
  wildcard hn := .symbol hn fun _ h => by cases h
  symbol hk hn := .symbol hn fun _ h => (hk.1.number? h).imp_left .inl
  heldSymbol hk hn := .symbol hn fun _ h => (hk.1.number? h).imp_left .inl
  application hk hf hops := .application hf
    (fun _ h => (hk.1.number? (number?_of_functionNumber? h)).imp_left .inl) hops
  lazyApplication hk hf _ hops := .application (.inl hf)
    (fun _ h => (hk.1.number? (number?_of_functionNumber? h)).imp_left .inl) hops
  heldApplication hk hf hops := .application (.inl hf)
    (fun _ h => (hk.1.number? (number?_of_functionNumber? h)).imp_left .inl) hops
  operand _ h := h.operand
  heldOperand h := h.operand
  mode _ _ := trivial
  sequence := trivial
  negate := trivial
  pooling hk he := ⟨hk.1, List.forall_mem_cons.2 ⟨he.points, hk.2⟩⟩
  pooled hk he hx hsame :=
    ⟨fun n hn => he.names n ((Expr.mentions_of_same hsame).symm.trans hn), hk.2 _ hx⟩
  noted _ hk := hk
  narrowed hk he hd := by
    obtain ⟨hi, hentry, -, haccepts⟩ := narrowable?_eq_some.1 hd
    obtain ⟨n, hmentions, hrefers⟩ := Expr.exists_refersTo hi
    refine ⟨hk.1.narrow hentry haccepts ?_, hk.2⟩
    exact (he.points n _ hrefers).symm.imp_right fun h => ⟨n, he.names n hmentions, h⟩
  met hk hnew hname hwildcard hd := ⟨hk.1.register hname hwildcard hnew hd, hk.2⟩

/-- Nothing was built yet. -/
theorem tracing_holds (k : Kernel) (names : List String) : (tracing k names).Holds k :=
  ⟨.refl k names, fun x hx _ _ h => .inl (.inr ⟨x, hx, h⟩)⟩

end Kernel

/-! ## Lines of a rule file -/

/-- The names of the shape that is built for a side of a rule. -/
def Side.names : Side → List String
  | .raw (.name text) =>
      match Sexpr.parse text with
      | .ok (some r) => (r.renameBy patternVariables).names
      | _ => []
  | .raw r => (r.renameBy patternVariables).names
  | _ => []

/-- The names of the shapes that are built for a line of a rule file. -/
def RuleLine.namesOf (line : String) : List String :=
  match RuleLine.parse line with
  | .ok (some parts) =>
      Side.names (.raw (rawOf parts.condition)) ++ Side.names (.raw (.name parts.lhs)) ++
        Side.names (.raw (.name parts.rhs))
  | _ => []

namespace Kernel

namespace Construction

variable (C : Construction)

theorem compileSide {s : Side} (hs : ∀ n ∈ s.names, C.Meets n) :
    Maintains C.Holds (Kernel.compileSide s) := by
  intro k hk
  unfold Kernel.compileSide
  split
  next => exact .pure hk trivial
  next text =>
    refine Upholds.bind (P := fun o _ => Sexpr.parse text = .ok o) ?_ fun o k₁ hk₁ ho => ?_
    · cases Sexpr.parse text with
      | error f => exact hk
      | ok o => exact ⟨hk, rfl⟩
    · cases o with
      | none => exact .throw hk₁
      | some r => exact (C.box hk₁ (by simpa [Side.names, ho] using hs)).forget
  next r hr => 
    have hnames : Side.names (.raw r) = (r.renameBy patternVariables).names := by
      cases r with
      | name text => exact absurd rfl (hr text)
      | _ => rfl
    exact (C.hold hk (hnames ▸ hs)).forget
  next => exact .throw hk

theorem compileCondition {s : Side} (hs : ∀ n ∈ s.names, C.Meets n) :
    Maintains C.Holds (Kernel.compileCondition s) := by
  unfold Kernel.compileCondition
  split
  · exact .pure _
  · exact .pure _
  · exact (C.compileSide hs).bind fun _ => .pure _
  · exact (C.compileSide hs).bind fun _ => .pure _
  · exact .pure _
  · exact .throw _

/-- **A line of a rule file leaves no other mark than its sides**, also if it is skipped. -/
theorem ruleOfLine (number : Nat) {line : String} (hline : ∀ n ∈ RuleLine.namesOf line, C.Meets n) :
    Maintains C.Holds (Kernel.ruleOfLine number line) := by
  refine Maintains.tryCatch ?_ fun f => .ite ((C.log _ _ _).bind fun _ => .pure _) (.throw _)
  intro k hk
  refine Upholds.bind (P := fun o _ => RuleLine.parse line = .ok o) ?_ fun o k₁ hk₁ ho => ?_
  · cases RuleLine.parse line with
    | error f => exact hk
    | ok o => exact ⟨hk, rfl⟩
  · cases o with
    | none => exact .pure hk₁ trivial
    | some parts =>
        rw [RuleLine.namesOf, ho, List.forall_mem_append, List.forall_mem_append] at hline
        have hrule : Maintains C.Holds (compileLine parts) :=
          (C.compileCondition hline.1.1).bind fun _ => (C.compileSide hline.1.2).bind fun _ =>
            (C.compileSide hline.2).bind fun _ => .pure _
        exact (hrule.bind fun _ => .pure _) k₁ hk₁

end Construction

/-! ## The main result -/

theorem Upholds.holds {α : Type} {J : Kernel → Prop} {x : Action α} {k : Kernel}
    {P : α → Kernel → Prop} (h : Upholds J x k P) : J (x.run.run k).2 := by
  unfold Upholds at h
  rcases hr : x.run.run k with ⟨_ | _, k'⟩
  · rw [hr] at h
    exact h
  · rw [hr] at h
    exact h.1

/-- **A construction leaves at most a footprint**, also when it fails: of a shape, that of its names; of
a line of a rule file, that of the names of its sides, where pattern variables are wildcards.  If these
are known, the table stays as it is. -/
theorem construction_footprint (k : Kernel) :
    (∀ r, Footprint k r.names ((box r).run.run k).2.table ∧
      (k.Knows r.names → ((box r).run.run k).2.table = k.table)) ∧
    ∀ number line,
      Footprint k (RuleLine.namesOf line) ((ruleOfLine number line).run.run k).2.table ∧
        (k.Knows (RuleLine.namesOf line) →
          ((ruleOfLine number line).run.run k).2.table = k.table) := by
  refine ⟨fun r => ?_, fun number line => ?_⟩
  · have h := ((tracing k r.names).box (tracing_holds k _) fun _ h => h).holds.1
    exact ⟨h, h.eq_of_knows⟩
  · have h := ((tracing k (RuleLine.namesOf line)).ruleOfLine number (fun _ h => h) k
      (tracing_holds k _)).holds.1
    exact ⟨h, h.eq_of_knows⟩

/-- A sum that cannot be built, of names that are known. -/
def brokenSum : Raw := .list [.name "Add", .name "Pi", .null]

/-- A sum with a name that has no definition before the part that cannot be built. -/
def brokenSumOfX : Raw := .list [.name "Add", .name "x", .null]

theorem knows_brokenSum : standard.Knows brokenSum.names := by
  have hdefined : ∀ n ∈ brokenSum.names, standard.table.contains n = true := by
    rw [standard_eq]
    decide +kernel
  have hsettled : ∀ n ∈ brokenSum.names ++ formOperators,
      (standard.table.find? n).all fun d => !d.isInferred := by
    rw [standard_eq]
    decide +kernel
  refine ⟨fun n hn => .inr (hdefined n hn), fun n hn i d type hrefers hd => ?_⟩
  rcases hrefers with hi | ⟨x, hx, -⟩
  · have h := hsettled n (List.mem_append.2 hn)
    rw [DefinitionTable.find?, hi, Option.bind_some, hd] at h
    refine Bool.eq_false_iff.2 fun haccepts => ?_
    rw [Option.all_some, ((Definition.accepts_iff d type).1 haccepts).1] at h
    cases h
  · rw [standard_pool] at hx
    cases hx

/-- Nothing stays of a sum whose names were known. -/
theorem construction_footprint_brokenSum : standard.Knows brokenSum.names ∧
    ∃ f k', (box brokenSum).run.run standard = (.error f, k') ∧ k'.table = standard.table := by
  have hfails : ((box brokenSum).run.run standard).1.toOption.isNone = true := by
    rw [standard_eq]
    decide +kernel
  refine ⟨knows_brokenSum, ?_⟩
  have htable := ((construction_footprint standard).1 brokenSum).2 knows_brokenSum
  rcases hr : (box brokenSum).run.run standard with ⟨f | e, k'⟩
  · rw [hr] at htable
    exact ⟨f, k', rfl, htable⟩
  · rw [hr] at hfails
    cases hfails

/-- What was built before a failure stays: a name is met by a shape whose last part cannot be built, and
by the first side of a line that is skipped for its second. -/
theorem failed_construction_meets :
    (∃ f k', (box brokenSumOfX).run.run standard = (.error f, k') ∧
      standard.table.contains "x" = false ∧ k'.table.contains "x" = true) ∧
    ∃ k', (ruleOfLine 1 "(Foo x) => (Bar").run.run standard = (.ok [], k') ∧
      standard.table.contains "Foo" = false ∧ k'.table.contains "Foo" = true := by
  have hshape : (((box brokenSumOfX).run.run standard).1.toOption.isNone &&
      ((box brokenSumOfX).run.run standard).2.table.contains "x") = true := by
    rw [standard_eq]
    decide +kernel
  have hline := run_of_any_after (x := ruleOfLine 1 "(Foo x) => (Bar") (k := standard)
    (p := fun rules k' => rules.isEmpty && k'.table.contains "Foo")
    (by rw [standard_eq]; decide +kernel)
  refine ⟨?_, ?_⟩
  · rcases hr : (box brokenSumOfX).run.run standard with ⟨f | e, k'⟩
    · rw [hr, Bool.and_eq_true] at hshape
      exact ⟨f, k', rfl, by rw [standard_eq]; decide +kernel, hshape.2⟩
    · rw [hr] at hshape
      cases hshape
  · obtain ⟨rules, k', hr, h⟩ := hline
    rw [Bool.and_eq_true, List.isEmpty_iff] at h
    exact ⟨k', by rw [hr, h.1], by rw [standard_eq]; decide +kernel, h.2⟩

end Kernel

end SymbolicAlgebra
