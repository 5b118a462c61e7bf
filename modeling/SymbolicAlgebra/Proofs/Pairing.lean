import SymbolicAlgebra.Proofs.Representation
import SymbolicAlgebra.Proofs.Surface

/-!
# Proofs/Pairing — two kernels side by side

Two kernels are `Paired` if they have one table, and their pools offer expressions with one surface.  The
second pool may be ahead of the first one: what the first kernel has yet to come to, its *awaited* wildcards
and numbers, is in the second one already.  Expressions with one surface are interned alike
(`Paired.intern`), and so are numbers that are *grounded* (`Paired.makeNumber`): a floating zero is in the
pool before, and of other numbers without decimals there is only one form.  What is awaited the second
kernel has no more to intern (`Paired.reach`).

`Follows x k y l Q` says that `y` succeeds in the kernel `l` whenever `x` does in `k`, and that the two
results and the two kernels are then related by `Q`.
-/

namespace SymbolicAlgebra

open SymbolicAlgebra.Expr

/-! ## What is held back does not change -/

namespace DefinitionTable

variable {t t' : DefinitionTable}

/-- Tables in which the same operators hold their operands back, and the same applications are theirs. -/
structure HoldsAlike (t t' : DefinitionTable) : Prop where
  operands : ∀ f, t'.holdsOperands f = t.holdsOperands f
  keeps : ∀ f d, t'.keeps f d = t.keeps f d

namespace HoldsAlike

theorem refl (t : DefinitionTable) : t.HoldsAlike t := ⟨fun _ => rfl, fun _ _ => rfl⟩

theorem trans {t₁ t₂ t₃ : DefinitionTable} (h : t₁.HoldsAlike t₂) (h' : t₂.HoldsAlike t₃) :
    t₁.HoldsAlike t₃ :=
  ⟨fun f => (h'.operands f).trans (h.operands f), fun f d => (h'.keeps f d).trans (h.keeps f d)⟩

theorem narrow {i : Nat} {d : Definition} (hd : t.get? i = some d) (type : TypeName) :
    t.HoldsAlike (t.modify i fun _ => d.narrow type) := by
  have hoperands : ∀ f, (t.modify i fun _ => d.narrow type).holdsOperands f = t.holdsOperands f :=
    fun f => read_find?_narrow (φ := holdsBack) hd (by cases d <;> rfl) f
  refine ⟨hoperands, fun f j => ?_⟩
  have hfunction : ((t.modify i fun _ => d.narrow type).find? f).any (·.function?.isSome) =
      (t.find? f).any (·.function?.isSome) :=
    read_find?_narrow (φ := (·.any (·.function?.isSome))) hd (by cases d <;> rfl) f
  have hnumber : ∀ t : DefinitionTable, t.functionNumber? f =
      if (t.find? f).any (·.function?.isSome) then t.number? f else none := fun t => by
    rw [functionNumber?]
    rcases t.find? f with _ | _ | _ <;> rfl
  rw [DefinitionTable.keeps, DefinitionTable.keeps, hoperands, hnumber, hnumber, hfunction,
    number?_modify]

theorem register {name : String} {d : Definition} (hname : t.contains name = false)
    (hd : Definition.IsMet name d) : t.HoldsAlike (t.register name d) := by
  have hoperands : ∀ f, (t.register name d).holdsOperands f = t.holdsOperands f :=
    fun f => read_find?_register (φ := holdsBack) hname (by cases hd <;> rfl) f
  refine ⟨hoperands, fun f j => ?_⟩
  rw [DefinitionTable.keeps, DefinitionTable.keeps, hoperands]
  cases hf : t.holdsOperands f with
  | false => rfl
  | true =>
      have hne : f ≠ name := by
        rintro rfl
        have h := find?_of_contains hname
        rw [find?] at h
        rw [holdsOperands, h] at hf
        cases hf
      have hfind : (t.register name d).find? f = t.find? f := by
        cases hold : t.find? f with
        | none =>
            rw [find?] at hold
            rw [holdsOperands, hold] at hf
            cases hf
        | some x => rw [find?_register name d hold, if_neg hne]
      rw [functionNumber?, functionNumber?, hfind, number?_register, if_neg hne]

mutual

theorem surface_eq (h : t.HoldsAlike t') : ∀ e : Expr, e.surface t' = e.surface t
  | .number _ => rfl
  | .symbol _ _ _ => rfl
  | .application f ops d c => by
      rw [surface, surface, h.keeps, surfaceAll_eq h ops]
  | .error _ _ _ => rfl

theorem surfaceAll_eq (h : t.HoldsAlike t') : ∀ es : List Expr, surfaceAll t' es = surfaceAll t es
  | [] => rfl
  | e :: rest => congrArg₂ List.cons (surface_eq h e) (surfaceAll_eq h rest)

end

end HoldsAlike

namespace HoldsPlainly

theorem narrow (ht : t.HoldsPlainly) {i : Nat} {d : Definition} (hd : t.get? i = some d)
    (type : TypeName) : (t.modify i fun _ => d.narrow type).HoldsPlainly where
  fixed {f} hf := by
    have halike := HoldsAlike.narrow hd type
    have hkeeps := halike.keeps f ((t.modify i fun _ => d.narrow type).functionNumber? f)
    rw [halike.operands] at hf
    rw [keeps, keeps, halike.operands, hf, Bool.true_and, Bool.true_and, beq_self_eq_true,
      eq_comm, beq_iff_eq] at hkeeps
    obtain ⟨j, g, result, hj, hg, hresult⟩ := ht.fixed hf
    rw [hkeeps, hj]
    by_cases hij : i = j
    · subst hij
      rw [hd] at hg
      cases hg
      exact ⟨i, _, type, rfl, by rw [get?_narrow hd, if_pos rfl]; rfl, rfl⟩
    · exact ⟨j, g, result, rfl, by rw [get?_narrow hd, if_neg hij, hg], hresult⟩
  opened hf := by rw [(HoldsAlike.narrow hd type).operands, ht.opened hf]

theorem register (ht : t.HoldsPlainly) {name : String} {d : Definition}
    (hname : t.contains name = false) (hd : Definition.IsMet name d) :
    (t.register name d).HoldsPlainly where
  fixed {f} hf := by
    have halike := HoldsAlike.register hname hd
    have hkeeps := halike.keeps f ((t.register name d).functionNumber? f)
    rw [halike.operands] at hf
    rw [keeps, keeps, halike.operands, hf, Bool.true_and, Bool.true_and, beq_self_eq_true,
      eq_comm, beq_iff_eq] at hkeeps
    obtain ⟨j, g, result, hj, hg, hresult⟩ := ht.fixed hf
    exact ⟨j, g, result, by rw [hkeeps, hj], by rw [get?_register, if_neg (ne_size_of_get? hg), hg],
      hresult⟩
  opened hf := by rw [(HoldsAlike.register hname hd).operands, ht.opened hf]

end HoldsPlainly

end DefinitionTable

namespace Kernel

open DefinitionTable

/-! ## What the pool offers -/

section Pool

variable {p : List Expr} {e e' x : Expr}

theorem pooled?_cons (x : Expr) (p : List Expr) (e : Expr) :
    pooled? (x :: p) e = if e.same x then some x else pooled? p e := by
  rw [pooled?, List.find?_cons]
  cases e.same x <;> rfl

/-- The pool offers the same expression for expressions that are the same. -/
theorem pooled?_congr (h : e.same e' = true) (p : List Expr) : pooled? p e = pooled? p e' := by
  have hsame : e.same = e'.same := funext fun x =>
    Bool.eq_iff_iff.2 ⟨same_trans (same_symm h), same_trans h⟩
  rw [pooled?, hsame, pooled?]

theorem same_of_pooled? (h : pooled? p e = some x) : e.same x = true := by
  have := List.find?_some h
  exact this

theorem mem_of_pooled? (h : pooled? p e = some x) : x ∈ p := List.mem_of_find?_eq_some h

/-- What a pool offers it still offers when something that is not in it is added. -/
theorem pooled?_cons_of_none (hnew : pooled? p x = none) (h : pooled? p e = some e') :
    pooled? (x :: p) e = some e' := by
  rw [pooled?_cons, if_neg, h]
  intro hsame
  rw [pooled?_congr hsame, hnew] at h
  cases h

theorem pooled?_append (p q : List Expr) (e : Expr) :
    pooled? (p ++ q) e = (pooled? p e).or (pooled? q e) := by
  rw [pooled?, List.find?_append]
  rfl

end Pool

/-! ## Growing kernels -/

/-- A kernel, and what it may become when something is built in it. -/
structure Grows (k k' : Kernel) : Prop where
  table : k.table.HoldsAlike k'.table
  pool : ∀ e, (pooled? k.pool e).isSome = true → (pooled? k'.pool e).isSome = true

theorem Grows.refl (k : Kernel) : k.Grows k := ⟨.refl _, fun _ h => h⟩

/-- Building in a kernel lets it grow. -/
def growth (k : Kernel) : Construction where
  Holds := k.Grows
  Built _ := True
  Stands _ := True
  Meets _ := True
  Mode _ _ := True
  stands _ := trivial
  built _ _ := trivial
  number _ := trivial
  error _ := trivial
  wildcard _ := trivial
  symbol _ _ := trivial
  heldSymbol _ _ := trivial
  application _ _ _ := trivial
  lazyApplication _ _ _ _ := trivial
  heldApplication _ _ _ := trivial
  operand _ _ _ _ := trivial
  heldOperand _ _ _ := trivial
  mode _ _ := trivial
  sequence := trivial
  negate := trivial
  pooling {k' x} hk _ := ⟨hk.table, fun e he => by
    rw [pooling_pool, pooled?_cons]
    split
    · rfl
    · exact hk.pool e he⟩
  pooled _ _ _ _ := trivial
  noted _ hk := ⟨hk.table, hk.pool⟩
  narrowed hk _ hd := ⟨hk.table.trans (.narrow (narrowable?_eq_some.1 hd).2.1 _), hk.pool⟩
  met hk hname _ _ hd := ⟨hk.table.trans (.register hname hd), hk.pool⟩

/-! ## Numbers that are in the pool -/

end Kernel

namespace Expr

mutual

/-- The numbers in an expression, other than those below errors. -/
def literals : Expr → List Number
  | number v => [v]
  | application _ ops _ _ => literalsAll ops
  | _ => []

def literalsAll : List Expr → List Number
  | [] => []
  | e :: rest => literals e ++ literalsAll rest

end

theorem mem_literalsAll {es : List Expr} {v : Number} :
    v ∈ literalsAll es ↔ ∃ e ∈ es, v ∈ e.literals := by
  induction es with
  | nil => simp [literalsAll]
  | cons e rest ih => simp [literalsAll, ih]

theorem congruence_literals :
    Congruence (fun e x => ∀ w ∈ x.literals, ∃ v ∈ e.literals, v.same w = true)
      fun xs ys => ∀ w ∈ literalsAll ys, ∃ v ∈ literalsAll xs, v.same w = true where
  number {v _} h _ hu := by
    obtain rfl := List.mem_singleton.1 hu
    exact ⟨v, List.mem_singleton_self v, h⟩
  symbol _ hw := by cases hw
  application _ h := h
  error _ _ hw := by cases hw
  nil _ hw := by cases hw
  cons _ hx hxs w hw := by
    rcases List.mem_append.1 hw with hw | hw
    · obtain ⟨v, hv, hvw⟩ := hx w hw
      exact ⟨v, List.mem_append_left _ hv, hvw⟩
    · obtain ⟨v, hv, hvw⟩ := hxs w hw
      exact ⟨v, List.mem_append_right _ hv, hvw⟩

/-- Expressions that are the same are made of the same numbers. -/
theorem exists_literal_of_same {e x : Expr} (h : e.same x = true) {w : Number} (hw : w ∈ x.literals) :
    ∃ v ∈ e.literals, v.same w = true :=
  congruence_literals.of_same h w hw

end Expr

namespace Kernel

open DefinitionTable

variable {k k' l : Kernel}

/-- A tidy number that is in the pool if it is a floating zero. -/
structure Grounds (k : Kernel) (v : Number) : Prop where
  tidy : v.isTidy = true
  zero : v.isFloatingZero = true → (pooled? k.pool (.number v)).isSome = true

theorem Grounds.of_same {v w : Number} (h : k.Grounds v) (hsame : v.same w = true) : k.Grounds w where
  tidy := (Number.isTidy_of_same hsame).trans h.tidy
  zero hw := by
    rw [Number.isFloatingZero_of_same hsame] at hw
    rw [← pooled?_congr (show (Expr.number v).same (.number w) = true from hsame)]
    exact h.zero hw

/-- The numbers in an expression are tidy, and the floating zeros among them in the pool. -/
def Grounded (k : Kernel) (e : Expr) : Prop := ∀ v ∈ e.literals, k.Grounds v

theorem Grounded.mono {e : Expr} (h : k.Grounded e) (hk : k.Grows k') : k'.Grounded e :=
  fun v hv => ⟨(h v hv).tidy, fun hzero => hk.pool _ ((h v hv).zero hzero)⟩

theorem Grounded.of_same {e x : Expr} (h : k.Grounded e) (hsame : e.same x = true) : k.Grounded x := by
  intro w hw
  obtain ⟨v, hv, hvw⟩ := exists_literal_of_same hsame hw
  exact (h v hv).of_same hvw

theorem grounded_of_isError {e : Expr} (h : e.isError = true) : k.Grounded e := by
  cases e with
  | error _ _ _ => exact fun v hv => by cases hv
  | _ => cases h

theorem grounded_application {f : String} {ops : List Expr} {d : Option Nat} {c : Bool} :
    k.Grounded (.application f ops d c) ↔ ∀ e ∈ ops, k.Grounded e := by
  simp only [Grounded, literals, mem_literalsAll]
  exact ⟨fun h e he v hv => h v ⟨e, he, hv⟩, fun h v ⟨e, he, hv⟩ => h e he v hv⟩

theorem grounded_flatten {a : Option String} {ops : List Expr} (h : ∀ e ∈ ops, k.Grounded e) :
    ∀ e ∈ flatten a ops, k.Grounded e :=
  forall_flatten (fun _ _ _ _ _ => grounded_application.1) h

theorem grounded_refused {ops rs : List Expr} (hrefused : Refused ops rs)
    (h : ∀ e ∈ ops, k.Grounded e) : ∀ e ∈ rs, k.Grounded e :=
  fun e he => (hrefused.mem e he).elim (h e) grounded_of_isError

/-! ## Runs that follow each other -/

section Following

variable {α β γ δ : Type}

/-- If `x` succeeds in `k` then `y` does in `l`, and `Q` relates how they end. -/
def Follows (x : Action α) (k : Kernel) (y : Action β) (l : Kernel)
    (Q : α → Kernel → β → Kernel → Prop) : Prop :=
  ∀ a k', x.run.run k = (.ok a, k') → ∃ b l', y.run.run l = (.ok b, l') ∧ Q a k' b l'

namespace Follows

variable {x : Action α} {y : Action β} {f : α → Action γ} {g : β → Action δ}
  {Q Q' : α → Kernel → β → Kernel → Prop} {R : γ → Kernel → δ → Kernel → Prop}

theorem pure {a : α} {b : β} (h : Q a k b l) : Follows (Pure.pure a) k (Pure.pure b) l Q := by
  intro a' k' hrun
  cases hrun
  exact ⟨b, l, rfl, h⟩

theorem throw {e : Fault} : Follows (MonadExcept.throw e : Action α) k y l Q := by
  intro a k' hrun
  cases hrun

theorem bind (hx : Follows x k y l Q) (hf : ∀ a k' b l', x.run.run k = (.ok a, k') → Q a k' b l' →
    Follows (f a) k' (g b) l' R) : Follows (x >>= f) k (y >>= g) l R := by
  intro c k₂ hrun
  obtain ⟨a, k₁, ha, hc⟩ := exists_run_of_bind hrun
  obtain ⟨b, l₁, hb, hQ⟩ := hx a k₁ ha
  obtain ⟨d, l₂, hd, hR⟩ := hf a k₁ b l₁ ha hQ c k₂ hc
  refine ⟨d, l₂, ?_, hR⟩
  rw [run_bind, hb]
  exact hd

theorem mono (hx : Follows x k y l Q) (h : ∀ a k' b l', x.run.run k = (.ok a, k') → Q a k' b l' →
    Q' a k' b l') : Follows x k y l Q' := by
  intro a k' hrun
  obtain ⟨b, l', hb, hQ⟩ := hx a k' hrun
  exact ⟨b, l', hb, h a k' b l' hrun hQ⟩

/-- What is there already follows anything. -/
theorem of_yields {E : Fault → Prop} {b : β} (hx : Yields E x k fun a k' => Q a k' b l) :
    Follows x k (Pure.pure b) l Q :=
  fun _ _ hrun => ⟨b, l, rfl, hx.of_run hrun⟩

theorem forM {ε : Type} {es : List ε} {f : ε → Action Unit} {I : Kernel → Kernel → Prop}
    (h : ∀ e k l, I k l → Follows (f e) k (f e) l fun _ k' _ l' => I k' l') (hI : I k l) :
    Follows (es.forM f) k (es.forM f) l fun _ k' _ l' => I k' l' := by
  induction es generalizing k l with
  | nil => exact .pure hI
  | cons e rest ih => exact (h e k l hI).bind fun _ k' _ l' _ hI' => ih hI'

end Follows

end Following

/-- What building gave in a kernel that grew with it. -/
theorem Grows.of_run {α : Type} {x : Action α} {P : α → Kernel → Prop} {a : α}
    (hx : Upholds k.Grows x k P) (hrun : x.run.run k = (.ok a, k')) : k.Grows k' :=
  (hx.yields.of_run hrun).1

/-! ## Pairs of kernels -/

end Kernel

/-- Whether an expression is a wildcard, or a number that is definite. -/
def Expr.isFirm : Expr → Bool
  | .number v => v.isDefinite
  | .symbol n _ _ => isWildcardName n
  | _ => false

namespace Kernel

open DefinitionTable

variable {P V : List Expr} {k k' l : Kernel}

/-- Two kernels with one table, whose pools offer expressions with one surface once the expressions `V` that
the first one awaits have come to it.  The second one offers what the pool `P` does. -/
structure Paired (P V : List Expr) (k l : Kernel) : Prop where
  table : l.table = k.table
  settings : l.settings = k.settings
  plain : k.table.HoldsPlainly
  firm : ∀ x ∈ V, x.isFirm = true
  pools : ∀ e, ((pooled? k.pool e).or (pooled? V e)).map (surface k.table) =
    (pooled? l.pool e).map (surface k.table)
  kept : ∀ e x, pooled? P e = some x → pooled? l.pool e = some x

/-- Two expressions with one surface, the first of which is grounded. -/
structure Twins (k : Kernel) (a b : Expr) : Prop where
  surface : a.surface k.table = b.surface k.table
  grounded : k.Grounded a

/-- Lists of such expressions. -/
structure AllTwins (k : Kernel) (as bs : List Expr) : Prop where
  surface : surfaceAll k.table as = surfaceAll k.table bs
  grounded : ∀ a ∈ as, k.Grounded a

theorem Twins.mono {a b : Expr} (h : k.Twins a b) (hk : k.Grows k') : k'.Twins a b where
  surface := by rw [hk.table.surface_eq, hk.table.surface_eq, h.surface]
  grounded := h.grounded.mono hk

theorem AllTwins.mono {as bs : List Expr} (h : k.AllTwins as bs) (hk : k.Grows k') :
    k'.AllTwins as bs where
  surface := by rw [hk.table.surfaceAll_eq, hk.table.surfaceAll_eq, h.surface]
  grounded a ha := (h.grounded a ha).mono hk

theorem AllTwins.nil (k : Kernel) : k.AllTwins [] [] := ⟨rfl, by simp⟩

theorem AllTwins.cons {a b : Expr} {as bs : List Expr} (h : k.Twins a b) (hs : k.AllTwins as bs) :
    k.AllTwins (a :: as) (b :: bs) :=
  ⟨congrArg₂ List.cons h.surface hs.surface, List.forall_mem_cons.2 ⟨h.grounded, hs.grounded⟩⟩

/-- Lists of twins are taken apart together. -/
theorem AllTwins.exists_of_cons {a : Expr} {as bs : List Expr} (h : k.AllTwins (a :: as) bs) :
    ∃ b bs', bs = b :: bs' ∧ k.Twins a b ∧ k.AllTwins as bs' := by
  cases bs with
  | nil => cases h.surface
  | cons b bs' =>
      obtain ⟨hb, hbs⟩ := List.cons.inj h.surface
      have hgrounded := List.forall_mem_cons.1 h.grounded
      exact ⟨b, bs', rfl, ⟨hb, hgrounded.1⟩, hbs, hgrounded.2⟩

theorem AllTwins.eq_nil {bs : List Expr} (h : k.AllTwins [] bs) : bs = [] := by
  cases bs with
  | nil => rfl
  | cons _ _ => cases h.surface

theorem Twins.number_iff {a b : Expr} (h : k.Twins a b) {v : Number} :
    a = .number v ↔ b = .number v := by
  rw [← surface_eq_number (t := k.table), h.surface, surface_eq_number]

/-! ### Interning -/

theorem run_intern (e : Expr) (k : Kernel) : (intern e).run.run k =
    match pooled? k.pool e with
    | some x => (.ok x, k)
    | none => (.ok e, k.pooling e) := by
  unfold intern
  rw [run_bind]
  change ((match pooled? k.pool e with
    | some x => Pure.pure x
    | none => (do modify fun k => { k with pool := e :: k.pool }; return e) : Action Expr).run.run k) = _
  cases pooled? k.pool e <;> rfl

namespace Paired

/-- What the first kernel awaits is pooled there only: the second one has it already. -/
theorem pooling_awaited (hp : Paired P V k l) {x y : Expr}
    (hy : pooled? l.pool x = some y) (hxy : y.surface k.table = x.surface k.table) :
    Paired P V (k.pooling x) l := by
  refine ⟨hp.table, hp.settings, hp.plain, hp.firm, fun u => ?_, hp.kept⟩
  rw [pooling_pool, pooling_table, pooled?_cons]
  cases hu : u.same x with
  | true =>
      rw [if_pos rfl, Option.some_or, pooled?_congr hu, hy, Option.map_some, Option.map_some, hxy]
  | false => rw [if_neg Bool.false_ne_true, hp.pools u]

/-- What is new to both kernels is pooled in both. -/
theorem pooling (hp : Paired P V k l) {e e' : Expr} (hsurface : e.surface k.table = e'.surface k.table)
    (hnew : pooled? l.pool e' = none) : Paired P V (k.pooling e) (l.pooling e') := by
  have hsame : e'.same = e.same := (same_congr (outline_of_surface hsurface)).symm
  refine ⟨hp.table, hp.settings, hp.plain, hp.firm, fun u => ?_,
    fun u x hx => pooled?_cons_of_none hnew (hp.kept u x hx)⟩
  have hsame' : u.same e' = u.same e := by rw [same_comm, hsame, same_comm]
  rw [pooling_pool, pooling_pool, pooling_table, pooled?_cons, pooled?_cons, hsame']
  cases hu : u.same e with
  | true =>
      rw [if_pos rfl, if_pos rfl, Option.some_or, Option.map_some, Option.map_some, hsurface]
  | false => rw [if_neg Bool.false_ne_true, if_neg Bool.false_ne_true, hp.pools u]

/-- **Expressions with one surface are interned alike**, if what the first kernel awaits in their place is
the very same. -/
theorem intern (hp : Paired P V k l) {e e' : Expr}
    (hsurface : e.surface k.table = e'.surface k.table)
    (hawaited : pooled? k.pool e = none → ∀ x, pooled? V e = some x → x = e) :
    Follows (Kernel.intern e) k (Kernel.intern e') l fun a k' b l' => Paired P V k' l' ∧
      k'.table = k.table ∧ a.surface k.table = b.surface k.table ∧ e.same a = true := by
  have hsame : e'.same = e.same := (same_congr (outline_of_surface hsurface)).symm
  have hpool : ∀ p, pooled? p e' = pooled? p e := fun p => by rw [pooled?, hsame, pooled?]
  have hpools := hp.pools e
  intro a k' hrun
  rw [run_intern] at hrun
  rw [run_intern, hpool]
  cases hk : pooled? k.pool e with
  | some x =>
      rw [hk] at hrun hpools
      cases hrun
      rw [Option.some_or, Option.map_some, eq_comm, Option.map_eq_some_iff] at hpools
      obtain ⟨y, hy, hxy⟩ := hpools
      rw [hy]
      exact ⟨y, l, rfl, hp, rfl, hxy.symm, same_of_pooled? hk⟩
  | none =>
      rw [hk] at hrun hpools
      cases hrun
      rw [Option.none_or] at hpools
      cases hV : pooled? V e with
      | some x =>
          obtain rfl := hawaited hk x hV
          rw [hV, Option.map_some, eq_comm, Option.map_eq_some_iff] at hpools
          obtain ⟨y, hy, hxy⟩ := hpools
          rw [hy]
          exact ⟨y, l, rfl, hp.pooling_awaited hy hxy, rfl, hxy.symm, same_refl x⟩
      | none =>
          rw [hV, Option.map_none, eq_comm, Option.map_eq_none_iff] at hpools
          rw [hpools]
          have hnew : pooled? l.pool e' = none := by rw [hpool, hpools]
          exact ⟨e', _, rfl, hp.pooling hsurface hnew, rfl, hsurface, same_refl e⟩

/-- Only wildcards and numbers are awaited. -/
theorem not_awaited (hp : Paired P V k l) {e : Expr}
    (h : ∀ x, x.isFirm = true → e.same x = false) : pooled? V e = none := by
  cases hV : pooled? V e with
  | none => rfl
  | some x =>
      have := same_of_pooled? hV
      rw [h x (hp.firm x (mem_of_pooled? hV))] at this
      cases this

/-- **Grounded numbers are interned alike.** -/
theorem makeNumber (hp : Paired P V k l) {v : Number} (hv : k.Grounds v) :
    Follows (Kernel.makeNumber v) k (Kernel.makeNumber v) l fun a k' b l' =>
      Paired P V k' l' ∧ k'.Twins a b := by
  have hfollows := hp.intern (e := .number v) rfl fun hk x hx => by
    have hsame := same_of_pooled? hx
    have hfirm := hp.firm x (mem_of_pooled? hx)
    cases x with
    | number w =>
        have hzero : v.isFloatingZero = false := Bool.eq_false_iff.2 fun hzero => by
          have := hv.zero hzero
          rw [hk] at this
          cases this
        have hvw : v.same w = true := hsame
        have hform := Number.hasOneForm_of_isDefinite (v := w) hfirm
          ((Number.isFloatingZero_of_same hvw).trans hzero)
        exact congrArg Expr.number (Number.eq_of_same hform (same_symm hsame))
    | _ => cases hsame
  refine hfollows.mono fun a k' b l' hrun h => ⟨h.1, by rw [h.2.1, h.2.2.1], ?_⟩
  have hgrows := Grows.of_run ((growth k).makeNumber (.refl k) v) hrun
  have hgrounded : k.Grounded (.number v) := fun u hu => by
    obtain rfl := List.mem_singleton.1 hu
    exact hv
  exact (hgrounded.mono hgrows).of_same h.2.2.2

/-- **The first kernel comes to what it awaits**, which the second one has already. -/
theorem reach {x y : Expr} (hp : Paired P (x :: V) k l) (hy : pooled? P x = some y) :
    Follows (Kernel.intern x) k (Pure.pure y) l fun a k' b l' => Paired P V k' l' ∧
      k'.table = k.table ∧ a.surface k.table = b.surface k.table ∧ x.same a = true := by
  have hfirm := fun z hz => hp.firm z (List.mem_cons_of_mem x hz)
  have hsurface := hp.pools x
  rw [hp.kept x y hy, pooled?_cons, same_refl, if_pos rfl, Option.map_some] at hsurface
  intro a k' hrun
  rw [run_intern] at hrun
  cases hk : pooled? k.pool x with
  | some z =>
      rw [hk] at hrun hsurface
      cases hrun
      rw [Option.some_or, Option.map_some, Option.some.injEq] at hsurface
      refine ⟨y, l, rfl, ⟨hp.table, hp.settings, hp.plain, hfirm, fun u => ?_, hp.kept⟩, rfl,
        hsurface, same_of_pooled? hk⟩
      rw [← hp.pools u, pooled?_cons]
      cases hu : u.same x with
      | true => rw [pooled?_congr hu k.pool, hk, Option.some_or, Option.some_or]
      | false => rw [if_neg Bool.false_ne_true]
  | none =>
      rw [hk] at hrun hsurface
      cases hrun
      rw [Option.none_or, Option.map_some, Option.some.injEq] at hsurface
      refine ⟨y, l, rfl, ⟨hp.table, hp.settings, hp.plain, hfirm, fun u => ?_, hp.kept⟩, rfl,
        hsurface, same_refl x⟩
      rw [pooling_pool, pooling_table, ← hp.pools u, pooled?_cons, pooled?_cons]
      cases hu : u.same x with
      | true => rw [if_pos rfl, if_pos rfl, pooled?_congr hu k.pool, hk, Option.some_or, Option.none_or]
      | false => rw [if_neg Bool.false_ne_true, if_neg Bool.false_ne_true]

end Paired

end Kernel

end SymbolicAlgebra
