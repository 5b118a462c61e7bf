import SymbolicAlgebra.Proofs.Pairing

/-!
# Proofs/Lockstep — building in paired kernels

In paired kernels operands with one surface are checked and built alike, and what is built has one surface
again: `Paired.build` and the lemmas before it.
-/

namespace SymbolicAlgebra

open SymbolicAlgebra.Expr

namespace Kernel

open DefinitionTable

variable {P V : List Expr} {k k' l : Kernel}

namespace Paired

/-! ## Changes of the table -/

/-- Pools offer expressions with one surface also when the table is another one in which the same is held
back. -/
theorem of_holdsAlike (hp : Paired P V k l) {k' l' : Kernel} (htable : l'.table = k'.table)
    (halike : k.table.HoldsAlike k'.table) (hplain : k'.table.HoldsPlainly)
    (hsettings : k'.settings = k.settings ∧ l'.settings = l.settings)
    (hpool : k'.pool = k.pool ∧ l'.pool = l.pool) : Paired P V k' l' where
  table := htable
  settings := by rw [hsettings.1, hsettings.2, hp.settings]
  plain := hplain
  firm := hp.firm
  pools e := by
    have hsurface : surface k'.table = surface k.table := funext halike.surface_eq
    rw [hpool.1, hpool.2, hsurface, hp.pools e]
  kept e x hx := by rw [hpool.2, hp.kept e x hx]

theorem infer (hp : Paired P V k l) (e : Expr) (type : TypeName) :
    Follows (Kernel.infer e type) k (Kernel.infer e type) l fun _ k' _ l' => Paired P V k' l' := by
  intro a k' hrun
  obtain ⟨b, l', hb, hl⟩ := (yields_infer_cases e type l).exists_run
  refine ⟨b, l', hb, ?_⟩
  have hk := (yields_infer_cases e type k).of_run hrun
  rw [hp.table] at hl
  obtain ⟨-, hnone, rfl⟩ | ⟨-, i, d, journal, hsome, rfl⟩ := hk <;>
    obtain ⟨-, hnone', rfl⟩ | ⟨-, i', d', journal', hsome', rfl⟩ := hl
  · exact hp
  · rw [hnone] at hsome'
    cases hsome'
  · rw [hnone'] at hsome
    cases hsome
  · rw [hsome] at hsome'
    cases hsome'
    have hd := (narrowable?_eq_some.1 hsome).2.1
    exact hp.of_holdsAlike rfl (.narrow hd type) (hp.plain.narrow hd type) ⟨rfl, rfl⟩ ⟨rfl, rfl⟩

theorem getTable (hp : Paired P V k l) : Follows Kernel.getTable k Kernel.getTable l
    fun t k' t' l' => t = k.table ∧ t' = k.table ∧ k' = k ∧ l' = l := by
  intro t k' hrun
  cases hrun
  exact ⟨_, _, rfl, rfl, hp.table, rfl, rfl⟩

theorem isStrict (hp : Paired P V k l) : Follows Kernel.isStrict k Kernel.isStrict l
    fun s k' s' l' => s' = s ∧ k' = k ∧ l' = l := by
  intro s k' hrun
  cases hrun
  exact ⟨_, _, rfl, congrArg Settings.strict hp.settings, rfl, rfl⟩

/-- A name is met in both kernels. -/
theorem met (hp : Paired P V k l) {name : String} {d : Definition}
    (hname : k.table.contains name = false) (hd : Definition.IsMet name d) :
    Paired P V { k with table := k.table.register name d } { l with table := l.table.register name d } :=
  hp.of_holdsAlike (by rw [hp.table]) (.register hname hd) (hp.plain.register hname hd) ⟨rfl, rfl⟩
    ⟨rfl, rfl⟩

theorem meetSymbol (hp : Paired P V k l) (n : String) :
    Follows (Kernel.meetSymbol n) k (Kernel.meetSymbol n) l fun d k' d' l' =>
      Paired P V k' l' ∧ d' = d := by
  unfold Kernel.meetSymbol
  refine hp.getTable.bind ?_
  rintro _ k _ l - ⟨rfl, rfl, rfl, rfl⟩
  split
  next i hi => exact .pure ⟨hp, rfl⟩
  next h =>
    have hnew : k.table.contains n = false := by rw [contains, h]; rfl
    have hmet := hp.met hnew .symbol
    intro d k' hrun
    cases hrun
    exact ⟨_, _, rfl, hmet, congrArg (number? · n) hmet.table⟩

/-- A function is met in both kernels. -/
theorem meetFunction (hp : Paired P V k l) (f : String) :
    Follows (Kernel.meetFunction f) k (Kernel.meetFunction f) l fun _ k' _ l' =>
      Paired P V k' l' := by
  unfold Kernel.meetFunction
  refine hp.getTable.bind ?_
  rintro _ k _ l - ⟨rfl, rfl, rfl, rfl⟩
  split
  next h =>
    have hmet := hp.met (by simpa using h) .function
    intro o k' hrun
    cases hrun
    exact ⟨_, _, rfl, hmet⟩
  next =>
    intro o k' hrun
    cases hrun
    exact ⟨_, _, rfl, hp⟩

/-- **Names are looked up or met alike.** -/
theorem makeSymbol (hp : Paired P V k l) {n : String} (hn : isWildcardName n = false) :
    Follows (Kernel.makeSymbol n) k (Kernel.makeSymbol n) l fun a k' b l' =>
      Paired P V k' l' ∧ k'.Twins a b := by
  unfold Kernel.makeSymbol
  rw [hn, if_neg Bool.false_ne_true]
  refine (hp.meetSymbol n).bind ?_
  rintro _ k₁ d l₁ - ⟨hp₁, rfl⟩
  have hnone : pooled? V (.symbol n d true) = none := hp₁.not_awaited fun x hx => by
    cases x with
    | symbol m _ _ =>
        refine Bool.eq_false_iff.2 fun hsame => ?_
        obtain rfl : n = m := beq_iff_eq.1 hsame
        rw [isFirm, hn] at hx
        cases hx
    | _ => rfl
  have hfollows := hp₁.intern (e := .symbol n d true) rfl fun _ x hx => by
    rw [hnone] at hx
    cases hx
  refine hfollows.mono fun a k' b l' _ h => ⟨h.1, by rw [h.2.1, h.2.2.1], ?_⟩
  exact Grounded.of_same (fun v hv => by cases hv) h.2.2.2

/-- **Applications with one surface are interned alike.** -/
theorem apply (hp : Paired P V k l) {f : String} {as bs : List Expr}
    (hsurface : (Expr.application f as (k.table.functionNumber? f) true).surface k.table =
      (Expr.application f bs (k.table.functionNumber? f) true).surface k.table)
    (hgrounded : ∀ a ∈ as, k.Grounded a) :
    Follows (Kernel.apply f as) k (Kernel.apply f bs) l fun a k' b l' =>
      Paired P V k' l' ∧ k'.Twins a b := by
  unfold Kernel.apply
  refine hp.getTable.bind ?_
  rintro _ k₁ t l₁ - ⟨rfl, rfl, rfl, rfl⟩
  have hnone : pooled? V (.application f as (k₁.table.functionNumber? f) true) = none :=
    hp.not_awaited fun x hx => by
      cases x with
      | application _ _ _ _ => cases hx
      | _ => rfl
  have hfollows := hp.intern hsurface fun _ x hx => by
    rw [hnone] at hx
    cases hx
  refine hfollows.mono fun a k' b l' hrun h => ⟨h.1, by rw [h.2.1, h.2.2.1], ?_⟩
  have hgrows := Grows.of_run ((growth k₁).intern (.refl k₁) trivial) hrun
  exact Grounded.of_same ((grounded_application.2 hgrounded).mono hgrows) h.2.2.2

/-- Operands with one surface, of an operator that holds nothing back or that nothing is known of. -/
theorem applyTwins (hp : Paired P V k l) (f : String) {as bs : List Expr} (h : k.AllTwins as bs) :
    Follows (Kernel.apply f as) k (Kernel.apply f bs) l fun a k' b l' =>
      Paired P V k' l' ∧ k'.Twins a b := by
  refine hp.apply ?_ h.grounded
  rw [surface, surface, h.surface, outlineAll_of_surfaceAll h.surface]

/-- Operands with one outline, of an operator that holds them back. -/
theorem applyHeld (hp : Paired P V k l) {f : String} (hf : k.table.holdsOperands f = true)
    {as bs : List Expr} (h : outlineAll as = outlineAll bs) (hgrounded : ∀ a ∈ as, k.Grounded a) :
    Follows (Kernel.apply f as) k (Kernel.apply f bs) l fun a k' b l' =>
      Paired P V k' l' ∧ k'.Twins a b := by
  refine hp.apply ?_ hgrounded
  rw [surface, surface, keeps, hf, Bool.true_and, beq_self_eq_true, if_pos rfl, if_pos rfl, h]

/-! ## Checks -/

theorem inferAll (hp : Paired P V k l) {as bs : List Expr}
    (h : surfaceAll k.table as = surfaceAll k.table bs) (type : TypeName) (skip : Bool) :
    Follows (Kernel.inferAll as type skip) k (Kernel.inferAll bs type skip) l
      fun _ k' _ l' => Paired P V k' l' := by
  have hlist := hp.plain.opened (f := "List") (by decide)
  rw [← inferAll_surfaceAll hlist as, h, inferAll_surfaceAll hlist bs]
  have hstep : ∀ e k l, Paired P V k l →
      Follows (do let _ ← Kernel.infer e type) k (do let _ ← Kernel.infer e type) l
        fun _ k' _ l' => Paired P V k' l' :=
    fun e k l hp => (hp.infer e type).bind fun _ _ _ _ _ hp' => .pure hp'
  refine .forM (I := Paired P V) (fun e k l hp => ?_) hp
  split
  next =>
    split
    next => exact .forM hstep hp
    next => exact .pure hp
  next => exact hstep e k l hp

theorem inferParameters (hp : Paired P V k l) {as bs : List Expr}
    (h : surfaceAll k.table as = surfaceAll k.table bs) (threadable : Bool) (params : List TypeName) :
    Follows (Kernel.inferParameters threadable as params) k
      (Kernel.inferParameters threadable bs params) l fun _ k' _ l' => Paired P V k' l' := by
  rw [← inferParameters_surfaceAll (t := k.table) threadable as, h, inferParameters_surfaceAll]
  refine .forM (I := Paired P V) ?_ hp
  rintro ⟨e, type⟩ k l hp
  simp only
  split
  next => exact (hp.infer e type).bind fun _ _ _ _ _ hp' => .pure hp'
  next => exact .pure hp

/-- Splicing keeps operands twins, if what is spliced holds nothing back. -/
theorem allTwins_flatten (hp : Paired P V k l) {a : Option String}
    (ha : ∀ f, a = some f → k.table.holdsOperands f = false) {as bs : List Expr}
    (h : k.AllTwins as bs) : k.AllTwins (flatten a as) (flatten a bs) where
  surface := by
    have hsplice := hp.plain.not_holdsOperands ha
    rw [← flatten_surfaceAll hsplice, h.surface, flatten_surfaceAll hsplice]
  grounded := grounded_flatten h.grounded

/-- **Operands of numeric functions are checked alike.** -/
theorem checkNumeric (hp : Paired P V k l) {as bs : List Expr} (h : k.AllTwins as bs)
    (count : Option Nat) :
    Follows (Kernel.checkNumeric as count none) k (Kernel.checkNumeric bs count none) l
      fun rs k' rs' l' => Paired P V k' l' ∧ k'.AllTwins rs rs' := by
  have hsurfaces : Follows (Kernel.checkNumeric as count none) k (Kernel.checkNumeric bs count none) l
      fun rs k' rs' l' => Paired P V k' l' ∧ surfaceAll k.table rs = surfaceAll k.table rs' := by
    have hflat := (hp.allTwins_flatten (a := none) (by simp) h).surface
    unfold Kernel.checkNumeric
    simp only
    refine hp.getTable.bind ?_
    rintro _ k₁ t l₁ - ⟨rfl, rfl, rfl, rfl⟩
    refine hp.isStrict.bind ?_
    rintro strict k₂ _ l₂ - ⟨rfl, rfl, rfl⟩
    rw [← groupType_congr hp.plain hflat]
    split
    next =>
      exact (hp.inferAll hflat _ true).bind fun _ k' _ l' _ hp' => .pure ⟨hp', hflat⟩
    next =>
      have hlength := length_of_surfaceAll hflat
      rw [← hlength]
      have hchecked := surfaceAll_checkedNumbers hp.plain hflat (count.getD (flatten none as).length)
      have hall := all_congr (map_verdict_congr (checkNumber_surface hp.plain)
        (surfaceAll_take hflat (count.getD (flatten none as).length)))
      rw [← hall]
      simp only [checkedNumbers, ← hlength] at hchecked
      split
      next =>
        rw [← groupType_congr hp.plain hchecked]
        exact (hp.inferAll hchecked _ false).bind fun _ k' _ l' _ hp' => .pure ⟨hp', hchecked⟩
      next => exact .pure ⟨hp, hchecked⟩
  refine hsurfaces.mono fun rs k' rs' l' hrun hrs => ⟨hrs.1, ?_, ?_⟩
  · have hgrows := Grows.of_run ((growth k).maintains_checkNumeric (fun _ _ => trivial) count none k
      (.refl k)) hrun
    rw [hgrows.table.surfaceAll_eq, hgrows.table.surfaceAll_eq, hrs.2]
  · have hgrows := Grows.of_run ((growth k).maintains_checkNumeric (fun _ _ => trivial) count none k
      (.refl k)) hrun
    have hrefused := (yields_checkNumeric_refused (E := Anyhow) as count).of_run hrun
    exact fun e he => (grounded_refused hrefused (grounded_flatten h.grounded) e he).mono hgrows

/-- **Operands are checked against a signature alike.** -/
theorem checkSignature (hp : Paired P V k l) {as bs : List Expr} (h : k.AllTwins as bs)
    (s : Signature) (held threadable : Bool) :
    Follows (Kernel.checkSignature as s held threadable) k (Kernel.checkSignature bs s held threadable) l
      fun o k' o' l' => Paired P V k' l' ∧ k'.AllTwins (o.getD as) (o'.getD bs) := by
  have hsurfaces : Follows (Kernel.checkSignature as s held threadable) k
      (Kernel.checkSignature bs s held threadable) l fun o k' o' l' => Paired P V k' l' ∧
        surfaceAll k.table (o.getD as) = surfaceAll k.table (o'.getD bs) := by
    unfold Kernel.checkSignature
    refine hp.isStrict.bind ?_
    rintro strict k₁ _ l₁ - ⟨rfl, rfl, rfl⟩
    split
    next => exact .pure ⟨hp, h.surface⟩
    next =>
      refine hp.getTable.bind ?_
      rintro _ k₂ t l₂ - ⟨rfl, rfl, rfl, rfl⟩
      simp only
      have hlength := length_of_surfaceAll h.surface
      have hchecked := surfaceAll_checkedParameters hp.plain h.surface s held threadable
      have hall := all_congr (map_checkParameter_congr hp.plain h.surface held threadable
        (parametersFor s as.length))
      simp only [checkedParameters, ← hlength] at hchecked
      rw [← hlength, ← map_unexpected_congr h.surface, ← hall]
      rw [← map_unexpected_congr h.surface] at hchecked
      split
      next =>
        split
        next =>
          exact (hp.inferParameters h.surface threadable _).bind fun _ k' _ l' _ hp' =>
            .pure ⟨hp', h.surface⟩
        next => exact .pure ⟨hp, h.surface⟩
      next => exact .pure ⟨hp, hchecked⟩
  refine hsurfaces.mono fun o k' o' l' hrun ho => ⟨ho.1, ?_, ?_⟩
  · have hgrows := Grows.of_run ((growth k).maintains_checkSignature (fun _ _ => trivial) s held
      threadable k (.refl k)) hrun
    rw [hgrows.table.surfaceAll_eq, hgrows.table.surfaceAll_eq, ho.2]
  · have hgrows := Grows.of_run ((growth k).maintains_checkSignature (fun _ _ => trivial) s held
      threadable k (.refl k)) hrun
    have hrefused := (yields_checkSignature_refused (E := Anyhow) as s held threadable).of_run hrun
    exact fun e he => (grounded_refused hrefused h.grounded e he).mono hgrows

/-! ## Forms of their own -/

theorem two (hp : Paired P V k l) {as bs : List Expr} (h : k.AllTwins as bs) :
    Follows (Kernel.two as) k (Kernel.two bs) l fun ab k' ab' l' => Paired P V k' l' ∧ k' = k ∧
      k.Twins ab.1 ab'.1 ∧ k.Twins ab.2 ab'.2 := by
  unfold Kernel.two
  split
  next a b =>
    obtain ⟨a', bs, rfl, ha, h⟩ := h.exists_of_cons
    obtain ⟨b', bs, rfl, hb, h⟩ := h.exists_of_cons
    obtain rfl := h.eq_nil
    exact .pure ⟨hp, rfl, ha, hb⟩
  next => exact .throw

theorem number (hp : Paired P V k l) {α : Type} (x : Except NumberFault α) :
    Follows (Kernel.number x) k (Kernel.number x) l fun a k' b l' =>
      Paired P V k' l' ∧ k' = k ∧ x = .ok a ∧ b = a := by
  cases x with
  | ok a => exact .pure ⟨hp, rfl, rfl, rfl⟩
  | error f => exact .throw

/-- What a form of its own gives for operands with one surface. -/
abbrev FollowsForm (V : List Expr) (x : Action (Option Expr)) (k : Kernel) (y : Action (Option Expr))
    (l : Kernel) : Prop :=
  Follows x k y l fun o k' o' l' => Paired P V k' l' ∧ Option.Rel k'.Twins o o'

theorem ofBuilt {x y : Action Expr}
    (h : Follows x k y l fun a k' b l' => Paired P V k' l' ∧ k'.Twins a b) :
    FollowsForm (P := P) V (do return some (← x)) k (do return some (← y)) l :=
  h.bind fun _ _ _ _ _ h => .pure ⟨h.1, .some h.2⟩

/-- What a negation is of is on its surface. -/
theorem rel_op1? (hp : Paired P V k l) {ops : List Expr} {d : Option Nat} {c : Bool} {e : Expr}
    (h : k.Twins (.application "Negate" ops d c) e) :
    Option.Rel k.Twins (Expr.application "Negate" ops d c).op1? e.op1? := by
  have hopened := hp.plain.opened (f := "Negate") (by decide)
  have hnegate : e.isApplicationOf "Negate" = true := by
    rw [← isApplicationOf_surface (t := k.table), ← h.surface]
    rfl
  have hoperands : k.AllTwins ops e.operands := by
    refine ⟨?_, grounded_application.1 h.grounded⟩
    rw [← operands_surface hopened hnegate, ← h.surface]
    exact (operands_surface (e := .application "Negate" ops d c) hopened rfl).symm
  rw [op1?, op1?, operands]
  cases ops with
  | nil =>
      rw [hoperands.eq_nil]
      exact .none
  | cons a rest =>
      obtain ⟨b, bs, hbs, hab, -⟩ := hoperands.exists_of_cons
      rw [hbs]
      exact .some hab

theorem negationForm (hp : Paired P V k l) {as bs : List Expr} (h : k.AllTwins as bs) :
    FollowsForm (P := P) V (Kernel.negationForm as) k (Kernel.negationForm bs) l := by
  unfold Kernel.negationForm
  refine (hp.checkNumeric h _).bind ?_
  rintro rs k₁ rs' l₁ - ⟨hp₁, hrs⟩
  have happly : FollowsForm (P := P) V (do return some (← Kernel.apply "Negate" rs)) k₁
      (do return some (← Kernel.apply "Negate" rs')) l₁ := ofBuilt (hp₁.applyTwins _ hrs)
  cases rs with
  | nil => exact .throw
  | cons x rest =>
      obtain ⟨y, rest', rfl, hxy, hrest⟩ := hrs.exists_of_cons
      cases x with
      | number v =>
          obtain rfl := hxy.number_iff.1 rfl
          refine (hp₁.number v.neg).bind ?_
          rintro w k₂ _ l₂ - ⟨hp₂, rfl, hw, rfl⟩
          have hv := hxy.grounded v (List.mem_singleton_self v)
          have hneg := Number.neg_isTidy hv.tidy hw
          refine ofBuilt (hp₂.makeNumber ⟨hneg.1, fun hzero => ?_⟩)
          have hsame := hneg.2 hzero
          exact (hv.of_same hsame).zero hzero
      | application f xs d c =>
          cases y with
          | application f' ys d' c' =>
              have hvalid := isValid_surface (t := k₁.table) (.application f xs d c)
              have hoperator := operator_surface (t := k₁.table) (.application f xs d c)
              rw [hxy.surface, isValid_surface] at hvalid
              rw [hxy.surface, operator_surface] at hoperator
              simp only
              rw [hvalid, hoperator]
              split
              next hnegate =>
                rw [Bool.and_eq_true, beq_iff_eq] at hnegate
                obtain rfl : f = "Negate" := hnegate.1
                exact .pure ⟨hp₁, hp₁.rel_op1? hxy⟩
              next => exact happly
          | _ => cases hxy.surface
      | symbol n d c =>
          cases y with
          | symbol _ _ _ => exact happly
          | _ => cases hxy.surface
      | error a b z =>
          cases y with
          | error _ _ _ => exact happly
          | _ => cases hxy.surface

theorem rationalForm (hp : Paired P V k l) {as bs : List Expr} (h : k.AllTwins as bs) :
    FollowsForm (P := P) V (Kernel.rationalForm as) k (Kernel.rationalForm bs) l := by
  unfold Kernel.rationalForm
  refine (hp.checkNumeric h _).bind ?_
  rintro rs k₁ rs' l₁ - ⟨hp₁, hrs⟩
  refine (hp₁.two hrs).bind ?_
  rintro ⟨a, b⟩ k₂ ⟨a', b'⟩ l₂ - ⟨hp₂, rfl, ha, hb⟩
  dsimp only at ha hb
  have happly : FollowsForm (P := P) V (do return some (← Kernel.apply "Rational" rs)) k₂
      (do return some (← Kernel.apply "Rational" rs')) l₂ := ofBuilt (hp₂.applyTwins _ hrs)
  split
  next n d hab =>
    cases hab
    obtain rfl := ha.number_iff.1 rfl
    obtain rfl := hb.number_iff.1 rfl
    simp only
    split
    next hexact =>
      rw [Bool.and_eq_true] at hexact
      refine (hp₂.number (n.div d)).bind ?_
      rintro w k₃ _ l₃ - ⟨hp₃, rfl, hw, rfl⟩
      have hdiv := Number.div_isTidy hexact.1 hexact.2 hw
      exact ofBuilt (hp₃.makeNumber ⟨hdiv.1, fun hzero => by rw [hdiv.2] at hzero; cases hzero⟩)
    next => exact happly
  next hne =>
    split
    next n d hab =>
      cases hab
      exact (hne n d (by rw [ha.number_iff.2 rfl, hb.number_iff.2 rfl])).elim
    next => exact happly

theorem complexForm (hp : Paired P V k l) {as bs : List Expr} (h : k.AllTwins as bs) :
    FollowsForm (P := P) V (Kernel.complexForm as) k (Kernel.complexForm bs) l := by
  unfold Kernel.complexForm
  refine (hp.checkNumeric h _).bind ?_
  rintro rs k₁ rs' l₁ - ⟨hp₁, hrs⟩
  refine (hp₁.two hrs).bind ?_
  rintro ⟨a, b⟩ k₂ ⟨a', b'⟩ l₂ - ⟨hp₂, rfl, ha, hb⟩
  dsimp only at ha hb
  split
  next x y hab =>
    cases hab
    obtain rfl := ha.number_iff.1 rfl
    obtain rfl := hb.number_iff.1 rfl
    have hx := ha.grounded (.real x) (List.mem_singleton_self _)
    have hy := hb.grounded (.real y) (List.mem_singleton_self _)
    have hparts := Number.isTidy_ofParts hx.tidy hy.tidy
    refine ofBuilt (hp₂.makeNumber ⟨hparts.1, fun hzero => ?_⟩)
    have hreal := hparts.2 hzero
    rw [hreal] at hzero ⊢
    exact hx.zero hzero
  next hne =>
    split
    next x y hab =>
      cases hab
      exact (hne x y (by rw [ha.number_iff.2 rfl, hb.number_iff.2 rfl])).elim
    next => exact ofBuilt (hp₂.applyTwins _ hrs)

/-- **Forms of their own are built alike.** -/
theorem buildForm (hp : Paired P V k l) (form : Callback) {as bs : List Expr}
    (h : k.AllTwins as bs) :
    FollowsForm (P := P) V (Kernel.buildForm form as) k (Kernel.buildForm form bs) l := by
  unfold Kernel.buildForm
  split
  next => exact hp.negationForm h
  next => exact hp.rationalForm h
  next => exact hp.complexForm h
  next =>
    cases as with
    | nil =>
        obtain rfl := h.eq_nil
        exact .pure ⟨hp, .none⟩
    | cons a rest =>
        obtain ⟨b, bs, rfl, hab, -⟩ := h.exists_of_cons
        exact .pure ⟨hp, .some hab⟩
  next => exact ofBuilt (hp.makeNumber ⟨rfl, fun hzero => by cases hzero⟩)
  next => exact .pure ⟨hp, .none⟩
  next => exact .throw

/-! ## Building -/

theorem applyChecked (hp : Paired P V k l) {f : String} (hf : k.table.holdsOperands f = false)
    (d : FunctionDefinition) {as bs : List Expr} (h : k.AllTwins as bs) :
    Follows (Kernel.applyChecked f d as) k (Kernel.applyChecked f d bs) l fun a k' b l' =>
      Paired P V k' l' ∧ k'.Twins a b := by
  have hflat := hp.allTwins_flatten (a := if d.associative.truthy then some f else none)
    (by split <;> simp [hf]) h
  unfold Kernel.applyChecked
  simp only
  split
  next =>
    exact (hp.checkNumeric hflat _).bind fun rs k₁ rs' l₁ _ hrs => hrs.1.applyTwins f hrs.2
  next =>
    exact (hp.checkSignature hflat _ _ _).bind fun o k₁ o' l₁ _ ho => ho.1.applyTwins f ho.2

/-- A function that does not hold its operands back is applied alike, by its own form or checked. -/
theorem applyFunction (hp : Paired P V k l) {f : String} (hf : k.table.holdsOperands f = false)
    (d : FunctionDefinition) {as bs : List Expr} (h : k.AllTwins as bs) :
    Follows (Kernel.applyFunction f d as) k (Kernel.applyFunction f d bs) l fun a k' b l' =>
      Paired P V k' l' ∧ k'.Twins a b := by
  unfold Kernel.applyFunction
  split
  next => exact hp.applyChecked hf d h
  next form _ =>
    refine (hp.buildForm form h).bind ?_
    rintro o k₁ o' l₁ hrun ⟨hp₁, hrel⟩
    have hgrows := Grows.of_run ((growth k).buildForm (.refl k) form fun _ _ => trivial) hrun
    cases hrel with
    | some hab => exact .pure ⟨hp₁, hab⟩
    | none => exact hp₁.applyChecked ((hgrows.table.operands f).trans hf) d (h.mono hgrows)

/-- **Applications are built alike**, if their operands are: in canonical form, or as they stand. -/
theorem build {V' : List Expr} (hp : Paired P V k l) (f : String)
    {canonical canonical' held held' : Action (List Expr)}
    (hcanonical : ∀ k l, Paired P V k l → Follows canonical k canonical' l fun as k' bs l' =>
      Paired P V' k' l' ∧ k.Grows k' ∧ k'.AllTwins as bs)
    (hheld : ∀ k l, Paired P V k l → Follows held k held' l fun as k' bs l' =>
      Paired P V' k' l' ∧ k.Grows k' ∧ outlineAll as = outlineAll bs ∧ ∀ a ∈ as, k'.Grounded a) :
    Follows (Kernel.build f canonical held) k (Kernel.build f canonical' held') l fun a k' b l' =>
      Paired P V' k' l' ∧ k'.Twins a b := by
  have happly : ∀ {k l}, Paired P V k l → Follows (do Kernel.apply f (← canonical)) k
      (do Kernel.apply f (← canonical')) l fun a k' b l' => Paired P V' k' l' ∧ k'.Twins a b :=
    fun hp => (hcanonical _ _ hp).bind fun as k' bs l' _ h => h.1.applyTwins f h.2.2
  cases hwildcard : Expr.isWildcardName f with
  | true =>
      rw [build_of_isWildcardName hwildcard, build_of_isWildcardName hwildcard]
      exact happly hp
  | false =>
      rw [build_eq hwildcard, build_eq hwildcard]
      refine (hp.meetFunction f).bind fun _ k₁ _ l₁ _ hp₁ => hp₁.getTable.bind ?_
      rintro _ k₁ t l₁ - ⟨rfl, rfl, rfl, rfl⟩
      unfold applyMet
      split
      next d hd =>
        split
        next hlazy =>
          have hlazy : k₁.table.holdsOperands f = true := (holdsOperands_of_find? hd).trans hlazy
          refine (hheld k₁ l₁ hp₁).bind ?_
          rintro as k₂ bs l₂ - ⟨hp₂, hgrows, houtline, hgrounded⟩
          exact hp₂.applyHeld ((hgrows.table.operands f).trans hlazy) houtline hgrounded
        next hlazy =>
          have hlazy : k₁.table.holdsOperands f = false :=
            (holdsOperands_of_find? hd).trans (Bool.eq_false_iff.2 hlazy)
          refine (hcanonical k₁ l₁ hp₁).bind ?_
          rintro as k₂ bs l₂ - ⟨hp₂, hgrows, htwins⟩
          exact hp₂.applyFunction ((hgrows.table.operands f).trans hlazy) d htwins
      next => exact happly hp₁

end Paired

end Kernel

end SymbolicAlgebra
