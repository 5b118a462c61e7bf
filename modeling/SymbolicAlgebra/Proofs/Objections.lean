import SymbolicAlgebra.Proofs.Lanes
import SymbolicAlgebra.Proofs.Rebuilding

/-!
# Proofs/Objections — the errors that checks place, read from their texts

Where an operand is wrong a check places an error (`Kernel.IsObjection`).  Its text is a flat list of its
code, its details and its operand, and the reader takes the last part for the operand exactly if it is no
name.  So an error that shows its operand as a detail is read back only if the operand is a symbol, and
an error that has an operand only if the operand is no symbol and is read back as it stands
(`Kernel.objections_survive`).
-/

namespace SymbolicAlgebra

/-! ## What checks place -/

namespace Kernel

/-- **A function is applied to its operands and to what the check has against them.** -/
theorem mem_checkedOperands {t : DefinitionTable} {d : FunctionDefinition} {ops : List Expr} {x : Expr}
    (hx : x ∈ checkedOperands t d ops) : x ∈ ops ∨ IsObjection x := by
  unfold checkedOperands at hx
  split at hx
  next => exact mem_checkedNumbers hx
  next => exact mem_checkedParameters hx

/-- What a check of single operands leaves: an operand in canonical form, or what it has against one. -/
def IsVerdict (ops : List Expr) (x : Expr) : Prop :=
  IsObjection x ∨ ∃ e ∈ ops, ∃ k k', (canonicalize e).run.run k = (.ok x, k')

theorem IsVerdict.mono {ops ops' : List Expr} {x : Expr} (hx : IsVerdict ops x)
    (h : ∀ e ∈ ops, e ∈ ops') : IsVerdict ops' x := by
  rcases hx with hx | ⟨e, he, hrun⟩
  · exact .inl hx
  · exact .inr ⟨e, h e he, hrun⟩

theorem yields_checkType (e : Option Expr) (type : Option TypeName) (k : Kernel) :
    Yields Anyhow (checkType e type) k fun x _ => IsVerdict e.toList x := by
  unfold checkType
  split
  next => exact Yields.pure (.inl .missing)
  next => exact Yields.pure (.inl (.unexpected _))
  next e t =>
    refine (yields_run (canonicalize e)).bind fun x k' hx => ?_
    refine (anyhow getTable).bind fun table _ _ => Yields.pure ?_
    split
    next => exact .inr ⟨e, by simp, k, k', hx⟩
    next h =>
      rw [Bool.or_eq_true, Bool.not_eq_true', not_or, Bool.not_eq_false] at h
      exact .inl (.mismatch _ _ h.1)

theorem yields_checkPure (e : Option Expr) (k : Kernel) :
    Yields Anyhow (checkPure e) k fun x _ => IsVerdict e.toList x := by
  unfold checkPure
  split
  next => exact Yields.pure (.inl .missing)
  next e =>
    refine (yields_run (canonicalize e)).bind fun x k' hx => ?_
    refine (anyhow getTable).bind fun table _ _ => Yields.pure ?_
    split
    next => exact .inr ⟨e, by simp, k, k', hx⟩
    next h =>
      rw [Bool.or_eq_true, Bool.not_eq_true', not_or, Bool.not_eq_false] at h
      exact .inl (.impure h.1)

/-- **Operands checked one by one** are brought into canonical form or objected to. -/
theorem yields_checkEach (types : List TypeName) : ∀ (ops : List Expr) (k : Kernel),
    Yields Anyhow (checkEach ops types) k fun rs _ => ∀ x ∈ rs, IsVerdict ops x := by
  induction types with
  | nil =>
      intro ops k
      unfold checkEach
      refine Yields.pure fun x hx => ?_
      obtain ⟨e, -, rfl⟩ := List.mem_map.1 hx
      exact .inl (.unexpected e)
  | cons type types ih =>
      intro ops k
      cases ops with
      | nil =>
          unfold checkEach
          refine (yields_checkType none (some .any) k).bind fun x k₁ hx => ?_
          exact (ih [] k₁).bind fun rs k₂ hrs => Yields.pure (List.forall_mem_cons.2 ⟨hx, hrs⟩)
      | cons e ops =>
          unfold checkEach
          refine (yields_checkType (some e) (some type) k).bind fun x k₁ hx => ?_
          refine (ih ops k₁).bind fun rs k₂ hrs => Yields.pure (List.forall_mem_cons.2 ⟨?_, fun y hy => ?_⟩)
          · exact hx.mono (by simp)
          · exact (hrs y hy).mono fun _ => List.mem_cons_of_mem e

end Kernel

/-! ## Texts and what is read from them -/

namespace Raw

variable {s : String} {y : Raw}

/-- The text is that of a shape whose parts are read as those of `y`. -/
def Spells (s : String) (y : Raw) : Prop := ∃ r : Raw, r.text = s ∧ r.ReadsAs y

theorem Spells.parse (h : Spells s y) : Sexpr.parse s = .ok (some y) := by
  obtain ⟨r, rfl, hr⟩ := h
  exact hr.parse_text

theorem ReadsAs.spells {r : Raw} (h : r.ReadsAs y) : Spells r.text y := ⟨r, rfl, h⟩

theorem readsAs_symbol {n : String} (h : Sexpr.isSymbol n = true) : (name n).ReadsAs (name n) := by
  refine .atom rfl ?_ (Sexpr.atom_symbol h)
  simp only [Sexpr.isSymbol, Bool.and_eq_true] at h
  exact h.1.1.1

theorem exists_allReadAs_of_spells {rs ys : List Raw}
    (h : List.Forall₂ (fun r y => Spells r.text y) rs ys) :
    ∃ zs, textAll zs = textAll rs ∧ AllReadAs zs ys := by
  induction h with
  | nil => exact ⟨[], rfl, .nil⟩
  | cons hr _ ih =>
      obtain ⟨z, hz, hread⟩ := hr
      obtain ⟨zs, hzs, hreads⟩ := ih
      exact ⟨z :: zs, by rw [textAll, textAll, hz, hzs], .cons hread hreads⟩

theorem spells_list {rs ys : List Raw} (h : List.Forall₂ (fun r y => Spells r.text y) rs ys) :
    Spells (list rs).text (list ys) := by
  obtain ⟨zs, htext, hreads⟩ := exists_allReadAs_of_spells h
  exact ⟨list zs, by rw [text, text, htext], .list hreads⟩

end Raw

/-! ## Numbers -/

namespace Scalar

/-- Whether a number has a text that is read as a number: decimals that are zero or special, or have
exponents that cannot be read, are left out. -/
def isLegible : Scalar → Bool
  | .big d p => (d.pad p).isPrintable
  | _ => true

/-- Whether the text of a number is an atom that is read as an equal number. -/
def isFaithful : Scalar → Bool
  | .exact q => q.den == 1
  | .big _ _ => true
  | .machine x =>
      !x.isFinite || decide (Sexpr.significantDigits (Double.toText x) ≤ machinePrecision)

end Scalar

namespace Number

def isLegible : Number → Bool
  | .real x => x.isLegible
  | .complex x y => x.isLegible && y.isLegible

def isFaithful : Number → Bool
  | .real x => x.isFaithful
  | .complex _ _ => false

end Number

namespace Raw

/-- An infinite double is read as itself. -/
theorem readsAs_signedInfinity (negative : Bool) :
    (double (Double.signedInfinity negative)).ReadsAs (double (Double.signedInfinity negative)) := by
  cases negative with
  | false =>
      have htext : (double (Double.signedInfinity false)).text = "Infinity" := by decide
      exact .atom rfl (htext ▸ by decide) (htext ▸ rfl)
  | true =>
      have htext : (double (Double.signedInfinity true)).text = "-Infinity" := by decide
      exact .atom rfl (htext ▸ by decide) (htext ▸ rfl)

end Raw

namespace Kernel

variable {k : Kernel}

/-- A literal is held back as a number of its value. -/
theorem yields_hold_literal {r : Raw} (hr : r.isLiteral = true) (k : Kernel) :
    Yields Never (hold r) k fun e _ =>
      ∃ w, e = .number w ∧ (r.literal k.settings.precision).same w = true := by
  obtain ⟨w, k', hrun, hsame, -⟩ := run_box_literal hr (k := k) rfl
  have hhold : hold r = box r := by cases r <;> first | rfl | cases hr
  unfold Yields
  rw [hhold, hrun]
  exact ⟨w, rfl, hsame⟩

/-- A double is held back as an equal one. -/
theorem yields_hold_double (x : Float) (k : Kernel) :
    Yields Never (hold (.double x)) k fun e _ => (Expr.number (.real (.machine x))).same e = true :=
  (reproduces_boxNumber fun _ => rfl).mono fun _ _ h => h.1

/-- Shapes are held back one by one. -/
theorem yields_holdAll_each {α : Type} {Q : α → Expr → Prop} (as : List α) {rs : List Raw}
    (h : List.Forall₂ (fun a r => ∀ k, Yields Never (hold r) k fun x _ => Q a x) as rs) (k : Kernel) :
    Yields Never (holdAll rs) k fun xs _ => List.Forall₂ Q as xs := by
  induction h generalizing k with
  | nil =>
      unfold holdAll
      exact Yields.pure .nil
  | cons ha _ ih =>
      unfold holdAll
      exact (ha k).bind fun x k hx => (ih k).bind fun xs k hxs => Yields.pure (.cons hx hxs)

/-- What is written as an application is held back as one. -/
theorem yields_hold_application {f : String} (hf : f ≠ "Error") {rs : List Raw} {k : Kernel}
    {P : List Expr → Prop} (h : Yields Never (holdAll rs) k fun xs _ => P xs) :
    Yields Never (hold (.list (.name f :: rs))) k fun e _ => ∃ xs d, e = .application f xs d false ∧ P xs := by
  unfold hold
  rw [if_neg (by simpa using hf)]
  refine h.bind fun xs k hxs => ?_
  unfold holdApplication
  exact Yields.bind (yields_getTable (P := fun _ _ => True) trivial) fun t k _ =>
    Yields.pure ⟨xs, _, rfl, hxs⟩

end Kernel

/-! ## Scalars and numbers read back -/

/-- What the text of a number is read as: it is no name, and held back it is the number again exactly if the
number is faithful. -/
structure Number.IsReadAs (v : Number) (y : Raw) : Prop where
  reads : (Expr.numberRaw v).ReadsAs y
  name : ∀ n, y ≠ .name n
  hold : ∀ k, Kernel.Yields Kernel.Never (Kernel.hold y) k fun x _ => (Expr.number v).same x = v.isFaithful

namespace Number

open Kernel

variable {v : Number}

theorem IsReadAs.holds {y : Raw} (h : v.IsReadAs y) (k : Kernel) :
    Yields Never (Kernel.hold y) k fun _ _ => True :=
  (h.hold k).mono fun _ _ _ => trivial

/-- A number that is written as an application is read as one. -/
theorem isReadAs_pair {f : String} (hf : Sexpr.isSymbol f = true) (herror : f ≠ "Error") {a b y z : Raw}
    (ha : a.ReadsAs y) (hb : b.ReadsAs z) (hy : ∀ k, Yields Never (Kernel.hold y) k fun _ _ => True)
    (hz : ∀ k, Yields Never (Kernel.hold z) k fun _ _ => True)
    (hv : Expr.numberRaw v = .list [.name f, a, b]) (hfaithful : v.isFaithful = false) :
    v.IsReadAs (.list [.name f, y, z]) where
  reads := hv ▸ .list (.cons (Raw.readsAs_symbol hf) (.cons ha (.cons hb .nil)))
  name _ h := by cases h
  hold k := by
    refine (yields_hold_application herror (yields_holdAll_each (Q := fun _ _ => True) [(), ()]
      (.cons hy (.cons hz .nil)) k)).mono ?_
    rintro _ _ ⟨xs, d, rfl, -⟩
    rw [hfaithful]
    rfl

theorem isReadAs_int (n : Int) : (Number.ofInt n).IsReadAs (.int n) where
  reads := by
    rw [Number.ofInt, Scalar.ofInt, Expr.numberRaw, Expr.scalarRaw, if_pos (Rat.den_intCast n),
      Rat.num_intCast]
    exact Raw.readsAs_int n
  name _ h := by cases h
  hold k := (reproduces_boxNumber fun _ => rfl).mono fun _ _ h => h.1

theorem isReadAs_rat (q : ℚ) : ∃ y, (Number.real (.exact q)).IsReadAs y := by
  by_cases hq : q.den = 1
  · have hv : Number.real (.exact q) = .ofInt q.num := by
      rw [Number.ofInt, Scalar.ofInt, Rat.coe_int_num_of_den_eq_one hq]
    rw [hv]
    exact ⟨_, isReadAs_int q.num⟩
  · refine ⟨_, isReadAs_pair (f := "Rational") (by decide) (by decide) (Raw.readsAs_int q.num)
      (Raw.readsAs_int q.den) (isReadAs_int _).holds (isReadAs_int _).holds ?_ (beq_false_of_ne hq)⟩
    rw [Expr.numberRaw, Expr.scalarRaw, if_neg hq]

theorem isReadAs_double (x : Float) : ∃ y, (Number.real (.machine x)).IsReadAs y := by
  have hfaithful : (Raw.double x).ReadsAs (.double x) → (Number.real (.machine x)).isFaithful = true →
      (Number.real (.machine x)).IsReadAs (.double x) := fun hread hv =>
    ⟨hread, fun _ h => (by cases h), fun k => (yields_hold_double x k).mono fun _ _ h => h.trans hv.symm⟩
  by_cases hnan : Double.isNaN x = true
  · obtain rfl := Double.eq_notANumber hnan
    exact ⟨_, hfaithful (Raw.readsAs_self hnan) rfl⟩
  · rcases Double.isFinite_or_eq_signedInfinity (Bool.not_eq_true _ ▸ hnan) with
      ⟨hx, -⟩ | ⟨negative, rfl⟩
    · by_cases hshort : Sexpr.significantDigits (Double.toText x) ≤ machinePrecision
      · exact ⟨_, hfaithful (Double.readsAs_double hx hshort) (by simp [isFaithful, Scalar.isFaithful, hshort])⟩
      · obtain ⟨d, hd, -, hread⟩ := Double.readsAs_decimal hx (not_le.1 hshort)
        refine ⟨_, hread, fun _ h => (by cases h), fun k => ?_⟩
        refine (yields_hold_literal (r := .decimal d) hd k).mono ?_
        rintro _ _ ⟨w, rfl, hsame⟩
        have hv : (Number.real (.machine x)).isFaithful = false := by
          simp [isFaithful, Scalar.isFaithful, hshort, hx]
        rw [hv]
        rcases w with (_ | _ | _) | _ <;> first | rfl | cases hsame
    · exact ⟨_, hfaithful (Raw.readsAs_signedInfinity negative) (by cases negative <;> decide)⟩

theorem isReadAs_decimal {d : Decimal} {p : ℕ} (h : (d.pad p).isPrintable = true) :
    ∃ y, (Number.real (.big d p)).IsReadAs y := by
  obtain ⟨hatom, hread⟩ := Decimal.atom_decimalText h
  have hfinite : d.isFinite = true :=
    (Decimal.isFinite_pad d p).symm.trans (Decimal.isFinite_of_isPrintable h)
  have hliteral : (Raw.decimal ((d.pad p).pad (machinePrecision + 1))).isLiteral = true :=
    (Decimal.isFinite_pad _ _).trans ((Decimal.isFinite_pad d p).trans hfinite)
  refine ⟨_, .atom rfl hatom hread, fun _ h => (by cases h), fun k => ?_⟩
  refine (yields_hold_literal hliteral k).mono ?_
  rintro _ _ ⟨w, rfl, hsame⟩
  exact Decimal.same_of_same_pad hfinite hsame

theorem exists_isReadAs_scalar {x : Scalar} (h : x.isLegible = true) : ∃ y, (Number.real x).IsReadAs y := by
  cases x with
  | exact q => exact isReadAs_rat q
  | big d p => exact isReadAs_decimal h
  | machine x => exact isReadAs_double x

/-- **The text of a number can be read**, and it is read as the number itself if that is faithful. -/
theorem exists_isReadAs (h : v.isLegible = true) : ∃ y, v.IsReadAs y := by
  cases v with
  | real x => exact exists_isReadAs_scalar h
  | complex x y =>
      rw [isLegible, Bool.and_eq_true] at h
      obtain ⟨a, ha⟩ := exists_isReadAs_scalar h.1
      obtain ⟨b, hb⟩ := exists_isReadAs_scalar h.2
      exact ⟨_, isReadAs_pair (f := "Complex") (by decide) (by decide) ha.reads hb.reads ha.holds
        hb.holds rfl rfl⟩

end Number

/-! ## Expressions read back -/

namespace Expr

mutual

/-- Whether an expression that is held back is read from its text as it stands: no error is part of it, and
its numbers are faithful. -/
def isFaithful : Expr → Bool
  | number v => v.isFaithful
  | symbol _ _ _ => true
  | application _ ops _ _ => allFaithful ops
  | error _ _ _ => false

def allFaithful : List Expr → Bool
  | [] => true
  | e :: rest => isFaithful e && allFaithful rest

end

theorem sameAll_eq_allFaithful {es xs : List Expr} (h : List.Forall₂ (fun e x => e.same x = e.isFaithful) es xs) :
    sameAll es xs = allFaithful es := by
  induction h with
  | nil => rfl
  | cons he _ ih => rw [sameAll, allFaithful, he, ih]

/-- An expression whose text can be read: its names are single tokens and its numbers legible, and the
errors in it were placed by checks. -/
inductive Legible : Expr → Prop
  | number {v : Number} (hv : v.isLegible = true) : Legible (.number v)
  | symbol {n : String} {d : Option Nat} {c : Bool} (hn : Sexpr.isSymbol n = true) : Legible (.symbol n d c)
  | application {f : String} {ops : List Expr} {d : Option Nat} {c : Bool} (hf : Sexpr.isSymbol f = true)
      (herror : f ≠ "Error") (hops : ∀ e ∈ ops, Legible e) : Legible (.application f ops d c)
  | missing : Legible Kernel.missing
  | unexpected {e : Expr} (he : Legible e) : Legible (Kernel.unexpected e)
  | impure {e : Expr} (he : Legible e) : Legible (Kernel.impure e)
  | mismatch {t u : TypeName} {e : Expr} (ht : Sexpr.isSymbol t.name = true)
      (hu : Sexpr.isSymbol u.name = true) (he : Legible e) : Legible (Kernel.mismatch t u e)

/-- What the text of an expression is read as: it is a name exactly for a symbol, and held back it is the
expression again exactly if that is faithful. -/
structure IsReadAs (e : Expr) (y : Raw) : Prop where
  spells : Raw.Spells e.text y
  name : e.isSymbol = true → y = .name e.text
  operand : e.isSymbol = false → ∀ n, y ≠ .name n
  hold : e.isValid = true → ∀ k, Kernel.Yields Kernel.Never (Kernel.hold y) k fun x _ =>
    e.same x = e.isFaithful

theorem toRawAll_eq_map (es : List Expr) : toRawAll es = es.map toRaw := by
  induction es with
  | nil => rfl
  | cons e rest ih => rw [toRawAll, ih, List.map_cons]

theorem isReadAs_symbol {n : String} {d : Option Nat} {c : Bool} (hn : Sexpr.isSymbol n = true) :
    (symbol n d c).IsReadAs (.name n) where
  spells := (Raw.readsAs_symbol hn).spells
  name _ := rfl
  operand h := by cases h
  hold _ k := by
    unfold Kernel.hold Kernel.holdSymbol
    split
    next => exact (Kernel.reproduces_intern (by simp [same])).mono fun _ _ h => h.1
    next =>
      exact Kernel.Yields.bind (Kernel.yields_getTable (P := fun _ _ => True) trivial) fun _ _ _ =>
        Kernel.Yields.pure (by simp [same, isFaithful])

theorem isReadAs_number {v : Number} {y : Raw} (h : v.IsReadAs y) : (number v).IsReadAs y where
  spells := h.reads.spells
  name hn := by cases hn
  operand _ := h.name
  hold _ := h.hold

theorem holds_of_isReadAs {es : List Expr} {ys : List Raw} (h : List.Forall₂ IsReadAs es ys)
    (hv : allValid es = true) : List.Forall₂ (fun e y => ∀ k, Kernel.Yields Kernel.Never (Kernel.hold y) k
      fun x _ => e.same x = e.isFaithful) es ys := by
  induction h with
  | nil => exact .nil
  | cons he _ ih =>
      rw [allValid, Bool.and_eq_true] at hv
      exact .cons (he.hold hv.1) (ih hv.2)

theorem isReadAs_application {f : String} {ops : List Expr} {ys : List Raw} {d : Option Nat} {c : Bool}
    (hf : Sexpr.isSymbol f = true) (herror : f ≠ "Error") (h : List.Forall₂ IsReadAs ops ys) :
    (application f ops d c).IsReadAs (.list (.name f :: ys)) where
  spells := by
    refine Raw.spells_list (.cons (Raw.readsAs_symbol hf).spells ?_)
    rw [toRawAll_eq_map, List.forall₂_map_left_iff]
    exact h.imp fun _ _ he => he.spells
  name hn := by cases hn
  operand _ n hn := by cases hn
  hold hv k := by
    refine (Kernel.yields_hold_application herror
      (Kernel.yields_holdAll_each ops (holds_of_isReadAs h hv) k)).mono ?_
    rintro _ _ ⟨xs, d, rfl, hxs⟩
    rw [same, isFaithful, sameAll_eq_allFaithful hxs, beq_self_eq_true, Bool.true_and]

/-- The text of an error is read as the list of what the texts of its parts are read as. -/
theorem isReadAs_error (code : String) (details : List String) (operand : Option Expr) {ys : List Raw}
    (h : List.Forall₂ Raw.Spells (code :: details ++ operand.toList.map text) ys) :
    (error code details operand).IsReadAs (.list (.name "Error" :: ys)) where
  spells := by
    have hname : Sexpr.isSymbol "Error" = true := by decide
    have hraw : (error code details operand).toRaw =
        .list (.name "Error" :: ((code :: details).map .name ++ operand.toList.map toRaw)) := by
      cases operand <;> simp [toRaw]
    rw [text, hraw]
    have htexts : (code :: details ++ operand.toList.map text) =
        ((code :: details).map Raw.name ++ operand.toList.map toRaw).map Raw.text := by
      cases operand <;> simp [Raw.text, text, Function.comp_def]
    rw [htexts, List.forall₂_map_left_iff] at h
    exact Raw.spells_list (.cons (Raw.readsAs_symbol hname).spells h)
  name hn := by cases hn
  operand _ n hn := by cases hn
  hold hv := by cases hv

/-- **The text of a legible expression can be read**, and it is read as the expression itself if that is
valid, held back and faithful. -/
theorem Legible.exists_isReadAs {e : Expr} (h : e.Legible) : ∃ y, e.IsReadAs y := by
  have hname : ∀ {n : String}, Sexpr.isSymbol n = true → Raw.Spells n (.name n) := fun hn =>
    (Raw.readsAs_symbol hn).spells
  induction h with
  | number hv =>
      obtain ⟨y, hy⟩ := Number.exists_isReadAs hv
      exact ⟨y, isReadAs_number hy⟩
  | symbol hn => exact ⟨_, isReadAs_symbol hn⟩
  | application hf herror _ ih =>
      choose! reading hreading using ih
      exact ⟨_, isReadAs_application hf herror
        (List.forall₂_map_right_iff.2 (List.forall₂_same.2 hreading))⟩
  | missing => exact ⟨_, isReadAs_error "missing" [] none (.cons (hname (by decide)) .nil)⟩
  | unexpected _ ih =>
      obtain ⟨y, hy⟩ := ih
      exact ⟨_, isReadAs_error _ [_] none (.cons (hname (by decide)) (.cons hy.spells .nil))⟩
  | impure _ ih =>
      obtain ⟨y, hy⟩ := ih
      exact ⟨_, isReadAs_error _ [_] none (.cons (hname (by decide)) (.cons hy.spells .nil))⟩
  | mismatch ht hu _ ih =>
      obtain ⟨y, hy⟩ := ih
      exact ⟨_, isReadAs_error _ [_, _] (some _) (.cons (hname (by decide))
        (.cons (hname ht) (.cons (hname hu) (.cons hy.spells .nil))))⟩

end Expr

/-! ## Reading errors -/

namespace Kernel

theorem errorOperand_append (details : List String) (y : Raw) :
    errorOperand (details.map .name ++ [y]) = errorOperand [y] := by
  induction details with
  | nil => rfl
  | cons d rest ih =>
      rw [← ih, List.map_cons, List.cons_append]
      cases hrest : rest.map Raw.name ++ [y] with
      | nil => simp at hrest
      | cons z zs => rw [errorOperand] <;> simp

theorem display_names (details : List String) :
    (details.map Raw.name).map Raw.display = details := by
  rw [List.map_map]
  exact List.map_id' details

/-- Names alone are read as details. -/
theorem boxError_names (code : String) (details : List String) :
    boxError ((code :: details).map .name) = pure (.error code details none) := by
  have hargs : errorDetails (details.map .name) = details ∧ errorOperand (details.map .name) = pure none := by
    rcases List.eq_nil_or_concat details with rfl | ⟨rest, d, rfl⟩
    · exact ⟨rfl, rfl⟩
    · have hmap : (rest.concat d).map Raw.name = rest.map .name ++ [.name d] := by simp
      refine ⟨?_, hmap ▸ errorOperand_append rest (.name d)⟩
      have hlast : ((rest.concat d).map Raw.name).getLast? = some (.name d) := by simp
      rw [errorDetails, hlast]
      exact display_names _
  rw [List.map_cons, boxError, hargs.1, hargs.2]
  rfl

/-- What stands last is read as the operand if it is no name. -/
theorem yields_boxError_operand {y : Raw} (hy : ∀ n, y ≠ .name n) (code : String) (details : List String)
    {E : Fault → Prop} {k : Kernel} {P : Expr → Kernel → Prop} (h : Yields E (hold y) k P) :
    Yields E (boxError ((code :: details).map .name ++ [y])) k fun e k' =>
      ∃ x, e = .error code details (some x) ∧ P x k' := by
  have hoperand : errorOperand [y] = (do return some (← hold y)) := by
    cases y <;> first | rfl | exact absurd rfl (hy _)
  have hdetails : errorDetails (details.map .name ++ [y]) = details := by
    have hlast : (details.map Raw.name ++ [y]).getLast? = some y := by simp
    rw [errorDetails, hlast, List.dropLast_concat]
    refine Eq.trans ?_ (display_names details)
    cases y <;> first | rfl | exact absurd rfl (hy _)
  rw [List.map_cons, List.cons_append, boxError, errorOperand_append, hoperand, hdetails]
  refine Yields.bind (P := fun o k' => ∃ x, o = some x ∧ P x k')
    (h.bind fun x k hx => Yields.pure ⟨x, rfl, hx⟩) ?_
  rintro _ k ⟨x, rfl, hx⟩
  exact Yields.pure ⟨x, rfl, hx⟩

/-- The text of an expression is read as an expression of the same structure. -/
def Survives (k : Kernel) (canonical : Bool) (e : Expr) : Prop :=
  ∃ x k', (parse e.text canonical).run.run k = (.ok (some x), k') ∧ e.same x = true

theorem parse_error {e : Expr} {args : List Raw} (h : Raw.Spells e.text (.list (.name "Error" :: args)))
    (canonical : Bool) : parse e.text canonical = (do return some (← boxError args)) := by
  rw [parse, h.parse]
  cases canonical <;> simp [ofExcept, box, hold]

section Surviving

variable {canonical : Bool} {e f : Expr} {code : String} {y : Raw}

/-- Where only names are written, they are the details that are read. -/
theorem survives_of_names (code : String) (details : List String)
    (h : Raw.Spells e.text (.list (.name "Error" :: (code :: details).map .name))) :
    Survives k canonical e ↔ e.same (.error code details none) = true := by
  rw [Survives, parse_error h, boxError_names]
  constructor
  · rintro ⟨_, _, hrun, hsame⟩
    cases hrun
    exact hsame
  · exact fun hsame => ⟨_, k, rfl, hsame⟩

theorem yields_parse_operand (canonical : Bool) {details : List String} (hy : ∀ n, y ≠ .name n)
    (h : Raw.Spells e.text (.list (.name "Error" :: ((code :: details).map .name ++ [y]))))
    {E : Fault → Prop} {P : Expr → Kernel → Prop} (hhold : Yields E (hold y) k P) :
    Yields E (parse e.text canonical) k fun o k' => ∃ x, o = some (.error code details (some x)) ∧ P x k' := by
  rw [parse_error h]
  refine (yields_boxError_operand hy code details hhold).bind ?_
  rintro _ k' ⟨x, rfl, hx⟩
  exact Yields.pure ⟨x, rfl, hx⟩

/-- Where no name is written last, an operand is read. -/
theorem exists_operand_of_survives (details : List String) (hy : ∀ n, y ≠ .name n)
    (h : Raw.Spells e.text (.list (.name "Error" :: ((code :: details).map .name ++ [y]))))
    (hsurvives : Survives k canonical e) : ∃ x, e.same (.error code details (some x)) = true := by
  obtain ⟨_, _, hrun, hsame⟩ := hsurvives
  obtain ⟨x, hx, -⟩ := (yields_parse_operand canonical hy h (anyhow (hold y))).of_run hrun
  cases hx
  exact ⟨x, hsame⟩

theorem survives_operand_iff (details : List String) (hy : ∀ n, y ≠ .name n)
    (h : Raw.Spells (Expr.error code details (some f)).text
      (.list (.name "Error" :: ((code :: details).map .name ++ [y])))) {b : Bool}
    (hhold : ∀ k, Yields Never (hold y) k fun x _ => f.same x = b) :
    Survives k canonical (.error code details (some f)) ↔ b = true := by
  have hsame : ∀ x, (Expr.error code details (some f)).same (.error code details (some x)) = f.same x := by
    simp [Expr.same]
  constructor
  · rintro ⟨_, _, hrun, h'⟩
    obtain ⟨x, hx, hb⟩ := (yields_parse_operand canonical hy h (hhold k)).of_run hrun
    cases hx
    exact hb.symm.trans ((hsame x).symm.trans h')
  · rintro rfl
    obtain ⟨_, k', hrun, x, rfl, hx⟩ := (yields_parse_operand canonical hy h (hhold k)).exists_run
    exact ⟨_, k', hrun, (hsame x).trans hx⟩

theorem survives_missing : Survives k canonical missing := by
  have hcode : Sexpr.isSymbol "missing" = true := by decide
  exact (survives_of_names "missing" [] (Expr.isReadAs_error "missing" [] none
    (.cons (Raw.readsAs_symbol hcode).spells .nil)).spells).2 (Expr.same_refl _)

/-- **An error that shows its operand as a detail** is read back only if the operand is a symbol. -/
theorem survives_shown_iff (hcode : Sexpr.isSymbol code = true) (he : e.Legible) :
    Survives k canonical (.error code [e.text] none) ↔ e.isSymbol = true := by
  obtain ⟨y, hy⟩ := he.exists_isReadAs
  have hspells := (Expr.isReadAs_error code [e.text] none
    (.cons (Raw.readsAs_symbol hcode).spells (.cons hy.spells .nil))).spells
  cases hsymbol : e.isSymbol with
  | true =>
      obtain rfl := hy.name hsymbol
      rw [survives_of_names code [e.text] hspells]
      simp [Expr.same]
  | false =>
      refine ⟨fun h => ?_, fun h => by cases h⟩
      obtain ⟨x, hx⟩ := exists_operand_of_survives [] (hy.operand hsymbol) hspells h
      simp [Expr.same] at hx

/-- **An error that has an operand** is read back only if the operand is no symbol, and is faithful. -/
theorem survives_mismatch_iff {t u : TypeName} (ht : Sexpr.isSymbol t.name = true)
    (hu : Sexpr.isSymbol u.name = true) (he : e.Legible) (hv : e.isValid = true) :
    Survives k canonical (mismatch t u e) ↔ e.isSymbol = false ∧ e.isFaithful = true := by
  obtain ⟨y, hy⟩ := he.exists_isReadAs
  have hcode : Sexpr.isSymbol "type-mismatch" = true := by decide
  have hspells := (Expr.isReadAs_error "type-mismatch" [t.name, u.name] (some e)
    (.cons (Raw.readsAs_symbol hcode).spells (.cons (Raw.readsAs_symbol ht).spells
      (.cons (Raw.readsAs_symbol hu).spells (.cons hy.spells .nil))))).spells
  rw [mismatch]
  cases hsymbol : e.isSymbol with
  | true =>
      obtain rfl := hy.name hsymbol
      rw [survives_of_names _ [t.name, u.name, e.text] hspells]
      simp [Expr.same]
  | false =>
      rw [survives_operand_iff [t.name, u.name] (hy.operand hsymbol) hspells (hy.hold hv)]
      simp

end Surviving

/-- **Which errors survive their texts**, in any kernel, whatever was called.  A missing operand always
does.  An operand that is one too many or has side effects does just if it is a symbol, and one of a wrong
type just if it is no symbol and is faithful. -/
theorem objections_survive (k : Kernel) (canonical : Bool) {e : Expr} (he : e.Legible) :
    Survives k canonical missing ∧
      (Survives k canonical (unexpected e) ↔ e.isSymbol = true) ∧
      (Survives k canonical (impure e) ↔ e.isSymbol = true) ∧
      ∀ t u : TypeName, Sexpr.isSymbol t.name = true → Sexpr.isSymbol u.name = true → e.isValid = true →
        (Survives k canonical (mismatch t u e) ↔ e.isSymbol = false ∧ e.isFaithful = true) :=
  ⟨survives_missing, survives_shown_iff (by decide) he, survives_shown_iff (by decide) he,
    fun _ _ ht hu hv => survives_mismatch_iff ht hu he hv⟩

/-- `(Add x 1)` is read back where a boolean was expected, and not where it was one too many. -/
theorem objections_survive_sum :
    ¬Survives standard true
        (unexpected (.application "Add" [.symbol "x" none true, .number (.ofInt 1)] none true)) ∧
      Survives standard true (mismatch .boolean .number
        (.application "Add" [.symbol "x" none true, .number (.ofInt 1)] none true)) := by
  have hsum : (Expr.application "Add" [.symbol "x" none true, .number (.ofInt 1)] none true).Legible := by
    refine .application (by decide) (by decide) ?_
    rw [List.forall_mem_cons, List.forall_mem_singleton]
    exact ⟨.symbol (by decide), .number rfl⟩
  obtain ⟨-, hunexpected, -, hmismatch⟩ := objections_survive standard true hsum
  exact ⟨fun h => (by cases hunexpected.1 h),
    (hmismatch .boolean .number (by decide) (by decide) rfl).2 ⟨rfl, rfl⟩⟩

/-- **A symbol of a wrong type is read as one more detail**: `True`, where a number is expected. -/
theorem mismatch_of_symbol_fails : ∃ e x k',
    (do
      let e ← checkType (some (← box (.name "True"))) (some .number)
      return (e, ← parse e.text true)).run.run standard = (.ok (e, some x), k') ∧
    (mismatch .number .boolean (.symbol "True" none true)).same e = true ∧
    (Expr.error "type-mismatch" ["number", "boolean", "True"] none).same x = true ∧ e.same x = false := by
  obtain ⟨⟨e, o⟩, k', hrun, h⟩ := run_of_any (k := standard)
    (x := do
      let e ← checkType (some (← box (.name "True"))) (some .number)
      return (e, ← parse e.text true))
    (p := fun r => (mismatch .number .boolean (.symbol "True" none true)).same r.1 &&
      r.2.any fun x => (Expr.error "type-mismatch" ["number", "boolean", "True"] none).same x &&
        !r.1.same x) (by rw [standard_eq]; decide +kernel)
  rw [Bool.and_eq_true] at h
  obtain ⟨x, rfl, hx⟩ := (Option.any_eq_true _ _).1 h.2
  rw [Bool.and_eq_true, Bool.not_eq_true'] at hx
  exact ⟨e, x, k', hrun, h.1, hx.1, hx.2⟩

end Kernel

end SymbolicAlgebra
