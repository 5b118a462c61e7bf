import SymbolicAlgebra.Proofs.Code
import SymbolicAlgebra.Proofs.Sameness

/-!
# Proofs/KeyTuples — keys as nested tuples

A key can be written down as a nested tuple of whole numbers, doubles and texts, that starts with the
place of its kind (`OrderKey.tuple`).  Tuples are compared by the first position where they differ, and
there is no comparison between items of different kinds, so that comparing tuples may fail.  For keys
without a not-a-number it does not: the first positions that differ are of one kind, and decide as
`OrderKey.compare` does (`OrderKey.agrees_tuple`).

Expressions with exact literals have equal tuples if and only if they are the same, provided that equal
operators have equal complexities (`OrderKey.of_eq_of_same`, `OrderKey.same_of_compare`).
-/

namespace SymbolicAlgebra

/-- An item of a tuple. -/
inductive KeyItem
  | whole (n : Int)
  | double (x : Float)
  | text (s : String)
  | tuple (items : List KeyItem)

namespace KeyItem

mutual

/-- Whether two items are equal. -/
def equal : KeyItem → KeyItem → Bool
  | whole m, whole n => m == n
  | double x, double y => x == y
  | text s, text t => s == t
  | tuple xs, tuple ys => equalAll xs ys
  | _, _ => false

def equalAll : List KeyItem → List KeyItem → Bool
  | [], [] => true
  | x :: xs, y :: ys => equal x y && equalAll xs ys
  | _, _ => false

end

mutual

/-- Whether an item is less than another one; items of different kinds cannot be compared. -/
def less? : KeyItem → KeyItem → Option Bool
  | whole m, whole n => some (m < n)
  | double x, double y => some (x < y)
  | text s, text t => some (s < t)
  | tuple xs, tuple ys => lessAll? xs ys
  | _, _ => none

/-- The first position where two tuples differ decides; if there is none, their lengths do. -/
def lessAll? : List KeyItem → List KeyItem → Option Bool
  | [], [] => some false
  | [], _ :: _ => some true
  | _ :: _, [] => some false
  | x :: xs, y :: ys => if equal x y then lessAll? xs ys else less? x y

end

/-! ## Comparisons that succeed -/

/-- The items can be compared, and compare like that. -/
structure Agrees (x y : KeyItem) (o : Ordering) : Prop where
  equal : x.equal y = (o == .eq)
  less : x.less? y = some (o == .lt)

/-- The positions of two tuples can be compared as far as needed, and compare like that. -/
structure AllAgree (xs ys : List KeyItem) (o : Ordering) : Prop where
  equal : equalAll xs ys = (o == .eq)
  less : lessAll? xs ys = some (o == .lt)

theorem orderingOf_eq_iff {α : Type} [LinearOrder α] {x y : α} : orderingOf x y = .eq ↔ x = y :=
  ⟨eq_of_orderingOf, fun h => h ▸ orderingOf_self x⟩

theorem agrees_whole (m n : Int) : Agrees (whole m) (whole n) (orderingOf m n) where
  equal := by rw [KeyItem.equal, Bool.eq_iff_iff, beq_iff_eq, beq_iff_eq, orderingOf_eq_iff]
  less := by rw [less?, Kernel.lt_eq_orderingOf]

theorem agrees_text (s t : String) : Agrees (text s) (text t) (orderingOf s t) where
  equal := by rw [KeyItem.equal, Bool.eq_iff_iff, beq_iff_eq, beq_iff_eq, orderingOf_eq_iff]
  less := by rw [less?, Kernel.lt_eq_orderingOf]

theorem agrees_double {x y : Float} (hx : x.isNaN = false) (hy : y.isNaN = false) :
    Agrees (double x) (double y) (orderingOf x y) where
  equal := Kernel.beq_eq_orderingOf hx hy
  less := by rw [less?, Kernel.lt_eq_orderingOf]

theorem AllAgree.tuple {xs ys : List KeyItem} {o : Ordering} (h : AllAgree xs ys o) :
    Agrees (tuple xs) (tuple ys) o :=
  ⟨h.equal, h.less⟩

theorem AllAgree.nil : AllAgree [] [] .eq := ⟨rfl, rfl⟩

/-- What comes first decides, if it differs. -/
theorem Agrees.decides {x y : KeyItem} {o : Ordering} (h : Agrees x y o) (ho : o ≠ .eq)
    (xs ys : List KeyItem) : AllAgree (x :: xs) (y :: ys) o := by
  have hequal : x.equal y = false := by rw [h.equal, beq_eq_false_iff_ne]; exact ho
  exact ⟨by rw [equalAll, hequal, Bool.false_and, ← h.equal, hequal], by
    rw [lessAll?, if_neg (by rw [hequal]; exact Bool.false_ne_true), h.less]⟩

/-- What comes first decides, then the rest. -/
theorem Agrees.cons {x y : KeyItem} {xs ys : List KeyItem} {o o' : Ordering} (h : Agrees x y o)
    (hrest : AllAgree xs ys o') : AllAgree (x :: xs) (y :: ys) (o.then o') := by
  by_cases ho : o = .eq
  · subst ho
    have hequal : x.equal y = true := h.equal
    exact ⟨by rw [equalAll, hequal, Bool.true_and, hrest.equal]; rfl, by
      rw [lessAll?, if_pos hequal, hrest.less]; rfl⟩
  · have hthen : o.then o' = o := by cases o <;> simp_all
    rw [hthen]
    exact h.decides ho xs ys

theorem Agrees.last {x y : KeyItem} {o : Ordering} (h : Agrees x y o) : AllAgree [x] [y] o := by
  have hlast := h.cons .nil
  rwa [Ordering.then_eq] at hlast

theorem allAgree_texts : ∀ ss ts : List String,
    AllAgree (ss.map text) (ts.map text) (OrderKey.compareTexts ss ts)
  | [], [] => .nil
  | [], _ :: _ => ⟨rfl, rfl⟩
  | _ :: _, [] => ⟨rfl, rfl⟩
  | s :: ss, t :: ts => (agrees_text s t).cons (allAgree_texts ss ts)

end KeyItem

namespace OrderKey

open KeyItem (Agrees AllAgree agrees_whole agrees_text agrees_double allAgree_texts)

mutual

/-- A key as a tuple. -/
def tuple : OrderKey → KeyItem
  | number re im s => .tuple [.whole 0, .tuple [.double re, .double im, .text s]]
  | symbol n => .tuple [.whole 1, .text n]
  | application k f n keys => .tuple [.whole 2, .whole k, .text f, .whole n, .tuple (tuples keys)]
  | error code details => .tuple [.whole 3, .text code, .tuple (details.map .text)]

def tuples : List OrderKey → List KeyItem
  | [] => []
  | x :: rest => tuple x :: tuples rest

end

mutual

/-- Whether the doubles of a key are numbers. -/
def isNumeric : OrderKey → Bool
  | number re im _ => !re.isNaN && !im.isNaN
  | symbol _ => true
  | application _ _ _ keys => allNumeric keys
  | error _ _ => true

def allNumeric : List OrderKey → Bool
  | [] => true
  | x :: rest => isNumeric x && allNumeric rest

end

theorem exists_tuple (x : OrderKey) : ∃ rest, x.tuple = .tuple (.whole x.rank :: rest) := by
  cases x <;> exact ⟨_, rfl⟩

theorem compare_of_rank_ne {x y : OrderKey} (h : x.rank ≠ y.rank) :
    compare x y = orderingOf x.rank y.rank := by
  cases x <;> cases y <;> first | rfl | exact absurd rfl h

/-- The kinds of two keys decide, if they differ. -/
theorem agrees_of_rank_ne {x y : OrderKey} (h : x.rank ≠ y.rank) :
    Agrees x.tuple y.tuple (compare x y) := by
  obtain ⟨xs, hx⟩ := exists_tuple x
  obtain ⟨ys, hy⟩ := exists_tuple y
  have hdiffer : orderingOf x.rank y.rank ≠ .eq := fun heq => h (eq_of_orderingOf heq)
  rw [hx, hy, compare_of_rank_ne h, ← orderingOf_natCast]
  rw [← orderingOf_natCast] at hdiffer
  exact ((agrees_whole _ _).decides hdiffer xs ys).tuple

/-- Kinds that are equal leave it to what follows. -/
theorem agrees_rank (n : Int) {xs ys : List KeyItem} {o : Ordering} (h : AllAgree xs ys o) :
    Agrees (.tuple (.whole n :: xs)) (.tuple (.whole n :: ys)) o := by
  have hhead := agrees_whole n n
  rw [orderingOf_self] at hhead
  exact (hhead.cons h).tuple

mutual

/-- **The tuples of keys compare like the keys.** -/
theorem agrees_tuple : ∀ {x y : OrderKey}, x.isNumeric = true → y.isNumeric = true →
    Agrees x.tuple y.tuple (compare x y)
  | number a b s, y, hx, hy => by
      cases y with
      | number c d t =>
          rw [isNumeric, Bool.and_eq_true, Bool.not_eq_true', Bool.not_eq_true'] at hx hy
          have htext := (agrees_text s t).last
          have hparts := (agrees_double hx.1 hy.1).cons ((agrees_double hx.2 hy.2).cons htext)
          exact agrees_rank 0 hparts.tuple.last
      | _ => exact agrees_of_rank_ne (by simp [rank])
  | symbol n, y, _, _ => by
      cases y with
      | symbol m => exact agrees_rank 1 (agrees_text n m).last
      | _ => exact agrees_of_rank_ne (by simp [rank])
  | application k f n xs, y, hx, hy => by
      cases y with
      | application l g m ys =>
          have hcount := agrees_whole n m
          rw [orderingOf_natCast] at hcount
          have hoperands := (allAgree_tuples hx hy).tuple.last
          exact agrees_rank 2
            ((agrees_whole k l).cons ((agrees_text f g).cons (hcount.cons hoperands)))
      | _ => exact agrees_of_rank_ne (by simp [rank])
  | error c ds, y, _, _ => by
      cases y with
      | error c' ds' =>
          exact agrees_rank 3 ((agrees_text c c').cons (allAgree_texts ds ds').tuple.last)
      | _ => exact agrees_of_rank_ne (by simp [rank])

theorem allAgree_tuples : ∀ {xs ys : List OrderKey}, allNumeric xs = true → allNumeric ys = true →
    AllAgree (tuples xs) (tuples ys) (compareAll xs ys)
  | [], [], _, _ => .nil
  | [], _ :: _, _, _ => ⟨rfl, rfl⟩
  | _ :: _, [], _, _ => ⟨rfl, rfl⟩
  | x :: xs, y :: ys, hx, hy => by
      rw [allNumeric, Bool.and_eq_true] at hx hy
      exact (agrees_tuple hx.1 hy.1).cons (allAgree_tuples hx.2 hy.2)

end

mutual

/-- The keys of expressions have no other doubles. -/
theorem isNumeric_of (t : DefinitionTable) : ∀ e : Expr, (of t e).isNumeric = true
  | .number v => by rw [of, isNumeric, isNaN_part, isNaN_part]; rfl
  | .symbol _ _ _ => rfl
  | .error _ _ _ => rfl
  | .application _ ops _ _ => allNumeric_ofAll t ops

theorem allNumeric_ofAll (t : DefinitionTable) : ∀ es : List Expr, allNumeric (ofAll t es) = true
  | [] => rfl
  | e :: rest => by rw [ofAll, allNumeric, isNumeric_of t e, allNumeric_ofAll t rest]; rfl

end

/-- A key compares to itself as equal, since that is its own opposite. -/
theorem compare_self (x : OrderKey) : compare x x = .eq := by
  have h := compare_swap x x
  cases hx : compare x x with
  | eq => rfl
  | lt => rw [hx] at h; cases h
  | gt => rw [hx] at h; cases h

/-! ## Equal complexities -/

mutual

/-- Whether each operator in an expression has the complexity that is given for its name. -/
def isRanked (t : DefinitionTable) (κ : String → ℤ) : Expr → Bool
  | .application f ops d c => t.complexity (.application f ops d c) == κ f && allRanked t κ ops
  | _ => true

def allRanked (t : DefinitionTable) (κ : String → ℤ) : List Expr → Bool
  | [] => true
  | e :: rest => isRanked t κ e && allRanked t κ rest

end

variable {t : DefinitionTable} {κ : String → ℤ}

/-- The keys of expressions of one structure, if their literals are exact and equal operators have equal
complexities. -/
theorem congruence_key :
    Expr.Congruence (fun a b => a.isExact = true → isRanked t κ a = true → isRanked t κ b = true →
        of t a = of t b)
      fun xs ys => Expr.allOver Number.isExact xs = true → allRanked t κ xs = true →
        allRanked t κ ys = true → ofAll t xs = ofAll t ys where
  number h ha _ _ := by rw [(Number.same_iff ha).1 h]
  symbol _ _ _ := rfl
  application hsame h ha hra hrb := by
    rw [isRanked, Bool.and_eq_true, beq_iff_eq] at hra hrb
    rw [of, of, hra.1, hrb.1, h ha hra.2 hrb.2, Expr.length_of_sameAll hsame]
  error _ ha := by cases ha
  nil _ _ _ := rfl
  cons _ hx hxs ha hra hrb := by
    rw [Expr.allOver, Bool.and_eq_true] at ha
    rw [allRanked, Bool.and_eq_true] at hra hrb
    rw [ofAll, ofAll, hx ha.1 hra.1 hrb.1, hxs ha.2 hra.2 hrb.2]

/-- **Expressions that are the same have one key**, if their literals are exact and equal operators have
equal complexities. -/
theorem of_eq_of_same {a b : Expr} (ha : a.isExact = true) (hra : isRanked t κ a = true)
    (hrb : isRanked t κ b = true) (h : a.same b = true) : of t a = of t b :=
  congruence_key.of_same h ha hra hrb

/-- **Keys separate expressions.**  The keys of two expressions with exact literals, in which equal
operators have equal complexities, are equal as tuples if and only if the expressions are the same.  They can
be compared both ways, and are either equal, or one of them is less than the other one. -/
theorem tuple_separates (t : DefinitionTable) (κ : String → ℤ) {a b : Expr} (ha : a.isExact = true)
    (hb : b.isExact = true) (hra : isRanked t κ a = true) (hrb : isRanked t κ b = true) :
    ((of t a).tuple.equal (of t b).tuple = true ↔ a.same b = true) ∧
      ∃ o : Ordering, (of t a).tuple.less? (of t b).tuple = some (o == .lt) ∧
        (of t b).tuple.less? (of t a).tuple = some (o == .gt) ∧
        (of t a).tuple.equal (of t b).tuple = (o == .eq) := by
  have h := agrees_tuple (isNumeric_of t a) (isNumeric_of t b)
  have hswap := agrees_tuple (isNumeric_of t b) (isNumeric_of t a)
  refine ⟨?_, compare (of t a) (of t b), h.less, ?_, h.equal⟩
  · rw [h.equal, beq_iff_eq]
    refine ⟨same_of_compare ha hb, fun hsame => ?_⟩
    rw [of_eq_of_same ha hra hrb hsame, compare_self]
  · rw [hswap.less, compare_swap (of t a) (of t b)]
    cases compare (of t a) (of t b) <;> rfl

/-- Two functions of different complexities. -/
def twoFunctions : DefinitionTable where
  entries := #[.function { FunctionDefinition.met "f" with complexity := 7 },
    .function { FunctionDefinition.met "g" with complexity := 9 }]
  names := [("f", 0), ("g", 1)]

/-- `f(g(x), v)`. -/
def nested (v : Number) : Expr :=
  .application "f" [.application "g" [.symbol "x" none true] (some 1) true, .number v] (some 0) true

/-- The keys of `f(g(x), 1/2)` and `f(g(x), 1/2 + i)` differ, and one of them is less. -/
theorem tuple_separates_nested :
    let a := nested (.ofRat (1 / 2))
    let b := nested (.complex (.exact (1 / 2)) (.exact 1))
    let κ := fun f => if f = "f" then 7 else 9
    (a.isExact = true ∧ b.isExact = true ∧ isRanked twoFunctions κ a = true ∧
      isRanked twoFunctions κ b = true) ∧
    (of twoFunctions a).tuple.equal (of twoFunctions b).tuple = false ∧
    ∃ less : Bool, (of twoFunctions a).tuple.less? (of twoFunctions b).tuple = some less ∧
      (of twoFunctions b).tuple.less? (of twoFunctions a).tuple = some !less := by
  intro a b κ
  have hside : a.isExact = true ∧ b.isExact = true ∧ isRanked twoFunctions κ a = true ∧
      isRanked twoFunctions κ b = true := by decide
  obtain ⟨hequal, o, hless, hgreater, ho⟩ :=
    tuple_separates twoFunctions κ hside.1 hside.2.1 hside.2.2.1 hside.2.2.2
  have hdiffer : (of twoFunctions a).tuple.equal (of twoFunctions b).tuple = false := by
    rw [← Bool.not_eq_true, hequal]
    decide
  rw [hdiffer] at ho
  refine ⟨hside, hdiffer, o == .lt, hless, hgreater.trans ?_⟩
  cases o with
  | eq => cases ho
  | lt => rfl
  | gt => rfl

end OrderKey

end SymbolicAlgebra
