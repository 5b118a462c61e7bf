import Mathlib.Data.Nat.Choose.Sum
import SymbolicAlgebra.Combinatorics

/-!
# Proofs/Multinomial — Pascal's triangle and the multinomial theorem

The kept rows are always the first rows of Pascal's triangle (`Pascal.IsTriangle`), so the numbers
read from them are binomial coefficients.  `sum_pow` is the multinomial theorem for the compositions
that are enumerated and the coefficients that are computed for them.
-/

namespace SymbolicAlgebra

namespace Pascal

/-! ## The rows -/

/-- A row of binomial coefficients. -/
def row (n : Nat) : List Nat := (List.range (n + 1)).map n.choose

@[simp] theorem length_row (n : Nat) : (row n).length = n + 1 := by simp [row]

@[simp] theorem getElem?_row {n k : Nat} (h : k ≤ n) : (row n)[k]? = some (n.choose k) := by
  rw [row, List.getElem?_map, List.getElem?_range (by omega), Option.map_some]

theorem nextRow_row (n : Nat) : nextRow (row n) = row (n + 1) := by
  refine List.ext_getElem? fun i => ?_
  rw [nextRow, List.getElem?_zipWith]
  rcases i with _ | i
  · rw [List.getElem?_append_left (by simp), List.getElem?_cons_zero, getElem?_row (Nat.zero_le n),
      getElem?_row (Nat.zero_le (n + 1))]
    simp
  · rcases Nat.lt_trichotomy i n with h | rfl | h
    · rw [List.getElem?_append_left (by simp; omega), List.getElem?_cons_succ,
        getElem?_row (by omega), getElem?_row (by omega), getElem?_row (by omega)]
      rw [Nat.choose_succ_succ]
    · rw [List.getElem?_append_right (by simp), List.getElem?_cons_succ, getElem?_row le_rfl,
        getElem?_row le_rfl]
      simp
    · rw [List.getElem?_cons_succ, List.getElem?_eq_none (l := row n) (by simp; omega),
        List.getElem?_eq_none (l := row (n + 1)) (by simp; omega)]

/-- The first rows of Pascal's triangle, at least one of them. -/
structure IsTriangle (rows : Pascal) : Prop where
  ne_nil : rows ≠ []
  rows_eq : rows = (List.range rows.length).map row

theorem isTriangle_initial : IsTriangle initial := ⟨by decide, by decide⟩

theorem IsTriangle.getElem? {rows : Pascal} (h : IsTriangle rows) {n : Nat} (hn : n < rows.length) :
    rows[n]? = some (row n) := by
  rw [h.rows_eq, List.getElem?_map, List.getElem?_range (by simpa using hn), Option.map_some]

theorem IsTriangle.next {rows : Pascal} (h : IsTriangle rows) :
    IsTriangle (rows ++ [nextRow (rows.getLast?.getD [])]) := by
  have hlen : 0 < rows.length := List.length_pos_iff.2 h.ne_nil
  have hlast : rows.getLast? = some (row (rows.length - 1)) := by
    rw [List.getLast?_eq_getElem?, h.getElem? (by omega)]
  refine ⟨by simp, ?_⟩
  rw [hlast, Option.getD_some, nextRow_row, Nat.sub_add_cancel hlen, List.length_append,
    List.length_singleton, List.range_succ, List.map_append, ← h.rows_eq, List.map_singleton]

theorem IsTriangle.extendBy : ∀ (n : Nat) {rows : Pascal}, IsTriangle rows →
    IsTriangle (rows.extendBy n) ∧ (rows.extendBy n).length = rows.length + n
  | 0, _, h => ⟨h, rfl⟩
  | n + 1, rows, h => by
      obtain ⟨ht, hl⟩ := IsTriangle.extendBy n h.next
      refine ⟨ht, ?_⟩
      rw [Pascal.extendBy, hl, List.length_append, List.length_singleton]
      omega

theorem IsTriangle.extendTo (n : Nat) {rows : Pascal} (h : IsTriangle rows) :
    IsTriangle (rows.extendTo n) ∧ n < (rows.extendTo n).length := by
  obtain ⟨ht, hl⟩ := h.extendBy (n + 1 - rows.length)
  exact ⟨ht, by rw [Pascal.extendTo, hl]; omega⟩

/-- **Binomial coefficients are read right**, and leave a triangle behind. -/
theorem IsTriangle.choose_eq {rows : Pascal} (h : IsTriangle rows) {n k : Nat} (hk : k ≤ n) :
    ∃ rows', choose rows n k = .ok (n.choose k, rows') ∧ IsTriangle rows' := by
  obtain ⟨ht, hn⟩ := h.extendTo n
  refine ⟨rows.extendTo n, ?_, ht⟩
  have hitem : item? (rows.extendTo n) n = some (row n) := by
    rw [item?, if_pos (by omega), Int.toNat_natCast, ht.getElem? hn]
  have hentry : item? (row n) k = some (n.choose k) := by
    rw [item?, if_pos (by omega), Int.toNat_natCast, getElem?_row hk]
  simp only [choose, Int.natCast_nonneg, if_true, Int.toNat_natCast, hitem, Option.bind_some, hentry]

/-- The number of ways to split `n` things into parts, one part after the other. -/
def splits (n : Nat) : List Nat → Nat
  | [] => 1
  | k :: ks => n.choose k * splits (n - k) ks

theorem IsTriangle.multinomialFrom_eq : ∀ (ks : List Nat) (n result : Nat) {rows : Pascal},
    IsTriangle rows → ks.sum ≤ n →
    ∃ rows', multinomialFrom rows n (ks.map Int.ofNat) result = .ok (result * splits n ks, rows') ∧
      IsTriangle rows'
  | [], n, result, rows, h, _ => ⟨rows, by simp [multinomialFrom, splits], h⟩
  | k :: ks, n, result, rows, h, hsum => by
      rw [List.sum_cons] at hsum
      obtain ⟨rows₁, hchoose, h₁⟩ := h.choose_eq (k := k) (n := n) (by omega)
      obtain ⟨rows₂, hrest, h₂⟩ := IsTriangle.multinomialFrom_eq ks (n - k) (result * n.choose k) h₁
        (by omega)
      refine ⟨rows₂, ?_, h₂⟩
      have hsub : (n : Int) - Int.ofNat k = ((n - k : Nat) : Int) := by
        rw [Int.ofNat_eq_natCast]
        omega
      rw [List.map_cons, multinomialFrom, Int.ofNat_eq_natCast, hchoose, ← Int.ofNat_eq_natCast k]
      simp only [bind, Except.bind]
      rw [hsub, hrest, splits, Nat.mul_assoc]

theorem foldl_ofNat (ks : List Nat) (n : Nat) :
    (ks.map Int.ofNat).foldl (· + ·) (n : Int) = ((n + ks.sum : Nat) : Int) := by
  induction ks generalizing n with
  | nil => simp
  | cons k ks ih =>
      rw [List.map_cons, List.foldl_cons, Int.ofNat_eq_natCast, ← Int.natCast_add, ih, List.sum_cons,
        Nat.add_assoc]

/-- **Multinomial coefficients are computed right**, and leave a triangle behind. -/
theorem IsTriangle.multinomial_eq {rows : Pascal} (h : IsTriangle rows) (ks : List Nat) :
    ∃ rows', multinomial rows (ks.map Int.ofNat) = .ok (splits ks.sum ks, rows') ∧
      IsTriangle rows' := by
  obtain ⟨rows', hrows, h'⟩ := IsTriangle.multinomialFrom_eq ks ks.sum 1 h le_rfl
  refine ⟨rows', ?_, h'⟩
  have hfold := foldl_ofNat ks 0
  rw [Nat.zero_add, Int.natCast_zero] at hfold
  rw [multinomial, hfold, hrows, Nat.one_mul]

end Pascal

/-! ## Compositions -/

theorem mem_compositions : ∀ {n total : Nat} {ks : List Nat}, ks ∈ compositions (n + 1) total →
    ks.length = n + 1 ∧ ks.sum = total
  | 0, total, ks, h => by
      rw [compositions, List.mem_singleton] at h
      simp [h]
  | n + 1, total, ks, h => by
      rw [compositions, List.mem_flatMap] at h
      obtain ⟨i, hi, h⟩ := h
      obtain ⟨rest, hrest, rfl⟩ := List.mem_map.1 h
      obtain ⟨hlen, hsum⟩ := mem_compositions hrest
      rw [List.mem_range] at hi
      rw [List.length_cons, List.sum_cons, hlen, hsum]
      omega

variable {K : Type*} [CommSemiring K]

/-- One term of a power of a sum. -/
def multinomialTerm (n : Nat) (xs : List K) (ks : List Nat) : K :=
  Pascal.splits n ks * (List.zipWith (· ^ ·) xs ks).prod

theorem multinomialTerm_cons (n i : Nat) (x : K) (xs : List K) (ks : List Nat) :
    multinomialTerm n (x :: xs) (i :: ks) =
      x ^ i * n.choose i * multinomialTerm (n - i) xs ks := by
  rw [multinomialTerm, multinomialTerm, Pascal.splits, List.zipWith_cons_cons, List.prod_cons,
    Nat.cast_mul]
  ring

/-- **The multinomial theorem**, over the compositions in the order they are listed. -/
theorem sum_pow : ∀ (n : Nat) (xs : List K), xs ≠ [] →
    xs.sum ^ n = ((compositions xs.length n).map (multinomialTerm n xs)).sum
  | _, [], h => absurd rfl h
  | n, [x], _ => by
      simp [compositions, multinomialTerm, Pascal.splits]
  | n, x :: y :: rest, _ => by
      have hrest : ∀ m, (y :: rest).sum ^ m =
          ((compositions (rest.length + 1) m).map (multinomialTerm m (y :: rest))).sum :=
        fun m => sum_pow m (y :: rest) (by simp)
      have hterm : ∀ i, (((compositions (rest.length + 1) (n - i)).map (i :: ·)).map
          (multinomialTerm n (x :: y :: rest))).sum =
            x ^ i * (y :: rest).sum ^ (n - i) * n.choose i := by
        intro i
        rw [List.map_map, hrest]
        simp only [Function.comp_def, multinomialTerm_cons, List.sum_map_mul_left]
        ring
      rw [List.sum_cons, add_pow, List.length_cons, List.length_cons, compositions,
        List.map_flatMap, List.flatMap_def, List.sum_flatten, List.map_map]
      simp only [Function.comp_def, hterm]
      rfl

end SymbolicAlgebra
