import Mathlib.Algebra.Order.BigOperators.GroupWithZero.List
import Mathlib.Data.Nat.Choose.Basic
import SymbolicAlgebra.Proofs.Multinomial

/-!
# Proofs/PascalTable — multinomial coefficients, whatever was computed before

The kept table is extended by every binomial coefficient that is asked for, also when the entry does
not exist and the reading fails.  Whatever was asked for, it is a prefix of Pascal's triangle
(`isTriangle_afterReadings`), so a multinomial coefficient is the quotient of factorials, and none of
the entries it reads lies outside the table or is counted from its end
(`multinomial_after_readings`).
-/

namespace SymbolicAlgebra.Pascal

open scoped Nat

/-! ## The table that is kept -/

/-- The table that a reading in row `n` leaves behind: it is extended first, so also when the row has
no place `k`. -/
def afterReading (rows : Pascal) (n : Nat) (k : Int) : Pascal :=
  match choose rows n k with
  | .ok (_, rows') => rows'
  | .error _ => rows.extendTo n

/-- The table after readings from the first one on. -/
def afterReadings (readings : List (Nat × Int)) : Pascal :=
  readings.foldl (fun rows reading => afterReading rows reading.1 reading.2) initial

theorem choose_table {rows rows' : Pascal} {n : Nat} {k : Int} {c : Nat}
    (h : choose rows n k = .ok (c, rows')) : rows' = rows.extendTo n := by
  simp only [choose, Int.natCast_nonneg, if_true, Int.toNat_natCast] at h
  split at h
  · simp only [Except.ok.injEq, Prod.mk.injEq] at h
    exact h.2.symm
  · cases h

theorem afterReading_eq (rows : Pascal) (n : Nat) (k : Int) :
    afterReading rows n k = rows.extendTo n := by
  rw [afterReading]
  split
  next h => exact choose_table h
  next => rfl

/-- **The kept table is a prefix of Pascal's triangle**, whatever was read. -/
theorem isTriangle_afterReadings (readings : List (Nat × Int)) :
    IsTriangle (afterReadings readings) :=
  List.foldlRecOn readings _ isTriangle_initial fun rows h reading _ => by
    rw [afterReading_eq]
    exact (h.extendTo reading.1).1

/-! ## The entries that are read -/

/-- A place of the table, counted from its start. -/
def HasEntry (rows : Pascal) (n k : Int) : Prop :=
  ∃ entries, 0 ≤ n ∧ rows[n.toNat]? = some entries ∧ 0 ≤ k ∧ k < entries.length

/-- Every entry that is read for the parts `ks` of `n` is there when it is read: row `n` is extended
to first, and the next entry is read from the table this reading leaves behind. -/
def ReadsEntries : Pascal → Int → List Int → Prop
  | _, _, [] => True
  | rows, n, k :: ks => HasEntry (rows.extendTo n.toNat) n k ∧
      ∀ c rows', choose rows n k = .ok (c, rows') → ReadsEntries rows' (n - k) ks

theorem IsTriangle.hasEntry {rows : Pascal} (h : IsTriangle rows) {n k : Nat} (hk : k ≤ n)
    (hn : n < rows.length) : HasEntry rows n k :=
  ⟨row n, by omega, h.getElem? hn, by omega, by rw [length_row]; omega⟩

theorem IsTriangle.readsEntries : ∀ (ks : List Nat) (n : Nat) {rows : Pascal},
    IsTriangle rows → ks.sum ≤ n → ReadsEntries rows n (ks.map Int.ofNat)
  | [], _, _, _, _ => trivial
  | k :: ks, n, rows, h, hsum => by
    rw [List.sum_cons] at hsum
    obtain ⟨ht, hn⟩ := h.extendTo n
    refine ⟨ht.hasEntry (by omega) hn, fun c rows' hchoose => ?_⟩
    have hsub : (n : Int) - Int.ofNat k = ((n - k : Nat) : Int) := by
      rw [Int.ofNat_eq_natCast]
      omega
    rw [hsub, choose_table hchoose]
    exact IsTriangle.readsEntries ks (n - k) ht (by omega)

/-! ## The quotient of factorials -/

theorem splits_mul_factorial : ∀ ks : List Nat,
    splits ks.sum ks * (ks.map (·!)).prod = ks.sum !
  | [] => rfl
  | k :: ks => by
    have hchoose : (k + ks.sum).choose k * k ! * (k + ks.sum - k)! = (k + ks.sum)! :=
      Nat.choose_mul_factorial_mul_factorial (Nat.le_add_right k ks.sum)
    rw [Nat.add_sub_cancel_left, ← splits_mul_factorial ks] at hchoose
    rw [List.sum_cons, splits, List.map_cons, List.prod_cons, Nat.add_sub_cancel_left, ← hchoose]
    ring

theorem splits_eq_div (ks : List Nat) : splits ks.sum ks = ks.sum ! / (ks.map (·!)).prod := by
  have hpos : 0 < (ks.map (·!)).prod := by
    refine List.prod_pos fun m hm => ?_
    obtain ⟨k, -, rfl⟩ := List.mem_map.1 hm
    exact Nat.factorial_pos k
  exact (Nat.div_eq_of_eq_mul_left hpos (splits_mul_factorial ks).symm).symm

/-- **Multinomial coefficients are right, whatever was computed before.**  After any readings of the
table, the coefficient is the factorial of the sum divided by the factorials of the parts, a quotient
without remainder; every entry read for it is in the table; and the table left behind is a prefix of
Pascal's triangle again. -/
theorem multinomial_after_readings (readings : List (Nat × Int)) (ks : List Nat) :
    (∃ rows', multinomial (afterReadings readings) (ks.map Int.ofNat) =
        .ok (ks.sum ! / (ks.map (·!)).prod, rows') ∧ IsTriangle rows') ∧
      (ks.map (·!)).prod ∣ ks.sum ! ∧
      ReadsEntries (afterReadings readings) ((ks.map Int.ofNat).foldl (· + ·) 0)
        (ks.map Int.ofNat) := by
  have ht := isTriangle_afterReadings readings
  refine ⟨?_, ⟨_, (splits_mul_factorial ks).symm.trans (Nat.mul_comm _ _)⟩, ?_⟩
  · rw [← splits_eq_div]
    exact ht.multinomial_eq ks
  · have hsum := foldl_ofNat ks 0
    rw [Nat.zero_add, Int.natCast_zero] at hsum
    rw [hsum]
    exact ht.readsEntries ks ks.sum le_rfl

end SymbolicAlgebra.Pascal
