import Mathlib.Data.Nat.Choose.Sum
import SymbolicAlgebra.Proofs.Multinomial

/-!
# Proofs/Compositions — every composition once, in lexicographic order

The ways to write a total as a sum of `n` natural numbers are enumerated completely
(`mem_compositions_iff`), in strictly increasing lexicographic order (`pairwise_compositions`), hence
without repetition, and there are as many as ways to choose `n - 1` of `total + n - 1` things
(`length_compositions`).  The enumeration over the integers is this one
(`compositions_enumerated`).
-/

namespace SymbolicAlgebra

theorem mem_compositions_iff : ∀ {n total : Nat} {ks : List Nat},
    ks ∈ compositions (n + 1) total ↔ ks.length = n + 1 ∧ ks.sum = total
  | n, total, ks => by
    refine ⟨mem_compositions, fun ⟨hlen, hsum⟩ => ?_⟩
    match n, ks, hlen with
    | 0, [k], _ => simpa [compositions] using hsum
    | n + 1, k :: ks, hlen =>
      rw [List.length_cons, Nat.add_right_cancel_iff] at hlen
      rw [List.sum_cons] at hsum
      have hrest : ks ∈ compositions (n + 1) (total - k) :=
        mem_compositions_iff.2 ⟨hlen, by omega⟩
      rw [compositions, List.mem_flatMap]
      exact ⟨k, List.mem_range.2 (by omega), List.mem_map_of_mem hrest⟩

/-- **The order is lexicographic**, and strictly increasing. -/
theorem pairwise_compositions : ∀ n total : Nat, (compositions n total).Pairwise (· < ·)
  | 0, _ => List.Pairwise.nil
  | 1, total => List.pairwise_singleton _ _
  | n + 2, total => by
    rw [compositions, List.pairwise_flatMap]
    refine ⟨fun i _ => ?_, List.pairwise_lt_range.imp fun {i j} hij ks hi ms hj => ?_⟩
    · refine List.pairwise_map.2 ((pairwise_compositions (n + 1) (total - i)).imp fun h => ?_)
      exact List.cons_lt_cons_iff.2 (.inr ⟨rfl, h⟩)
    · obtain ⟨ks, -, rfl⟩ := List.mem_map.1 hi
      obtain ⟨ms, -, rfl⟩ := List.mem_map.1 hj
      exact List.cons_lt_cons_iff.2 (.inl hij)

theorem length_compositions : ∀ n total : Nat,
    (compositions (n + 1) total).length = (total + n).choose n
  | 0, total => by simp [compositions]
  | n + 1, total => by
    have hparts : ∀ i ∈ List.range (total + 1),
        ((compositions (n + 1) (total - i)).map (i :: ·)).length = (total - i + n).choose n := by
      intro i _
      rw [List.length_map, length_compositions n]
    calc (compositions (n + 2) total).length
        = ((List.range (total + 1)).map fun i => (total - i + n).choose n).sum := by
          rw [compositions, List.length_flatMap, List.map_congr_left hparts]
      _ = ∑ i ∈ Finset.range (total + 1), (total + 1 - 1 - i + n).choose n := rfl
      _ = ∑ i ∈ Finset.range (total + 1), (i + n).choose n :=
          Finset.sum_range_reflect (fun i => (i + n).choose n) (total + 1)
      _ = (total + (n + 1)).choose (n + 1) := Nat.sum_range_add_choose total n

/-! ## Over the integers -/

theorem map_ofNat_lt_map_ofNat {ks ms : List Nat} (h : ks < ms) :
    ks.map Int.ofNat < ms.map Int.ofNat := by
  induction h with
  | nil => exact List.Lex.nil
  | cons _ ih => exact List.Lex.cons ih
  | rel h => exact List.Lex.rel (Int.ofNat_lt.2 h)

theorem compositionsOf_eq (n total : Nat) :
    compositionsOf (n + 1 : Nat) total =
      .ok ((compositions (n + 1) total).map (·.map Int.ofNat)) := by
  obtain rfl | hn := Nat.eq_zero_or_pos n
  · rfl
  · rw [compositionsOf, if_neg (by omega), if_neg (by omega), if_neg (by omega),
      Int.toNat_natCast, Int.toNat_natCast]

theorem mem_map_compositions {n total : Nat} {ks : List Int} :
    ks ∈ (compositions (n + 1) total).map (·.map Int.ofNat) ↔
      ks.length = n + 1 ∧ (∀ k ∈ ks, 0 ≤ k) ∧ ks.sum = total := by
  constructor
  · intro h
    obtain ⟨ms, hms, rfl⟩ := List.mem_map.1 h
    obtain ⟨hlen, hsum⟩ := mem_compositions hms
    refine ⟨by rw [List.length_map, hlen], fun k hk => ?_, ?_⟩
    · obtain ⟨m, -, rfl⟩ := List.mem_map.1 hk
      exact Int.natCast_nonneg m
    · rw [← hsum]
      exact (Nat.cast_list_sum ms).symm
  · rintro ⟨hlen, hpos, hsum⟩
    lift ks to List Nat using hpos
    rw [List.length_map] at hlen
    rw [← Nat.cast_list_sum, Nat.cast_inj] at hsum
    exact List.mem_map_of_mem (mem_compositions_iff.2 ⟨hlen, hsum⟩)

/-- **Compositions are enumerated.**  For any number of parts and any total, every list of that many
non-negative integers with that sum is listed exactly once, in strictly increasing lexicographic
order. -/
theorem compositions_enumerated {n : Nat} (total : Nat) (hn : 1 ≤ n) :
    ∃ lists, compositionsOf n total = .ok lists ∧
      (∀ ks : List Int, ks ∈ lists ↔ ks.length = n ∧ (∀ k ∈ ks, 0 ≤ k) ∧ ks.sum = total) ∧
      lists.Nodup ∧ lists.Pairwise (· < ·) ∧
      lists.length = (total + n - 1).choose (n - 1) := by
  obtain ⟨m, rfl⟩ : ∃ m, n = m + 1 := ⟨n - 1, by omega⟩
  have horder : ((compositions (m + 1) total).map (·.map Int.ofNat)).Pairwise (· < ·) :=
    List.pairwise_map.2 ((pairwise_compositions (m + 1) total).imp map_ofNat_lt_map_ofNat)
  refine ⟨_, compositionsOf_eq m total, fun ks => mem_map_compositions,
    horder.imp ne_of_lt, horder, ?_⟩
  rw [List.length_map, length_compositions]
  rfl

theorem compositions_enumerated_pairs : 1 ≤ 2 ∧
    ∃ lists, compositionsOf 2 2 = .ok lists ∧
      (∀ ks : List Int, ks ∈ lists ↔ ks.length = 2 ∧ (∀ k ∈ ks, 0 ≤ k) ∧ ks.sum = 2) ∧
      lists.Nodup ∧ lists.Pairwise (· < ·) ∧ lists.length = 3 :=
  ⟨by decide, compositions_enumerated 2 (by decide)⟩

example : compositionsOf 2 2 = .ok [[0, 2], [1, 1], [2, 0]] := rfl

end SymbolicAlgebra
