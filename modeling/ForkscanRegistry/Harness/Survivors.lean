import ForkscanRegistry.Harness.QuicksortScenario
import ForkscanRegistry.Harness.Agreement

/-
Module: ForkscanRegistry.Harness.Survivors
Layer: Proofs
Purpose: How many entries `test_quicksort_scenario` keeps in each iteration, the count it prints
  at the end. When the marking loop starts, `array[0..curr_n)` is sorted with no flag set; the
  loop calls `binary_search_mark(array, curr_n, array[i], flags)` for `i = 0, 2, 4, ...`, and
  `filter_marked_array` keeps the entries whose flag is still 0. A search sets at most one flag,
  so at least `curr_n / 2` entries survive, whatever the values. When the sorted values are
  distinct, the search for `array[i]` returns `i` itself, so exactly the even indices are marked:
  `curr_n / 2` entries survive, and they are the entries at the odd indices. With repeated values
  two searches can mark the same index and more entries survive.
Trusted boundary: none
Main exports: zeroFlags, markEveryOther_zeroFlags_ge, markEveryOther_eq_zero_iff,
  markAndFilter_survivors, markingAt, quicksortScenario_survivors
-/

namespace ForkscanRegistry.Harness

open Sorted

/-- The number of entries of `flags[0..n)` that are 0, the count `filter_marked_array` keeps. -/
def zeroFlags (flags : Int → Int) (n : Nat) : Nat :=
  (List.range n).countP fun i : Nat => flags i = 0

/-- Two tests that agree off one index count alike, up to one, on a list without repeats. -/
theorem countP_le_succ_of_eq_off {p q : Nat → Bool} {r : Nat} (same : ∀ j, j ≠ r → p j = q j) :
    ∀ {l : List Nat}, l.Nodup → l.countP q ≤ l.countP p + 1
  | [], _ => by simp
  | a :: l, nodup => by
      rw [List.nodup_cons] at nodup
      rw [List.countP_cons, List.countP_cons]
      by_cases here : a = r
      · subst here
        have rest : l.countP q = l.countP p :=
          List.countP_congr fun j mem => by rw [same j fun eq => nodup.1 (eq ▸ mem)]
        split_ifs <;> omega
      · have := countP_le_succ_of_eq_off same nodup.2
        rw [same a here]
        split_ifs <;> omega

/-- One `binary_search_mark` sets at most one flag of `flags[0..m)`. -/
theorem zeroFlags_searched_ge {arr : Int → Nat} {n : Int} (nonneg : 0 ≤ n)
    (sorted : SortedOn arr 0 (n - 1)) (target : Nat) (flags : Int → Int) (m : Nat) :
    zeroFlags flags m ≤ zeroFlags (binarySearchMark arr n target flags).2 m + 1 := by
  have post := binarySearchMark_post target flags nonneg sorted
  refine countP_le_succ_of_eq_off (r := (binarySearchMark arr n target flags).1.toNat)
    (fun j other => ?_) (List.nodup_range m)
  rw [post.others j fun same => other (by omega)]

/-- The marking loop sets at most one flag of `flags[0..m)` per iteration, whatever the values. -/
theorem markEveryOther_zeroFlags_ge {arr : Int → Nat} {n : Int} (nonneg : 0 ≤ n)
    (sorted : SortedOn arr 0 (n - 1)) (m : Nat) :
    ∀ (count : Nat) (flags : Int → Int) (i : Int),
      zeroFlags flags m ≤ zeroFlags (markEveryOther arr n count flags i) m + count
  | 0, _, _ => Nat.le_refl _
  | count + 1, flags, i => by
      have step := zeroFlags_searched_ge nonneg sorted (arr i) flags m
      have rest := markEveryOther_zeroFlags_ge nonneg sorted m count
        (binarySearchMark arr n (arr i) flags).2 (i + 2)
      rw [markEveryOther]
      omega

/-- On distinct sorted values, searching for `arr[i]` marks index `i` and nothing else. -/
theorem searched_eq_zero_iff {arr : Int → Nat} {n : Nat} (sorted : SortedOn arr 0 (n - 1))
    (distinct : (segment arr 0 n).Nodup) (flags : Int → Int) {i : Int} (inside : 0 ≤ i ∧ i < n)
    (j : Int) : (binarySearchMark arr n (arr i) flags).2 j = 0 ↔ flags j = 0 ∧ j ≠ i := by
  have post := binarySearchMark_post (arr i) flags (Int.natCast_nonneg n) sorted
  generalize binarySearchMark arr n (arr i) flags = result at post ⊢
  have found := post.found_iff.mpr ⟨i, inside.1, inside.2, rfl⟩
  have atI : result.1 = i := index_unique distinct ⟨found, post.in_range.2⟩ inside (post.hit found)
  by_cases same : j = i
  · rw [same, ← atI]
    by_cases zero : flags result.1 = 0
    · simp [post.marked found zero]
    · simp [post.kept found zero, zero]
  · rw [post.others j fun hit => same (hit.trans atI)]
    simp [same]

/-- On distinct sorted values, the marking loop from `i` sets exactly the flags at
`i, i + 2, ...` that were 0, as long as it reads inside `[0, n)`. -/
theorem markEveryOther_eq_zero_iff {arr : Int → Nat} {n : Nat} (sorted : SortedOn arr 0 (n - 1))
    (distinct : (segment arr 0 n).Nodup) :
    ∀ (count : Nat) (flags : Int → Int) (i : Int), 0 ≤ i → i + 2 * count ≤ n + 1 → ∀ j,
      (markEveryOther arr n count flags i j = 0 ↔
        flags j = 0 ∧ ¬ (i ≤ j ∧ j < i + 2 * count ∧ (j - i) % 2 = 0))
  | 0, flags, i, _, _, j => by
      simp only [markEveryOther]
      exact ⟨fun zero => ⟨zero, by omega⟩, And.left⟩
  | count + 1, flags, i, start, within, j => by
      rw [markEveryOther, markEveryOther_eq_zero_iff sorted distinct count _ (i + 2) (by omega)
        (by omega), searched_eq_zero_iff sorted distinct flags ⟨start, by omega⟩]
      constructor
      · rintro ⟨⟨zero, other⟩, later⟩
        exact ⟨zero, by omega⟩
      · rintro ⟨zero, unread⟩
        exact ⟨⟨zero, by omega⟩, by omega⟩

/-- The odd numbers below `n`, in order. -/
theorem filter_odd_range : ∀ n : Nat,
    (List.range n).filter (fun i => i % 2 = 1) = (List.range (n / 2)).map fun m => 2 * m + 1
  | 0 => rfl
  | n + 1 => by
      rw [List.range_succ, List.filter_append, filter_odd_range n]
      by_cases odd : n % 2 = 1
      · rw [show (n + 1) / 2 = n / 2 + 1 by omega, List.range_succ, List.map_append]
        simp [odd]
        omega
      · rw [show (n + 1) / 2 = n / 2 by omega]
        simp [odd]

/-- On a sorted `array[0..curr_n)` with no flag set, the marking loop and `filter_marked_array`
keep at least `curr_n / 2` entries; on distinct values they keep exactly the `curr_n / 2` entries
at the odd indices, in order. -/
theorem markAndFilter_survivors {s : ScenarioState} (nonneg : 0 ≤ s.currN)
    (sorted : SortedOn s.array 0 (s.currN - 1))
    (cleared : ∀ k, 0 ≤ k → k < s.currN → s.flags k = 0) :
    s.currN / 2 ≤ (markAndFilter s).currN ∧
      ((segment s.array 0 s.currN.toNat).Nodup →
        (markAndFilter s).currN = s.currN / 2 ∧
        segment (markAndFilter s).array 0 (markAndFilter s).currN.toNat =
          (List.range (s.currN.toNat / 2)).map fun m => s.array ((2 * m + 1 : Nat) : Int)) := by
  obtain ⟨array, flags, currN⟩ := s
  obtain ⟨n, rfl⟩ := Int.eq_ofNat_of_zero_le nonneg
  dsimp only at sorted cleared ⊢
  have marking : markedFlags ⟨array, flags, n⟩ =
      markEveryOther array n ((n + 1 : Int) / 2).toNat flags 0 := rfl
  have post := filterMarkedArray_post array n (markedFlags ⟨array, flags, n⟩)
  rw [markAndFilter_eq]
  dsimp only
  rw [Int.toNat_natCast, post.count, marking, Int.toNat_natCast]
  have kept : zeroFlags flags n = n :=
    (List.countP_eq_length.mpr fun k mem => by
      simpa using cleared k (by omega) (by simpa using List.mem_range.mp mem)).trans
      (List.length_range n)
  have marks := markEveryOther_zeroFlags_ge (Int.natCast_nonneg n) sorted n
    ((n + 1 : Int) / 2).toNat flags 0
  refine ⟨?_, fun distinct => ?_⟩
  · change (n : Int) / 2 ≤ (zeroFlags (markEveryOther array n _ flags 0) n : Int)
    omega
  · have odd : ∀ k ∈ List.range n, decide (markEveryOther array n ((n + 1 : Int) / 2).toNat
        flags 0 k = 0) = decide (k % 2 = 1) := fun k mem => by
      have below := List.mem_range.mp mem
      rw [decide_eq_decide, markEveryOther_eq_zero_iff sorted distinct _ flags 0 le_rfl
        (by omega), cleared k (by omega) (by omega)]
      omega
    have survivors : (List.range n).filter (fun k : Nat =>
        markEveryOther array n ((n + 1 : Int) / 2).toNat flags 0 k = 0) =
          (List.range (n / 2)).map fun m => 2 * m + 1 := by
      rw [List.filter_congr odd, filter_odd_range]
    have count : (List.range n).countP (fun k : Nat =>
        markEveryOther array n ((n + 1 : Int) / 2).toNat flags 0 k = 0) = n / 2 := by
      rw [List.countP_eq_length_filter, survivors, List.length_map, List.length_range]
    rw [count, Int.toNat_natCast]
    refine ⟨by omega, ?_⟩
    have keeps := post.kept
    rw [post.count, marking] at keeps
    simp only [Int.toNat_natCast] at keeps
    rw [count, unmarked, survivors, List.map_map] at keeps
    exact keeps

/-- The state when the marking loop of iteration `iter` starts: the batch appended and
`array[0..curr_n)` sorted. The next iteration starts from its `markAndFilter`. -/
def markingAt (garbage : Int → Nat) (initial : Nat → Nat) (batches : Nat → Nat → Nat)
    (iter : Nat) : ScenarioState :=
  appendAndSort (scenarioAt garbage initial batches iter) (batches iter)

/-- In every iteration of `test_quicksort_scenario`, whatever values `rand()` returns, at least
half (rounded down) of the `curr_n` entries in play when the marking loop starts survive to the
next iteration. When those entries are distinct, exactly half survive, and they are the entries at
the odd indices of the sorted array, in order; repeated values can only make more survive. -/
theorem quicksortScenario_survivors (garbage : Int → Nat) (initial : Nat → Nat)
    (batches : Nat → Nat → Nat) (iter : Nat) :
    (markingAt garbage initial batches iter).currN / 2 ≤
        (scenarioAt garbage initial batches (iter + 1)).currN ∧
      ((segment (markingAt garbage initial batches iter).array 0
          (markingAt garbage initial batches iter).currN.toNat).Nodup →
        (scenarioAt garbage initial batches (iter + 1)).currN =
            (markingAt garbage initial batches iter).currN / 2 ∧
          segment (scenarioAt garbage initial batches (iter + 1)).array 0
              (scenarioAt garbage initial batches (iter + 1)).currN.toNat =
            (List.range ((markingAt garbage initial batches iter).currN.toNat / 2)).map fun m =>
              (markingAt garbage initial batches iter).array ((2 * m + 1 : Nat) : Int)) := by
  have inv := scenarioAt_inv garbage initial batches iter
  obtain ⟨-, cleared⟩ := appendAndSort_sortedUnmarked inv.nonneg inv.cleared (batches iter)
  obtain ⟨sorted, -⟩ := quicksort_spec (generateRandomArray
    (scenarioAt garbage initial batches iter).array (scenarioAt garbage initial batches iter).currN
      newPointers (batches iter)) 0
    ((scenarioAt garbage initial batches iter).currN + newPointers - 1) le_rfl
  have grown : 0 ≤ (markingAt garbage initial batches iter).currN := by
    have := inv.nonneg
    simp only [markingAt, appendAndSort_currN]
    unfold newPointers
    omega
  exact markAndFilter_survivors grown sorted cleared

end ForkscanRegistry.Harness
