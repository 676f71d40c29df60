import ForkscanRegistry.Sorted.Sort
import Mathlib.Algebra.Group.Int

/-
Module: ForkscanRegistry.Sorted.Overflow
Layer: Model and proofs
Purpose: The `int` arithmetic of `forkscan_util_sort`. The model computes indices as exact
  integers; the C code computes them in 32-bit `int`, where an operation whose exact result
  leaves `[INT_MIN, INT_MAX]` overflows (undefined behaviour) and any other one computes the exact
  result. `forkscanUtilSortInts` lists, in evaluation order, the exact result of every `int`
  operation the sort performs: `length - 1`; `max - min`, `mid - 1` and `mid + 1` of `quicksort`;
  `min + max`, `/ 2`, `mid++` and `i++` of `partition`; `min + 1`, `i++`, and the `j - 1` of the
  inner condition, of `swap(addrs, j, j - 1)` and of `j--` in `insertion_sort`. A `partition`
  call has `max - min > SORT_THRESHOLD`, so its `min + max` is at most `2 (length - 1) - 17`:
  every result fits for `INT_MIN < length ≤ 2 ^ 30 + 9` (`sortInts_fit`), and for every larger
  length a buffer exists on which the right-hand recursive call's `(min + max) / 2` overflows
  (`forkscanUtilSort_overflows`), where `binary_search_mark`'s `low + (high - low) / 2` would not.
  The contracts of `partition` and of `forkscan_util_sort` are stated on the inputs where no
  result overflows, so that the model computes what the C code computes: `min + max ≤ INT_MAX`
  for `partition`, `INT_MIN < length ≤ 2 ^ 30 + 9` for the sort.
Trusted boundary: none
Main exports: partitionInts, insertionSortInts, quicksortInts, forkscanUtilSortInts, sortInts_fit,
  overflowInput, forkscanUtilSort_overflows, partition_contract, forkscanUtilSort_sorts
-/

namespace ForkscanRegistry.Sorted

/-! ### The `int` results of each function -/

/-- The `int` results of `partition`'s scan from `i` with `count` iterations left: `mid + 1` of the
body's `mid++` when `addrs[i] <= pivot_val`, then `i + 1` of `i++`. -/
def partitionLoopInts (pivotVal : Nat) : Nat → (Int → Nat) → Int → Int → List Int
  | 0, _, _, _ => []
  | count + 1, addrs, i, mid =>
      if addrs i ≤ pivotVal then
        (mid + 1) :: (i + 1) ::
          partitionLoopInts pivotVal count (swap addrs i mid) (i + 1) (mid + 1)
      else (i + 1) :: partitionLoopInts pivotVal count addrs (i + 1) mid

/-- The `int` results of `partition(addrs, min, max)`: `min + max` and its half, then the scan's. -/
def partitionInts (addrs : Int → Nat) (min max : Int) : List Int :=
  let pivot := (min + max).tdiv 2
  (min + max) :: pivot ::
    partitionLoopInts (addrs pivot) (max - min).toNat (swap addrs pivot max) min min

/-- The `int` results of the inner loop of `insertion_sort` from `j`: while `j > min`, the
condition computes `j - 1`; when `addrs[j - 1] > addrs[j]` the body's `swap(addrs, j, j - 1)` and
the `j--` compute it twice more. -/
def insertionInnerInts (min : Int) : Nat → (Int → Nat) → Int → List Int
  | 0, _, _ => []
  | count + 1, addrs, j =>
      if j > min then
        if addrs (j - 1) > addrs j then
          (j - 1) :: (j - 1) :: (j - 1) ::
            insertionInnerInts min count (swap addrs j (j - 1)) (j - 1)
        else [j - 1]
      else []

/-- The `int` results of the outer loop of `insertion_sort` from `i`: the inner loop's, then
`i + 1` of `i++`. -/
def insertionOuterInts (min : Int) : Nat → (Int → Nat) → Int → List Int
  | 0, _, _ => []
  | count + 1, addrs, i =>
      insertionInnerInts min (i - min).toNat addrs i ++ (i + 1) ::
        insertionOuterInts min count (insertionInner min (i - min).toNat addrs i) (i + 1)

/-- The `int` results of `insertion_sort(addrs, min, max)`: `min + 1`, then the loops'. -/
def insertionSortInts (addrs : Int → Nat) (min max : Int) : List Int :=
  (min + 1) :: insertionOuterInts min (max - min).toNat addrs (min + 1)

/-- The `int` results of `quicksort(addrs, min, max)`, following its recursion: `max - min`,
then either `partition`'s, `mid - 1`, the left call's, `mid + 1` and the right call's, or
`insertion_sort`'s. -/
def quicksortInts (addrs : Int → Nat) (min max : Int) : List Int :=
  if _split : max - min > sortThreshold then
    let parted := partition addrs min max
    let left := quicksort parted.1 min (parted.2 - 1)
    (max - min) :: (partitionInts addrs min max ++
      ((parted.2 - 1) :: quicksortInts parted.1 min (parted.2 - 1) ++
        (parted.2 + 1) :: quicksortInts left (parted.2 + 1) max))
  else (max - min) :: insertionSortInts addrs min max
termination_by (max - min).toNat
decreasing_by
  all_goals
    have := partition_mid_mem addrs (show min ≤ max by unfold sortThreshold at _split; omega)
    unfold sortThreshold at _split
    omega

/-- The `int` results of `forkscan_util_sort(a, length)`: `length - 1`, then `quicksort`'s. -/
def forkscanUtilSortInts (a : Int → Nat) (length : Int) : List Int :=
  (length - 1) :: quicksortInts a 0 (length - 1)

/-! ### Where each result lies -/

theorem partitionLoopInts_bounds (pivotVal : Nat) :
    ∀ (count : Nat) (addrs : Int → Nat) (i mid : Int), mid ≤ i →
      ∀ v ∈ partitionLoopInts pivotVal count addrs i mid, mid + 1 ≤ v ∧ v ≤ i + count
  | 0, _, _, _, _, _, absent => by simp [partitionLoopInts] at absent
  | count + 1, addrs, i, mid, behind, v, mem => by
      simp only [partitionLoopInts] at mem
      split_ifs at mem
      · rcases List.mem_cons.mp mem with rfl | mem
        · omega
        rcases List.mem_cons.mp mem with rfl | mem
        · omega
        have := partitionLoopInts_bounds pivotVal count _ (i + 1) (mid + 1) (by omega) v mem
        omega
      · rcases List.mem_cons.mp mem with rfl | mem
        · omega
        have := partitionLoopInts_bounds pivotVal count _ (i + 1) mid (by omega) v mem
        omega

theorem insertionInnerInts_bounds (min : Int) :
    ∀ (count : Nat) (addrs : Int → Nat) (j : Int),
      ∀ v ∈ insertionInnerInts min count addrs j, min ≤ v ∧ v ≤ j - 1
  | 0, _, _, _, absent => by simp [insertionInnerInts] at absent
  | count + 1, addrs, j, v, mem => by
      simp only [insertionInnerInts] at mem
      split_ifs at mem with above
      · simp only [List.mem_cons] at mem
        rcases mem with rfl | rfl | rfl | mem
        · omega
        · omega
        · omega
        · have := insertionInnerInts_bounds min count _ (j - 1) v mem
          omega
      · rw [List.mem_singleton] at mem
        omega
      · simp at mem

theorem insertionOuterInts_bounds (min : Int) :
    ∀ (count : Nat) (addrs : Int → Nat) (i : Int), min ≤ i →
      ∀ v ∈ insertionOuterInts min count addrs i, min ≤ v ∧ v ≤ i + count
  | 0, _, _, _, _, absent => by simp [insertionOuterInts] at absent
  | count + 1, addrs, i, start, v, mem => by
      simp only [insertionOuterInts, List.mem_append, List.mem_cons] at mem
      rcases mem with inner | rfl | rest
      · have := insertionInnerInts_bounds min _ addrs i v inner
        omega
      · omega
      · have := insertionOuterInts_bounds min count _ (i + 1) (by omega) v rest
        omega

theorem insertionSortInts_bounds (addrs : Int → Nat) (min max : Int) :
    ∀ v ∈ insertionSortInts addrs min max, min ≤ v ∧ v ≤ min + 1 + (max - min).toNat := by
  intro v mem
  rcases List.mem_cons.mp mem with rfl | rest
  · omega
  · have := insertionOuterInts_bounds min _ addrs (min + 1) (by omega) v rest
    omega

/-- A `partition` whose `min + max` fits computes nothing else that could overflow: the pivot
and every index of the scan lie in `[min, max]`. -/
theorem partitionInts_fit (addrs : Int → Nat) {min max : Int} (nonneg : 0 ≤ min)
    (ordered : min ≤ max) (sum : min + max ≤ intMax) :
    ∀ v ∈ partitionInts addrs min max, FitsInt v := by
  intro v mem
  have pivot := tdiv_two_mem nonneg ordered
  simp only [partitionInts, List.mem_cons] at mem
  unfold FitsInt intMin
  unfold intMax at sum ⊢
  rcases mem with rfl | rfl | scan
  · omega
  · omega
  · have := partitionLoopInts_bounds _ _ _ min min le_rfl v scan
    omega

/-- Every `int` result of `quicksort(addrs, min, max)` fits when `0 ≤ min ≤ max + 1` and
`max ≤ 2 ^ 30 + 8`: a call that partitions has `max - min > SORT_THRESHOLD`, so
`min + max ≤ 2 max - 17 ≤ INT_MAX`, and every other result lies in `[min - 1, max + 2]`. -/
theorem quicksortInts_fit (addrs : Int → Nat) (min max : Int) (nonneg : 0 ≤ min)
    (reach : min ≤ max + 1) (small : max ≤ 2 ^ 30 + 8) :
    ∀ v ∈ quicksortInts addrs min max, FitsInt v := by
  induction addrs, min, max using quicksortInts.induct with
  | case1 addrs min max split parted left leftIH rightIH =>
      have big : max - min > 16 := split
      have mid := partition_mid_mem addrs (show min ≤ max by omega)
      intro v mem
      rw [quicksortInts, dif_pos split] at mem
      simp only [List.mem_cons, List.mem_append] at mem
      unfold FitsInt intMin intMax
      rcases mem with rfl | part | (rfl | leftMem) | (rfl | rightMem)
      · omega
      · exact partitionInts_fit addrs nonneg (by omega) (by unfold intMax; omega) v part
      · omega
      · exact leftIH nonneg (show min ≤ (partition addrs min max).2 - 1 + 1 by omega)
          (show (partition addrs min max).2 - 1 ≤ 2 ^ 30 + 8 by omega) v leftMem
      · omega
      · exact rightIH (show 0 ≤ (partition addrs min max).2 + 1 by omega)
          (show (partition addrs min max).2 + 1 ≤ max + 1 by omega) small v rightMem
  | case2 addrs min max short =>
      intro v mem
      rw [quicksortInts, dif_neg short] at mem
      unfold FitsInt intMin intMax
      rcases List.mem_cons.mp mem with rfl | sorting
      · omega
      · have := insertionSortInts_bounds addrs min max v sorting
        omega

/-- From `INT_MIN + 1` up to `length = 2 ^ 30 + 9`, no `int` operation of
`forkscan_util_sort(a, length)` overflows, for every buffer. A non-positive length computes only
`length - 1`, the `max - min` of one `quicksort` and the `min + 1` of `insertion_sort`. -/
theorem sortInts_fit (a : Int → Nat) {length : Int} (lower : intMin < length)
    (upper : length ≤ 2 ^ 30 + 9) : ∀ v ∈ forkscanUtilSortInts a length, FitsInt v := by
  intro v mem
  unfold intMin at lower
  rcases List.mem_cons.mp mem with rfl | sorting
  · unfold FitsInt intMin intMax
    omega
  · by_cases nonneg : 0 ≤ length
    · exact quicksortInts_fit a 0 (length - 1) le_rfl (by omega) (by omega) v sorting
    · rw [quicksortInts, dif_neg (by unfold sortThreshold; omega)] at sorting
      unfold FitsInt intMin intMax
      rcases List.mem_cons.mp sorting with rfl | inserting
      · omega
      · have := insertionSortInts_bounds a 0 (length - 1) v inserting
        omega

/-- Up to `length = 2 ^ 30 + 9`, no `int` operation of `forkscan_util_sort(a, length)` overflows,
for every buffer: every `partition` it calls has `0 ≤ min < max ≤ length - 1` and its pivot
`(min + max) / 2` in `[min, max]`, and every result it computes is a value of `int`. -/
theorem forkscanUtilSortInts_fit (a : Int → Nat) (length : Int) (nonneg : 0 ≤ length)
    (small : length ≤ 2 ^ 30 + 9) : ∀ v ∈ forkscanUtilSortInts a length, FitsInt v :=
  sortInts_fit a (by unfold intMin; omega) small

theorem forkscanUtilSortInts_fit_twenty :
    (0 : Int) ≤ 20 ∧ (20 : Int) ≤ 2 ^ 30 + 9 ∧
      ∀ v ∈ forkscanUtilSortInts (fun i => (20 - i).toNat) 20, FitsInt v :=
  ⟨by decide, by decide, forkscanUtilSortInts_fit _ 20 (by decide) (by decide)⟩

/-! ### Beyond `2 ^ 30 + 9` -/

/-- The scan's `mid` advances once for every entry it reads that is at most `pivot_val`: the
scan only swaps index `i` with an index `mid ≤ i`, so the entries it has still to read are the
ones it started with. -/
theorem partitionLoop_mid_eq (pivotVal : Nat) :
    ∀ (count : Nat) (addrs : Int → Nat) (i mid : Int), mid ≤ i →
      (partitionLoop pivotVal count addrs i mid).2 =
        mid + ((List.range count).countP fun j : Nat => addrs (i + j) ≤ pivotVal)
  | 0, _, _, _, _ => by simp [partitionLoop]
  | count + 1, addrs, i, mid, behind => by
      have ahead : ∀ b : Int → Nat, (∀ k, i < k → b k = addrs k) →
          ((List.range count).countP fun j : Nat => b (i + 1 + j) ≤ pivotVal) =
            (List.range count).countP fun j : Nat => addrs (i + ↑(j + 1)) ≤ pivotVal :=
        fun b same => List.countP_congr fun j _ => by
          rw [same _ (by omega), show i + 1 + (j : Int) = i + ↑(j + 1) by push_cast; omega]
      rw [List.range_succ_eq_map, List.countP_cons, List.countP_map]
      by_cases small : addrs i ≤ pivotVal
      · rw [partitionLoop, if_pos small,
          partitionLoop_mid_eq pivotVal count _ (i + 1) (mid + 1) (by omega),
          ahead _ fun k after => swap_apply_of_ne (by omega) (by omega)]
        simp only [Int.natCast_add, Int.Nat.cast_ofNat_Int, Function.comp_def, Nat.succ_eq_add_one,
          Int.add_zero, small, decide_True, ↓reduceIte]
        omega
      · rw [partitionLoop, if_neg small,
          partitionLoop_mid_eq pivotVal count _ (i + 1) mid (by omega), ahead _ fun _ _ => rfl]
        simp [small, Function.comp_def]

theorem countP_range_lt (n c : Nat) : ((List.range n).countP fun j => j < c) = min n c := by
  induction n with
  | zero => simp
  | succ n ih =>
      rw [List.range_succ, List.countP_append, ih, List.countP_singleton]
      by_cases below : n < c
      · rw [if_pos (decide_eq_true below)]; omega
      · rw [if_neg (by simpa using below)]; omega

/-- A buffer of `length` entries on which `forkscan_util_sort` overflows when
`length ≥ 2 ^ 30 + 10`: 1 at the 18 indices `length - 19 .. length - 2`, 0 everywhere else. -/
def overflowInput (length : Int) (i : Int) : Nat :=
  if length - 19 ≤ i ∧ i < length - 1 then 1 else 0

/-- Before the scan of the first `partition`, with the pivot `p` among the zeros swapped to
`length - 1`, an index `j < length - 1` holds 0 exactly when `j < length - 19`: the pivot's slot
now holds `a[length - 1] = 0`. -/
theorem overflowInput_start {length p j : Int} (pivot : p < length - 19) (below : j < length - 1) :
    swap (overflowInput length) p (length - 1) j ≤ 0 ↔ j < length - 19 := by
  by_cases atPivot : j = p
  · rw [atPivot, swap_apply_left]
    unfold overflowInput
    split_ifs <;> omega
  · rw [swap_apply_of_ne atPivot (by omega)]
    unfold overflowInput
    split_ifs <;> omega

/-- The first `partition` of `forkscan_util_sort(overflowInput length, length)` keeps the
`length - 19` zeros in front: its pivot is 0 and the 18 ones are larger. -/
theorem partition_overflowInput {length : Int} (large : 2 ^ 30 + 10 ≤ length) :
    (partition (overflowInput length) 0 (length - 1)).2 = length - 19 := by
  have pivotBelow : ((0 : Int) + (length - 1)).tdiv 2 < length - 19 := by
    rw [Int.tdiv_eq_ediv (by omega) (by omega)]
    omega
  have pivotVal : overflowInput length ((0 + (length - 1)).tdiv 2) = 0 := by
    unfold overflowInput
    split_ifs <;> omega
  have zeros : ((List.range (length - 1 - 0).toNat).countP fun j : Nat =>
      swap (overflowInput length) ((0 + (length - 1)).tdiv 2) (length - 1) (0 + j) ≤ 0) =
        (List.range (length - 1 - 0).toNat).countP fun j : Nat => j < (length - 19).toNat :=
    List.countP_congr fun j mem => by
      have := List.mem_range.mp mem
      rw [decide_eq_true_eq, decide_eq_true_eq, overflowInput_start pivotBelow (by omega)]
      omega
  simp only [partition, pivotVal]
  rw [partitionLoop_mid_eq _ _ _ _ _ le_rfl, zeros, countP_range_lt]
  omega

/-- A `quicksort` call that partitions computes its `partition`'s `min + max`. -/
theorem sum_mem_quicksortInts {addrs : Int → Nat} {min max : Int}
    (split : max - min > sortThreshold) : min + max ∈ quicksortInts addrs min max := by
  rw [quicksortInts, dif_pos split]
  simp [partitionInts]

/-- A `quicksort` call that partitions computes all that its right-hand recursive call does. -/
theorem mem_quicksortInts_right {addrs : Int → Nat} {min max v : Int}
    (split : max - min > sortThreshold)
    (mem : v ∈ quicksortInts (quicksort (partition addrs min max).1 min
      ((partition addrs min max).2 - 1)) ((partition addrs min max).2 + 1) max) :
    v ∈ quicksortInts addrs min max := by
  rw [quicksortInts, dif_pos split]
  simp [mem]

/-- For every `length ≥ 2 ^ 30 + 10`, `forkscan_util_sort(overflowInput length, length)`
overflows: the first `partition` returns `mid = length - 19`, so `quicksort` recurses on
`[length - 18, length - 1]`, a range of 18 entries that it partitions, and that `partition`
computes `min + max = 2 (length - 1) - 17`, beyond `INT_MAX`. -/
theorem forkscanUtilSort_overflows (length : Int) (large : 2 ^ 30 + 10 ≤ length) :
    (partition (overflowInput length) 0 (length - 1)).2 = length - 19 ∧
      2 * (length - 1) - 17 ∈ forkscanUtilSortInts (overflowInput length) length ∧
      ¬ FitsInt (2 * (length - 1) - 17) := by
  have mid := partition_overflowInput large
  refine ⟨mid, List.mem_cons_of_mem _ ?_, ?_⟩
  · refine mem_quicksortInts_right (show length - 1 - 0 > 16 by omega) ?_
    rw [mid, show 2 * (length - 1) - 17 = length - 19 + 1 + (length - 1) by omega]
    exact sum_mem_quicksortInts (show length - 1 - (length - 19 + 1) > 16 by omega)
  · unfold FitsInt intMin intMax
    omega

/-- At `length = INT_MAX`. -/
theorem forkscanUtilSort_overflows_intMax :
    2 ^ 30 + 10 ≤ intMax ∧
      2 * (intMax - 1) - 17 ∈ forkscanUtilSortInts (overflowInput intMax) intMax ∧
      ¬ FitsInt (2 * (intMax - 1) - 17) :=
  ⟨by decide, (forkscanUtilSort_overflows intMax (by decide)).2⟩

/-! ### The contracts on the inputs the C code defines -/

/-- `forkscan_util_sort(a, length)` for `INT_MIN < length ≤ 2 ^ 30 + 9`, where no `int` it
computes overflows: it leaves `a[0..length)` a non-decreasing permutation of its original contents
and every entry outside it unchanged (a non-positive length sorts nothing). The recursion is well
founded because `partition` returns `mid` in `[min, max]`, and a range of at most
`SORT_THRESHOLD + 1` entries goes to `insertion_sort`, which sorts it. -/
theorem forkscanUtilSort_sorts (a : Int → Nat) (length : Int) (lower : intMin < length)
    (upper : length ≤ 2 ^ 30 + 9) :
    (∀ v ∈ forkscanUtilSortInts a length, FitsInt v) ∧
      (segment (forkscanUtilSort a length) 0 length.toNat).Sorted (· ≤ ·) ∧
      (segment (forkscanUtilSort a length) 0 length.toNat).Perm (segment a 0 length.toNat) ∧
      (∀ i, i < 0 ∨ length ≤ i → forkscanUtilSort a length i = a i) ∧
      (∀ (addrs : Int → Nat) (min max : Int), min ≤ max →
        min ≤ (partition addrs min max).2 ∧ (partition addrs min max).2 ≤ max) ∧
      (∀ (addrs : Int → Nat) (min max : Int), max - min ≤ sortThreshold →
        quicksort addrs min max = insertionSort addrs min max ∧
          SortedOn (quicksort addrs min max) min max ∧
          PermOn min max addrs (quicksort addrs min max)) := by
  obtain ⟨sorted, perm⟩ := quicksort_spec a 0 (length - 1) le_rfl
  have span : (length - 1 - 0 + 1).toNat = length.toNat := by omega
  refine ⟨sortInts_fit a lower upper, SortedOn.sorted_segment fun p lo hi => sorted p lo (by omega),
    span ▸ perm.perm_segment, fun i out => perm.apply_of_out (by omega),
    fun addrs _ _ => partition_mid_mem addrs, fun addrs min max short => ?_⟩
  have delegated : quicksort addrs min max = insertionSort addrs min max := by
    rw [quicksort, dif_neg (not_lt.mpr short)]
  rw [delegated]
  exact ⟨rfl, insertionSort_spec addrs min max⟩

theorem forkscanUtilSort_sorts_partition :
    intMin < 20 ∧ (20 : Int) ≤ 2 ^ 30 + 9 ∧ 0 ≤ (partition (fun i => (20 - i).toNat) 0 20).2 ∧
      (partition (fun i => (20 - i).toNat) 0 20).2 ≤ 20 :=
  ⟨by decide, by decide,
    (forkscanUtilSort_sorts (fun i => (20 - i).toNat) 20 (by decide) (by decide)).2.2.2.2.1 _ 0 20
      (by decide)⟩

end ForkscanRegistry.Sorted
