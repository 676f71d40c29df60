import ForkscanRegistry.Sorted.Buffer

/-
Module: ForkscanRegistry.Sorted.Sort
Layer: Model and proofs
Purpose: `forkscan_util_sort` of `sort_test.c`: a quicksort with the middle element as pivot
  (`partition`, Lomuto's scheme) that hands ranges of at most `SORT_THRESHOLD + 1` entries to
  `insertion_sort`. Each `for` loop is a recursion on its remaining iteration count, so the
  loops compute in the kernel; `quicksort` recurses on the two sides of the pivot and terminates
  because `partition` returns `mid` inside `[min, max]` (`partition_mid_mem`), which is the
  measure argument of its definition. Correctness is one invariant per loop (`ScanInv` for the
  partition scan, `InsertInv` for the inner insertion loop) and one induction along `quicksort`'s
  own recursion.
  Indices are mathematical integers. `Sorted.Overflow` lists every `int` result of the sort:
  for `length ≤ 2 ^ 30 + 9` none overflows, so on those inputs the model computes what the C
  code computes, and for every larger length some buffer makes `(min + max) / 2` overflow; the
  contracts of `partition` and `forkscan_util_sort` are stated there, on the inputs where the C
  code's arithmetic is defined.
Trusted boundary: none
Main exports: partition, insertionSort, quicksort, forkscanUtilSort, partition_spec,
  insertionSort_spec, quicksort_spec
-/

namespace ForkscanRegistry.Sorted

/-- `SORT_THRESHOLD`. -/
def sortThreshold : Int := 16

/-- The scan of `partition`:
`for (int i = min; i < max; i++) if (addrs[i] <= pivot_val) { swap(addrs, i, mid); mid++; }`,
run for its remaining `count` iterations from index `i`; returns the buffer and `mid`. -/
def partitionLoop (pivotVal : Nat) : Nat → (Int → Nat) → Int → Int → (Int → Nat) × Int
  | 0, addrs, _, mid => (addrs, mid)
  | count + 1, addrs, i, mid =>
      if addrs i ≤ pivotVal then partitionLoop pivotVal count (swap addrs i mid) (i + 1) (mid + 1)
      else partitionLoop pivotVal count addrs (i + 1) mid

/-- `partition(addrs, min, max)`: move the middle entry to `max`, scan `[min, max)` keeping the
entries `≤ pivot_val` in front of `mid`, and swap the pivot into `mid`. C's `/` on `int`
truncates, which is `Int.tdiv`. -/
def partition (addrs : Int → Nat) (min max : Int) : (Int → Nat) × Int :=
  let pivot := (min + max).tdiv 2
  let pivotVal := addrs pivot
  let scanned := partitionLoop pivotVal (max - min).toNat (swap addrs pivot max) min min
  (swap scanned.1 scanned.2 max, scanned.2)

/-- The inner loop of `insertion_sort`:
`for (int j = i; j > min && addrs[j - 1] > addrs[j]; j--) swap(addrs, j, j - 1);`, with `count`
bounding its iterations (`j` cannot pass `min`). -/
def insertionInner (min : Int) : Nat → (Int → Nat) → Int → (Int → Nat)
  | 0, addrs, _ => addrs
  | count + 1, addrs, j =>
      if j > min ∧ addrs (j - 1) > addrs j then
        insertionInner min count (swap addrs j (j - 1)) (j - 1)
      else addrs

/-- The outer loop of `insertion_sort`, `for (int i = min + 1; i <= max; i++)`, run for its
remaining `count` iterations from `i`. -/
def insertionOuter (min : Int) : Nat → (Int → Nat) → Int → (Int → Nat)
  | 0, addrs, _ => addrs
  | count + 1, addrs, i =>
      insertionOuter min count (insertionInner min (i - min).toNat addrs i) (i + 1)

/-- `insertion_sort(addrs, min, max)`. -/
def insertionSort (addrs : Int → Nat) (min max : Int) : Int → Nat :=
  insertionOuter min (max - min).toNat addrs (min + 1)

theorem partitionLoop_mid_bounds (pivotVal : Nat) :
    ∀ (count : Nat) (addrs : Int → Nat) (i mid : Int),
      mid ≤ (partitionLoop pivotVal count addrs i mid).2 ∧
        (partitionLoop pivotVal count addrs i mid).2 ≤ mid + count
  | 0, _, _, _ => by simp [partitionLoop]
  | count + 1, addrs, i, mid => by
      have next := partitionLoop_mid_bounds pivotVal count
      simp only [partitionLoop]
      split_ifs
      · have := next (swap addrs i mid) (i + 1) (mid + 1); omega
      · have := next addrs (i + 1) mid; omega

/-- `partition` returns `mid` in `[min, max]`: the reason `quicksort` terminates. -/
theorem partition_mid_mem (addrs : Int → Nat) {min max : Int} (ordered : min ≤ max) :
    min ≤ (partition addrs min max).2 ∧ (partition addrs min max).2 ≤ max := by
  have := partitionLoop_mid_bounds (addrs ((min + max).tdiv 2)) (max - min).toNat
    (swap addrs ((min + max).tdiv 2) max) min min
  simp only [partition]
  omega

/-! ### The partition scan -/

/-- The scan's invariant before index `i`: `[min, mid)` holds entries `≤ pivotVal`, `[mid, i)`
entries `> pivotVal`, and the buffer is `start` permuted inside `[min, max - 1]`, so the pivot
parked at `max` stays there. -/
structure ScanInv (start : Int → Nat) (min max : Int) (pivotVal : Nat) (addrs : Int → Nat)
    (i mid : Int) : Prop where
  mid_ge : min ≤ mid
  mid_le : mid ≤ i
  low : ∀ k, min ≤ k → k < mid → addrs k ≤ pivotVal
  high : ∀ k, mid ≤ k → k < i → pivotVal < addrs k
  perm : PermOn min (max - 1) start addrs

namespace ScanInv

variable {start addrs : Int → Nat} {min max i mid : Int} {pivotVal : Nat}

theorem init (start : Int → Nat) (min max : Int) (pivotVal : Nat) :
    ScanInv start min max pivotVal start min min :=
  ⟨le_rfl, le_rfl, fun _ _ _ => by omega, fun _ _ _ => by omega, PermOn.refl _ _ _⟩

/-- An entry `≤ pivot_val` is swapped to `mid`, and the first large entry moves to `i`. -/
theorem step_le (inv : ScanInv start min max pivotVal addrs i mid) (before : i < max)
    (small : addrs i ≤ pivotVal) :
    ScanInv start min max pivotVal (swap addrs i mid) (i + 1) (mid + 1) where
  mid_ge := by have := inv.mid_ge; omega
  mid_le := by have := inv.mid_le; omega
  low k lo hi := by
    by_cases same : k = mid
    · rwa [same, swap_apply_right]
    · rw [swap_apply_of_ne (by have := inv.mid_le; omega) same]
      exact inv.low k lo (by omega)
  high k lo hi := by
    by_cases same : k = i
    · rw [same, swap_apply_left]
      exact inv.high mid le_rfl (by omega)
    · rw [swap_apply_of_ne same (by omega)]
      exact inv.high k (by omega) (by omega)
  perm := by
    have := inv.mid_ge; have := inv.mid_le
    exact inv.perm.trans (PermOn.of_swap ⟨by omega, by omega⟩ ⟨by omega, by omega⟩)

/-- An entry `> pivot_val` stays where it is. -/
theorem step_gt (inv : ScanInv start min max pivotVal addrs i mid) (large : pivotVal < addrs i) :
    ScanInv start min max pivotVal addrs (i + 1) mid where
  mid_ge := inv.mid_ge
  mid_le := by have := inv.mid_le; omega
  low := inv.low
  high k lo hi := by
    by_cases same : k = i
    · rwa [same]
    · exact inv.high k lo (by omega)
  perm := inv.perm

end ScanInv

/-- The whole scan keeps the invariant, up to `i = max`. -/
theorem partitionLoop_inv {start : Int → Nat} {min max : Int} {pivotVal : Nat} :
    ∀ (count : Nat) {addrs : Int → Nat} {i mid : Int},
      ScanInv start min max pivotVal addrs i mid → i + count = max →
      ScanInv start min max pivotVal (partitionLoop pivotVal count addrs i mid).1 max
        (partitionLoop pivotVal count addrs i mid).2
  | 0, addrs, i, mid, inv, last => by
      obtain rfl : i = max := by omega
      exact inv
  | count + 1, addrs, i, mid, inv, last => by
      unfold partitionLoop
      split_ifs with small
      · exact partitionLoop_inv count (inv.step_le (by omega) small) (by omega)
      · exact partitionLoop_inv count (inv.step_gt (Nat.lt_of_not_le small)) (by omega)

/-- What `partition(addrs, min, max)` guarantees: `mid` in `[min, max]`, the range permuted and
nothing outside it touched, the original middle entry at `mid`, entries `≤` it before `mid` and
entries `>` it after. -/
structure PartPost (addrs : Int → Nat) (min max : Int) (result : Int → Nat) (mid : Int) : Prop where
  mid_ge : min ≤ mid
  mid_le : mid ≤ max
  perm : PermOn min max addrs result
  pivot : result mid = addrs ((min + max).tdiv 2)
  low : ∀ k, min ≤ k → k < mid → result k ≤ result mid
  high : ∀ k, mid < k → k ≤ max → result mid < result k

/-- The middle index of a non-negative range lies in it. -/
theorem tdiv_two_mem {min max : Int} (nonneg : 0 ≤ min) (ordered : min ≤ max) :
    min ≤ (min + max).tdiv 2 ∧ (min + max).tdiv 2 ≤ max := by
  rw [Int.tdiv_eq_ediv (by omega) (by omega)]
  omega

theorem partition_spec (addrs : Int → Nat) (min max : Int) (nonneg : 0 ≤ min)
    (ordered : min < max) :
    PartPost addrs min max (partition addrs min max).1 (partition addrs min max).2 := by
  obtain ⟨pivotGe, pivotLe⟩ := tdiv_two_mem nonneg ordered.le
  simp only [partition]
  set pivot := (min + max).tdiv 2
  set start := swap addrs pivot max
  set scanned := partitionLoop (addrs pivot) (max - min).toNat start min min
  have inv : ScanInv start min max (addrs pivot) scanned.1 max scanned.2 :=
    partitionLoop_inv _ (ScanInv.init start min max (addrs pivot)) (by omega)
  have midGe := inv.mid_ge
  have midLe := inv.mid_le
  have parked : scanned.1 max = addrs pivot := by
    rw [inv.perm.apply_of_out (by omega)]
    exact swap_apply_right addrs pivot max
  have atMid : swap scanned.1 scanned.2 max scanned.2 = addrs pivot := by
    rw [swap_apply_left, parked]
  refine ⟨midGe, midLe, ?_, atMid, ?_, ?_⟩
  · exact ((PermOn.of_swap ⟨pivotGe, pivotLe⟩ ⟨ordered.le, le_rfl⟩).trans
      (inv.perm.widen le_rfl (by omega))).trans (PermOn.of_swap ⟨midGe, midLe⟩ ⟨ordered.le, le_rfl⟩)
  · intro k lo hi
    show swap scanned.1 scanned.2 max k ≤ swap scanned.1 scanned.2 max scanned.2
    rw [atMid, swap_apply_of_ne (by omega) (by omega)]
    exact inv.low k lo hi
  · intro k lo hi
    show swap scanned.1 scanned.2 max scanned.2 < swap scanned.1 scanned.2 max k
    rw [atMid]
    by_cases last : k = max
    · rw [last, swap_apply_right]
      exact inv.high _ le_rfl (by omega)
    · rw [swap_apply_of_ne (by omega) last]
      exact inv.high k (by omega) (by omega)

/-! ### insertion_sort -/

/-- The inner loop's invariant at `j` while `addrs[i]` sinks into place: `[min, j - 1]` and
`[j, i]` are sorted, and the entry left of `j` is no larger than the one right of it, so the
whole range is sorted once the sinking entry stops. -/
structure InsertInv (addrs : Int → Nat) (min i j : Int) : Prop where
  front : SortedOn addrs min (j - 1)
  back : SortedOn addrs j i
  bridge : min < j → j < i → addrs (j - 1) ≤ addrs (j + 1)

namespace InsertInv

variable {addrs : Int → Nat} {min i j : Int}

/-- One iteration, `swap(addrs, j, j - 1)`, moves the sinking entry one place left. -/
theorem step (inv : InsertInv addrs min i j) (above : min < j) (inside : j ≤ i)
    (descend : addrs j < addrs (j - 1)) : InsertInv (swap addrs j (j - 1)) min i (j - 1) where
  front p lo hi := by
    rw [swap_apply_of_ne (by omega) (by omega), swap_apply_of_ne (by omega) (by omega)]
    exact inv.front p lo (by omega)
  back p lo hi := by
    rcases lt_trichotomy p j with below | rfl | beyond
    · obtain rfl : p = j - 1 := by omega
      rw [Int.sub_add_cancel, swap_apply_left, swap_apply_right]
      exact descend.le
    · rw [swap_apply_left, swap_apply_of_ne (by omega) (by omega)]
      exact inv.bridge above hi
    · rw [swap_apply_of_ne (by omega) (by omega), swap_apply_of_ne (by omega) (by omega)]
      exact inv.back p (by omega) hi
  bridge lo hi := by
    rw [Int.sub_add_cancel, swap_apply_left, swap_apply_of_ne (by omega) (by omega)]
    exact inv.front (j - 1 - 1) (by omega) (by omega) |>.trans_eq (congrArg addrs (by omega))

/-- When the sinking entry stops, or reaches `min`, `[min, i]` is sorted. -/
theorem sorted (inv : InsertInv addrs min i j) (stop : min < j → addrs (j - 1) ≤ addrs j) :
    SortedOn addrs min i := by
  intro p lo hi
  rcases lt_trichotomy p (j - 1) with below | rfl | beyond
  · exact inv.front p lo below
  · rw [Int.sub_add_cancel]
    exact stop (by omega)
  · exact inv.back p (by omega) hi

end InsertInv

/-- The inner loop, started at `j = min + count`, sorts `[min, i]` by permuting it. -/
theorem insertionInner_spec {min i : Int} : ∀ (count : Nat) (addrs : Int → Nat) (j : Int),
    j = min + count → j ≤ i → InsertInv addrs min i j →
    SortedOn (insertionInner min count addrs j) min i ∧
      PermOn min i addrs (insertionInner min count addrs j)
  | 0, addrs, j, start, _, inv => ⟨inv.sorted fun above => by omega, PermOn.refl _ _ _⟩
  | count + 1, addrs, j, start, inside, inv => by
      unfold insertionInner
      split_ifs with descend
      · obtain ⟨sorted, perm⟩ := insertionInner_spec count (swap addrs j (j - 1)) (j - 1)
          (by omega) (by omega) (inv.step descend.1 inside descend.2)
        exact ⟨sorted, (PermOn.of_swap ⟨by omega, inside⟩ ⟨by omega, by omega⟩).trans perm⟩
      · exact ⟨inv.sorted fun above => not_lt.mp fun gt => descend ⟨above, gt⟩, PermOn.refl _ _ _⟩

/-- The outer loop from `i`, with `[min, i - 1]` already sorted, sorts `[min, max]`. -/
theorem insertionOuter_spec (min max : Int) : ∀ (count : Nat) (addrs : Int → Nat) (i : Int),
    i + count = max + 1 → min < i → SortedOn addrs min (i - 1) →
    SortedOn (insertionOuter min count addrs i) min max ∧
      PermOn min max addrs (insertionOuter min count addrs i)
  | 0, addrs, i, last, _, sorted => by
      obtain rfl : max = i - 1 := by omega
      exact ⟨sorted, PermOn.refl _ _ _⟩
  | count + 1, addrs, i, last, above, sorted => by
      rw [insertionOuter]
      obtain ⟨sortedI, permI⟩ := insertionInner_spec (i - min).toNat addrs i (by omega) le_rfl
        ⟨sorted, fun _ _ _ => by omega, fun _ beyond => by omega⟩
      obtain ⟨sortedAll, permAll⟩ := insertionOuter_spec min max count
        (insertionInner min (i - min).toNat addrs i) (i + 1) (by omega) (by omega)
        (by rwa [Int.add_sub_cancel])
      exact ⟨sortedAll, (permI.widen le_rfl (by omega)).trans permAll⟩

/-- `insertion_sort(addrs, min, max)` sorts `[min, max]` by permuting it. -/
theorem insertionSort_spec (addrs : Int → Nat) (min max : Int) :
    SortedOn (insertionSort addrs min max) min max ∧
      PermOn min max addrs (insertionSort addrs min max) := by
  unfold insertionSort
  by_cases ordered : min ≤ max
  · exact insertionOuter_spec min max _ addrs _ (by omega) (by omega) fun _ _ _ => by omega
  · rw [show (max - min).toNat = 0 by omega]
    exact ⟨fun _ _ _ => by omega, PermOn.refl _ _ _⟩

/-- `quicksort(addrs, min, max)`: ranges longer than `SORT_THRESHOLD + 1` are partitioned and
both sides sorted, the left first; shorter ones go to `insertion_sort`. -/
def quicksort (addrs : Int → Nat) (min max : Int) : Int → Nat :=
  if split : max - min > sortThreshold then
    let parted := partition addrs min max
    let left := quicksort parted.1 min (parted.2 - 1)
    quicksort left (parted.2 + 1) max
  else insertionSort addrs min max
termination_by (max - min).toNat
decreasing_by
  all_goals
    have := partition_mid_mem addrs (show min ≤ max by unfold sortThreshold at split; omega)
    unfold sortThreshold at split
    omega

/-! ### quicksort -/

/-- A partition followed by sorting both sides in place sorts the whole range: the left side
stays below the pivot and the right side above it, whatever order the recursion leaves them in. -/
theorem sorted_of_partition {addrs parted left right : Int → Nat} {min max mid : Int}
    (part : PartPost addrs min max parted mid)
    (leftSorted : SortedOn left min (mid - 1)) (leftPerm : PermOn min (mid - 1) parted left)
    (rightSorted : SortedOn right (mid + 1) max) (rightPerm : PermOn (mid + 1) max left right) :
    SortedOn right min max ∧ PermOn min max addrs right := by
  have midGe := part.mid_ge
  have midLe := part.mid_le
  have pivotKept : right mid = parted mid := by
    rw [rightPerm.apply_of_out (by omega), leftPerm.apply_of_out (by omega)]
  have lowBound : ∀ k, min ≤ k → k ≤ mid - 1 → left k ≤ parted mid :=
    leftPerm.forall_range (· ≤ parted mid) fun k lo hi => part.low k lo (by omega)
  have highBound : ∀ k, mid + 1 ≤ k → k ≤ max → parted mid < right k :=
    rightPerm.forall_range (parted mid < ·) fun k lo hi => by
      rw [leftPerm.apply_of_out (by omega)]
      exact part.high k (by omega) hi
  refine ⟨fun p lo hi => ?_, part.perm.trans
    ((leftPerm.widen le_rfl (by omega)).trans (rightPerm.widen (by omega) le_rfl))⟩
  rcases lt_trichotomy p (mid - 1) with below | rfl | beyond
  · rw [rightPerm.apply_of_out (by omega), rightPerm.apply_of_out (by omega)]
    exact leftSorted p lo below
  · rw [Int.sub_add_cancel, pivotKept, rightPerm.apply_of_out (by omega)]
    exact lowBound _ lo le_rfl
  · rcases eq_or_lt_of_le (show mid ≤ p by omega) with rfl | beyond
    · rw [pivotKept]
      exact (highBound _ le_rfl (by omega)).le
    · exact rightSorted p (by omega) hi

/-- `quicksort(addrs, min, max)` sorts `[min, max]` by permuting it, for every `min ≥ 0`. -/
theorem quicksort_spec (addrs : Int → Nat) (min max : Int) (nonneg : 0 ≤ min) :
    SortedOn (quicksort addrs min max) min max ∧
      PermOn min max addrs (quicksort addrs min max) := by
  induction addrs, min, max using quicksort.induct with
  | case1 addrs min max split parted left leftIH _ rightIH =>
      have part := partition_spec addrs min max nonneg (by unfold sortThreshold at split; omega)
      obtain ⟨leftSorted, leftPerm⟩ := leftIH nonneg
      obtain ⟨rightSorted, rightPerm⟩ := rightIH (show 0 ≤ (partition addrs min max).2 + 1 by
        have := part.mid_ge; omega)
      rw [quicksort, dif_pos split]
      exact sorted_of_partition part leftSorted leftPerm rightSorted rightPerm
  | case2 addrs min max short =>
      rw [quicksort, dif_neg short]
      exact insertionSort_spec addrs min max

/-- `forkscan_util_sort(a, length)`. -/
def forkscanUtilSort (a : Int → Nat) (length : Int) : Int → Nat :=
  quicksort a 0 (length - 1)

end ForkscanRegistry.Sorted
