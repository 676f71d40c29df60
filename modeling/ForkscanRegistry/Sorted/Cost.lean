import ForkscanRegistry.Sorted.Overflow
import ForkscanRegistry.Sorted.Search
import Mathlib.Data.Nat.Log
import Mathlib.Algebra.Group.Nat.Basic

/-
Module: ForkscanRegistry.Sorted.Cost
Layer: Model and proofs
Purpose: How much work the recursion and the loops of `sort_test.c` do, for every input.
  `quicksort`: `partition` is Lomuto's scheme with the test `addrs[i] <= pivot_val`, so every
  entry equal to the pivot goes to its left. On a range of equal values it returns `max`, and each
  frame hands its caller's range less one entry to the next. That is the worst case: for every
  array, `forkscan_util_sort(a, length)` nests at most `max(1, length - 16)` `quicksort` frames,
  and exactly that many whenever the values are all equal, so the depth is linear in `length`, not
  logarithmic. `binary_search_mark`: a pass that misses leaves at most half of `[low, high]`,
  sorted or not, so the loop makes at most `⌊log₂ n⌋ + 1` passes; a target above every entry
  takes exactly that many. Both counts are stated where the C code's `int` arithmetic is defined:
  `INT_MIN < length ≤ 2 ^ 30 + 9` for the sort, `INT_MIN < n ≤ INT_MAX` for the search.
Trusted boundary: none
Main exports: quicksortDepth, forkscanUtilSortDepth, quicksortDepth_le, quicksortDepth_const,
  forkscanUtilSort_depth, searchProbes, binarySearchMarkProbes, searchProbes_le,
  searchProbes_above, binarySearchMark_probes
-/

namespace ForkscanRegistry.Sorted

/-- The number of `quicksort` frames live at once at the deepest point of
`quicksort(addrs, min, max)`: the call itself and, when it partitions, the deeper of its two
recursive calls, the second of which runs on the array the first leaves. The `insertion_sort`
call of a leaf is not counted. -/
def quicksortDepth (addrs : Int → Nat) (min max : Int) : Nat :=
  if split : max - min > sortThreshold then
    let parted := partition addrs min max
    let left := quicksort parted.1 min (parted.2 - 1)
    1 + Nat.max (quicksortDepth parted.1 min (parted.2 - 1))
      (quicksortDepth left (parted.2 + 1) max)
  else 1
termination_by (max - min).toNat
decreasing_by
  all_goals
    have := partition_mid_mem addrs (show min ≤ max by unfold sortThreshold at split; omega)
    unfold sortThreshold at split
    omega

/-- The depth of `forkscan_util_sort(a, length)`, which calls `quicksort(a, 0, length - 1)`. -/
def forkscanUtilSortDepth (a : Int → Nat) (length : Int) : Nat := quicksortDepth a 0 (length - 1)

/-- The depth bound `max(1, max - min - 15)` for the range `[min, max]`. -/
def depthBound (min max : Int) : Nat := Nat.max 1 (max - min - 15).toNat

theorem depthBound_of_le {min max : Int} (short : max - min ≤ sortThreshold) :
    depthBound min max = 1 := by
  unfold sortThreshold at short
  simp only [depthBound, Nat.max_def]
  split_ifs <;> omega

theorem depthBound_of_gt {min max : Int} (long : max - min > sortThreshold) :
    depthBound min max = (max - min - 15).toNat := by
  unfold sortThreshold at long
  simp only [depthBound, Nat.max_def]
  split_ifs <;> omega

theorem one_le_depthBound (min max : Int) : 1 ≤ depthBound min max := Nat.le_max_left _ _

/-- A range shorter than one that partitions has a smaller bound. -/
theorem depthBound_lt {min max min' max' : Int} (long : max - min > sortThreshold)
    (shorter : max' - min' < max - min) : depthBound min' max' < depthBound min max := by
  rw [depthBound_of_gt long]
  unfold sortThreshold at long
  simp only [depthBound, Nat.max_def]
  split_ifs <;> omega

/-- Dropping the last entry of a range that partitions lowers the bound by one. -/
theorem depthBound_pred {min max : Int} (long : max - min > sortThreshold) :
    depthBound min (max - 1) + 1 = depthBound min max := by
  rw [depthBound_of_gt long]
  unfold sortThreshold at long
  simp only [depthBound, Nat.max_def]
  split_ifs <;> omega

/-- No run of `quicksort` nests more than `max(1, max - min - 15)` frames. -/
theorem quicksortDepth_le (addrs : Int → Nat) (min max : Int) :
    quicksortDepth addrs min max ≤ depthBound min max := by
  induction addrs, min, max using quicksortDepth.induct with
  | case1 addrs min max split parted left leftIH rightIH =>
      have mem : min ≤ parted.2 ∧ parted.2 ≤ max :=
        partition_mid_mem addrs (show min ≤ max by unfold sortThreshold at split; omega)
      rw [quicksortDepth, dif_pos split]
      show 1 + Nat.max (quicksortDepth parted.1 min (parted.2 - 1))
        (quicksortDepth left (parted.2 + 1) max) ≤ _
      have deeper : Nat.max (quicksortDepth parted.1 min (parted.2 - 1))
          (quicksortDepth left (parted.2 + 1) max) < depthBound min max :=
        Nat.max_lt.mpr ⟨leftIH.trans_lt (depthBound_lt split (by omega)),
          rightIH.trans_lt (depthBound_lt split (by omega))⟩
      omega
  | case2 addrs min max split =>
      rw [quicksortDepth, dif_neg split, depthBound_of_le (not_lt.mp split)]

theorem swap_const (c : Nat) (n m : Int) : swap (fun _ => c) n m = fun _ => c := by
  funext i
  simp only [swap, Function.update_apply]
  split_ifs <;> rfl

theorem partitionLoop_const (c : Nat) : ∀ (count : Nat) (i mid : Int),
    partitionLoop c count (fun _ => c) i mid = (fun _ => c, mid + count)
  | 0, _, _ => by simp [partitionLoop]
  | count + 1, i, mid => by
      rw [partitionLoop, if_pos le_rfl, swap_const, partitionLoop_const c count]
      congr 1
      omega

/-- On equal values `partition` puts every entry left of the pivot and returns `max`. -/
theorem partition_const (c : Nat) {min max : Int} (ordered : min ≤ max) :
    partition (fun _ => c) min max = (fun _ => c, max) := by
  simp only [partition, swap_const, partitionLoop_const]
  congr 1
  omega

/-- `quicksort` leaves an array of equal values as it is. -/
theorem quicksort_const (c : Nat) {min : Int} (max : Int) (nonneg : 0 ≤ min) :
    quicksort (fun _ => c) min max = fun _ => c := by
  obtain ⟨σ, -, sorted⟩ := (quicksort_spec (fun _ => c) min max nonneg).2
  rw [sorted]
  rfl

/-- On equal values every frame shrinks the range by one entry, so the bound is reached. -/
theorem quicksortDepth_const (c : Nat) (addrs : Int → Nat) (min max : Int)
    (equal : addrs = fun _ => c) (nonneg : 0 ≤ min) :
    quicksortDepth addrs min max = depthBound min max := by
  induction addrs, min, max using quicksortDepth.induct with
  | case1 addrs min max split parted left leftIH rightIH =>
      subst equal
      have long : max - min > 16 := split
      have parts : parted = (fun _ => c, max) := partition_const c (by omega)
      have lefts : left = fun _ => c := by
        show quicksort parted.1 min (parted.2 - 1) = _
        rw [parts]
        exact quicksort_const c _ nonneg
      rw [quicksortDepth, dif_pos split]
      show 1 + Nat.max (quicksortDepth parted.1 min (parted.2 - 1))
        (quicksortDepth left (parted.2 + 1) max) = _
      rw [leftIH (by rw [parts]) nonneg, rightIH lefts (by rw [parts]; omega), parts,
        depthBound_of_le (show max - (max + 1) ≤ sortThreshold by unfold sortThreshold; omega)]
      have pred := depthBound_pred split
      have one := one_le_depthBound min (max - 1)
      simp only [Nat.max_def]
      split_ifs <;> omega
  | case2 addrs min max split =>
      rw [quicksortDepth, dif_neg split, depthBound_of_le (not_lt.mp split)]

/-- The recursion of `forkscan_util_sort(a, length)` nests at most `max(1, length - 16)`
`quicksort` frames, whatever the array holds, and exactly that many when its entries are all
equal: the worst case is linear in `length`. Stated for `INT_MIN < length ≤ 2 ^ 30 + 9`, where no
`int` the sort computes overflows, so that the recursion counted is the one the C code runs. -/
theorem forkscanUtilSort_depth (a : Int → Nat) (length : Int) (lower : intMin < length)
    (upper : length ≤ 2 ^ 30 + 9) :
    (∀ v ∈ forkscanUtilSortInts a length, FitsInt v) ∧
      forkscanUtilSortDepth a length ≤ Nat.max 1 (length - 16).toNat ∧
      ∀ c : Nat, forkscanUtilSortDepth (fun _ => c) length = Nat.max 1 (length - 16).toNat := by
  have bound : depthBound 0 (length - 1) = Nat.max 1 (length - 16).toNat := by
    rw [depthBound, show length - 1 - 0 - 15 = length - 16 by omega]
  exact ⟨sortInts_fit a lower upper, bound ▸ quicksortDepth_le a 0 (length - 1),
    fun c => bound ▸ quicksortDepth_const c _ 0 (length - 1) rfl le_rfl⟩

/-- Forty entries in descending order: at most 24 frames. -/
theorem forkscanUtilSort_depth_forty :
    intMin < 40 ∧ (40 : Int) ≤ 2 ^ 30 + 9 ∧
      (∀ v ∈ forkscanUtilSortInts (fun i => (40 - i).toNat) 40, FitsInt v) ∧
      forkscanUtilSortDepth (fun i => (40 - i).toNat) 40 ≤ Nat.max 1 ((40 : Int) - 16).toNat ∧
      ∀ c : Nat, forkscanUtilSortDepth (fun _ => c) 40 = Nat.max 1 ((40 : Int) - 16).toNat :=
  ⟨by decide, by decide,
    forkscanUtilSort_depth (fun i => (40 - i).toNat) 40 (by decide) (by decide)⟩

/-! ### The loop of `binary_search_mark` -/

/-- How many passes the `while (low <= high)` loop of `binary_search_mark` makes from the bounds
`(low, high)`, following `searchLoop`. -/
def searchProbes (arr : Int → Nat) (target : Nat) (low high : Int) : Nat :=
  if _ordered : low ≤ high then
    match _probe : searchStep arr target low high with
    | .found _ => 1
    | .narrowed low' high' => 1 + searchProbes arr target low' high'
  else 0
termination_by (high - low + 1).toNat
decreasing_by exact searchStep_narrows _ordered _probe

/-- The passes of `binary_search_mark(arr, n, target, flags)`, whose loop starts at
`(0, n - 1)`. -/
def binarySearchMarkProbes (arr : Int → Nat) (n : Int) (target : Nat) : Nat :=
  searchProbes arr target 0 (n - 1)

/-- A pass that misses keeps at most half of the range, whatever the array holds. -/
theorem searchStep_halves {arr : Int → Nat} {target : Nat} {low high low' high' : Int}
    (ordered : low ≤ high) (step : searchStep arr target low high = .narrowed low' high') :
    (high' - low' + 1).toNat ≤ (high - low + 1).toNat / 2 := by
  have mid : searchMid low high = low + (high - low) / 2 := by
    rw [searchMid, Int.tdiv_eq_ediv (by omega) (by omega)]
  rcases searchStep_eq_narrowed.mp step with ⟨-, rfl, rfl⟩ | ⟨-, rfl, rfl⟩ <;> omega

/-- A range of fewer than `2 ^ k` entries takes at most `k` passes. -/
theorem searchProbes_le (arr : Int → Nat) (target : Nat) :
    ∀ (k : Nat) (low high : Int), (high - low + 1).toNat < 2 ^ k →
      searchProbes arr target low high ≤ k
  | 0, low, high, few => by
      rw [searchProbes, dif_neg (by rw [Nat.pow_zero] at few; omega)]
  | k + 1, low, high, few => by
      rw [searchProbes]
      split
      · next ordered =>
          split
          · omega
          · next low' high' probe =>
              have halved := searchStep_halves ordered probe
              have rest :=
                searchProbes_le arr target k low' high' (by rw [Nat.pow_succ] at few; omega)
              omega
      · omega

/-- The right part `[mid + 1, high]` of a pass keeps `⌊s / 2⌋` of the range's `s` entries. -/
theorem toNat_right_part {low high : Int} (ordered : low ≤ high) :
    (high - (searchMid low high + 1) + 1).toNat = (high - low + 1).toNat / 2 := by
  rw [searchMid, Int.tdiv_eq_ediv (by omega) (by omega)]
  omega

/-- A target above every entry sends every pass right, keeping `⌊s / 2⌋` of `s` entries: the
loop makes exactly `⌊log₂ s⌋ + 1` passes on a nonempty range. -/
theorem searchProbes_above {arr : Int → Nat} {target : Nat} (above : ∀ i, arr i < target)
    (low high : Int) :
    searchProbes arr target low high =
      if high < low then 0 else Nat.log 2 (high - low + 1).toNat + 1 := by
  induction low, high using searchProbes.induct arr target with
  | case1 low high ordered mid probe =>
      rw [searchStep_eq_found] at probe
      exact absurd probe.1 (above _).ne
  | case2 low high ordered low' high' probe ih =>
      rw [searchProbes, dif_pos ordered, if_neg (not_lt.mpr ordered)]
      split
      · next found => rw [probe] at found; cases found
      · next narrowed =>
          rw [probe] at narrowed
          cases narrowed
          obtain ⟨rfl, same⟩ : low' = searchMid low high + 1 ∧ high' = high := by
            rcases searchStep_eq_narrowed.mp probe with ⟨below, -⟩ | ⟨-, right⟩
            · exact absurd below (Nat.lt_asymm (above _))
            · exact right
          subst high'
          have halved := toNat_right_part ordered
          rw [ih, halved]
          split_ifs with crossed
          · rw [show (high - low + 1).toNat = 1 by omega, Nat.log_one_right]
          · rw [Nat.log_of_one_lt_of_le Nat.one_lt_two (by omega) (n := (high - low + 1).toNat)]
            omega
  | case3 low high crossed =>
      rw [searchProbes, dif_neg crossed, if_pos (by omega)]

/-- For every `INT_MIN < n ≤ INT_MAX`, whatever the array and the target, sorted or not, no `int`
that `binary_search_mark(arr, n, target, flags)` computes overflows, and its loop makes at most
`⌊log₂ n⌋ + 1` passes, and none when `n ≤ 0`; a target above every entry takes exactly
`⌊log₂ n⌋ + 1` passes when `n > 0`. -/
theorem binarySearchMark_probes (arr : Int → Nat) (n : Int) (target : Nat) (lower : intMin < n)
    (upper : n ≤ intMax) :
    (∀ low high, SearchReach arr n target low high →
      FitsInt low ∧ FitsInt high ∧
        (low ≤ high → FitsInt (high - low) ∧ FitsInt (searchMid low high))) ∧
      binarySearchMarkProbes arr n target ≤ Nat.log 2 n.toNat + 1 ∧
      (n ≤ 0 → binarySearchMarkProbes arr n target = 0) ∧
      ((∀ i, arr i < target) → 0 < n →
        binarySearchMarkProbes arr n target = Nat.log 2 n.toNat + 1) := by
  have size : (n - 1 - 0 + 1).toNat = n.toNat := by omega
  refine ⟨fun _ _ => searchReach_fits lower upper,
    searchProbes_le arr target _ 0 (n - 1) (size ▸ Nat.lt_pow_succ_log_self Nat.one_lt_two _),
    fun empty => ?_, fun above positive => ?_⟩
  · rw [binarySearchMarkProbes, searchProbes, dif_neg (by omega)]
  · rw [binarySearchMarkProbes, searchProbes_above above, if_neg (by omega), size]

/-- Five entries all below the target 9: three passes. -/
theorem binarySearchMark_probes_above :
    intMin < 5 ∧ (5 : Int) ≤ intMax ∧
      (∀ low high, SearchReach (fun _ : Int => 0) 5 9 low high →
        FitsInt low ∧ FitsInt high ∧
          (low ≤ high → FitsInt (high - low) ∧ FitsInt (searchMid low high))) ∧
      binarySearchMarkProbes (fun _ : Int => 0) 5 9 ≤ Nat.log 2 (5 : Int).toNat + 1 ∧
      ((5 : Int) ≤ 0 → binarySearchMarkProbes (fun _ : Int => 0) 5 9 = 0) ∧
      ((∀ _i : Int, 0 < 9) → (0 : Int) < 5 →
        binarySearchMarkProbes (fun _ : Int => 0) 5 9 = Nat.log 2 (5 : Int).toNat + 1) :=
  ⟨by decide, by decide, binarySearchMark_probes (fun _ : Int => 0) 5 9 (by decide) (by decide)⟩

end ForkscanRegistry.Sorted
