import ForkscanRegistry.Sorted.Sort
import ForkscanRegistry.Sorted.Search
import ForkscanRegistry.Sorted.Compact

/-
Module: ForkscanRegistry.Harness.QuicksortScenario
Layer: Model and proofs
Purpose: `test_quicksort_scenario` of `sort_test.c`, the driver of the sorted-array registry.
  Each iteration appends `NEW_POINTERS` keys past `curr_n`, zeroes their flags, sorts the whole
  prefix, marks every other entry by binary search and compacts. The sort moves keys but not
  flags, so it relies on every flag of `[0, curr_n)` being 0 when it runs: `IterationInv` says
  that this, and the bound on `curr_n` that keeps the appends inside the buffers, hold at the start
  of every iteration. `rand()` is replaced by whatever values the environment supplies
  (`initial`, `batches`), and the `malloc`'d buffer by arbitrary contents (`garbage`); timing and
  printing are not modelled.
Trusted boundary: none
Main exports: ScenarioState, appendAndSort, markAndFilter, scenarioAt, IterationInv,
  SortedUnmarked, scenarioAt_inv, quicksortScenario_invariants
-/

namespace ForkscanRegistry.Harness

open Sorted

/-- `INITIAL_SIZE`. -/
def initialSize : Int := 1000

/-- `NEW_POINTERS`. -/
def newPointers : Int := 500000

/-- `ITERATIONS`. -/
def iterations : Int := 100

/-- `int total_capacity = INITIAL_SIZE + ITERATIONS * NEW_POINTERS;` -/
def totalCapacity : Int := initialSize + iterations * newPointers

/-- `generate_random_array(&array[start], count)`: `array[start + j] = rand()` for `j < count`,
the `j`-th value `rand()` returns being `values j`. -/
def generateRandomArray (array : Int → Nat) (start count : Int) (values : Nat → Nat) : Int → Nat :=
  fun k => if start ≤ k ∧ k < start + count then values (k - start).toNat else array k

/-- `for (int i = start; i < start + count; i++) flags[i] = 0;` -/
def clearFlags (flags : Int → Int) (start count : Int) : Int → Int :=
  fun k => if start ≤ k ∧ k < start + count then 0 else flags k

/-- The marking loop,
`for (int i = 0; i < curr_n; i += 2) binary_search_mark(array, curr_n, array[i], flags);`, run for
its remaining `count` iterations from `i`. -/
def markEveryOther (array : Int → Nat) (currN : Int) : Nat → (Int → Int) → Int → (Int → Int)
  | 0, flags, _ => flags
  | count + 1, flags, i =>
      markEveryOther array currN count (binarySearchMark array currN (array i) flags).2 (i + 2)

/-- The scenario's variables between statements: both buffers and `curr_n`. -/
structure ScenarioState where
  array : Int → Nat
  flags : Int → Int
  currN : Int

/-- The first half of the iteration body: append the batch at `array[curr_n ..)`, zero its flags,
grow `curr_n` by `NEW_POINTERS` and `forkscan_util_sort(array, curr_n)`. -/
def appendAndSort (s : ScenarioState) (batch : Nat → Nat) : ScenarioState :=
  let array := generateRandomArray s.array s.currN newPointers batch
  let flags := clearFlags s.flags s.currN newPointers
  let currN := s.currN + newPointers
  ⟨forkscanUtilSort array currN, flags, currN⟩

@[simp] theorem appendAndSort_currN (s : ScenarioState) (batch : Nat → Nat) :
    (appendAndSort s batch).currN = s.currN + newPointers := rfl

@[simp] theorem appendAndSort_flags (s : ScenarioState) (batch : Nat → Nat) :
    (appendAndSort s batch).flags = clearFlags s.flags s.currN newPointers := rfl

/-- The second half: the marking loop, then `filter_marked_array(array, &curr_n, flags)`. -/
def markAndFilter (s : ScenarioState) : ScenarioState :=
  let flags := markEveryOther s.array s.currN ((s.currN + 1) / 2).toNat s.flags 0
  let result := filterMarkedArray s.array s.currN flags
  ⟨result.1, result.2.2, result.2.1⟩

/-- The flags the marking loop leaves on a state. -/
def markedFlags (s : ScenarioState) : Int → Int :=
  markEveryOther s.array s.currN ((s.currN + 1) / 2).toNat s.flags 0

theorem markAndFilter_eq (s : ScenarioState) :
    markAndFilter s = ⟨(filterMarkedArray s.array s.currN (markedFlags s)).1,
      (filterMarkedArray s.array s.currN (markedFlags s)).2.2,
      (filterMarkedArray s.array s.currN (markedFlags s)).2.1⟩ := rfl

/-- The state before the `for (iter ...)` loop: the fresh `array` filled with `INITIAL_SIZE`
values, `calloc`'d flags and `curr_n = INITIAL_SIZE`. -/
def scenarioStart (garbage : Int → Nat) (initial : Nat → Nat) : ScenarioState :=
  ⟨generateRandomArray garbage 0 initialSize initial, fun _ => 0, initialSize⟩

/-- The state at the start of iteration `iter`, the `j`-th value of its batch being
`batches iter j`. -/
def scenarioAt (garbage : Int → Nat) (initial : Nat → Nat) (batches : Nat → Nat → Nat) :
    Nat → ScenarioState
  | 0 => scenarioStart garbage initial
  | iter + 1 =>
      markAndFilter (appendAndSort (scenarioAt garbage initial batches iter) (batches iter))

/-- `array[0..curr_n)` is non-decreasing and `flags[0..curr_n)` are all 0. -/
def SortedUnmarked (s : ScenarioState) : Prop :=
  (Sorted.segment s.array 0 s.currN.toNat).Sorted (· ≤ ·) ∧ ∀ k, 0 ≤ k → k < s.currN → s.flags k = 0

/-- What holds at the start of iteration `iter`: `0 ≤ curr_n ≤ INITIAL_SIZE + iter * NEW_POINTERS`
and no flag of `[0, curr_n)` is set. -/
structure IterationInv (s : ScenarioState) (iter : Nat) : Prop where
  nonneg : 0 ≤ s.currN
  bounded : s.currN ≤ initialSize + iter * newPointers
  cleared : ∀ k, 0 ≤ k → k < s.currN → s.flags k = 0

/-- With no flag of `[0, curr_n)` set, the first half of the body leaves `[0, curr_n)` sorted with
no flag set, now for the grown `curr_n`. -/
theorem appendAndSort_sortedUnmarked {s : ScenarioState} (nonneg : 0 ≤ s.currN)
    (cleared : ∀ k, 0 ≤ k → k < s.currN → s.flags k = 0) (batch : Nat → Nat) :
    SortedUnmarked (appendAndSort s batch) := by
  have grows : newPointers = 500000 := rfl
  obtain ⟨sorted, -⟩ := quicksort_spec
    (generateRandomArray s.array s.currN newPointers batch) 0 (s.currN + newPointers - 1) le_rfl
  refine ⟨SortedOn.sorted_segment fun p lo hi => sorted p lo (by simp at hi; omega),
    fun k lo hi => ?_⟩
  simp only [appendAndSort_flags, clearFlags]
  split_ifs with fresh
  · rfl
  · exact cleared k lo (by simp at hi; omega)

/-- On a sorted `[0, curr_n)`, the second half of the body leaves a sorted `[0, curr_n')` with no
flag set, for a `curr_n'` between 0 and `curr_n`: marking moves no key, and compaction keeps a
subsequence and clears the kept flags. -/
theorem markAndFilter_sortedUnmarked {s : ScenarioState}
    (sorted : (Sorted.segment s.array 0 s.currN.toNat).Sorted (· ≤ ·)) :
    SortedUnmarked (markAndFilter s) ∧ 0 ≤ (markAndFilter s).currN ∧
      (markAndFilter s).currN ≤ s.currN.toNat := by
  have post := filterMarkedArray_post s.array s.currN (markedFlags s)
  rw [markAndFilter_eq]
  refine ⟨⟨?_, post.cleared⟩, ?_, ?_⟩ <;> dsimp only
  · rw [post.kept]
    exact sorted.sublist (unmarked_sublist _ _ _)
  · rw [post.count]
    omega
  · rw [post.count]
    exact Int.ofNat_le.mpr ((List.countP_le_length _).trans_eq (List.length_range _))

namespace IterationInv

theorem start (garbage : Int → Nat) (initial : Nat → Nat) :
    IterationInv (scenarioStart garbage initial) 0 :=
  ⟨by simp [scenarioStart, initialSize], by simp [scenarioStart], fun _ _ _ => rfl⟩

/-- One iteration keeps the invariant, with `curr_n` grown by at most `NEW_POINTERS`. -/
theorem next {s : ScenarioState} {iter : Nat} (inv : IterationInv s iter) (batch : Nat → Nat) :
    IterationInv (markAndFilter (appendAndSort s batch)) (iter + 1) := by
  obtain ⟨⟨-, cleared⟩, nonneg, shrinks⟩ :=
    markAndFilter_sortedUnmarked (appendAndSort_sortedUnmarked inv.nonneg inv.cleared batch).1
  have := inv.bounded; have := inv.nonneg
  simp only [appendAndSort_currN] at shrinks
  refine ⟨nonneg, ?_, cleared⟩
  unfold newPointers at *
  push_cast
  omega

end IterationInv

/-- Every iteration starts in a state satisfying the invariant. -/
theorem scenarioAt_inv (garbage : Int → Nat) (initial : Nat → Nat) (batches : Nat → Nat → Nat) :
    ∀ iter, IterationInv (scenarioAt garbage initial batches iter) iter
  | 0 => IterationInv.start garbage initial
  | iter + 1 => (scenarioAt_inv garbage initial batches iter).next (batches iter)

/-- In `test_quicksort_scenario`, for any initial values and any batches (duplicates allowed)
and every iteration `iter < ITERATIONS`: before the append `0 ≤ curr_n ≤ INITIAL_SIZE + iter *
NEW_POINTERS`, so the batch written at `array[curr_n .. curr_n + NEW_POINTERS)` stays within
`total_capacity`; when the marking loop starts `array[0..curr_n)` is non-decreasing with no flag
set, so no flag of an earlier cycle is carried by the sort onto another key; and after
`filter_marked_array` the same holds for the compacted `curr_n`. -/
theorem quicksortScenario_invariants (garbage : Int → Nat) (initial : Nat → Nat)
    (batches : Nat → Nat → Nat) (iter : Nat) (running : (iter : Int) < iterations) :
    0 ≤ (scenarioAt garbage initial batches iter).currN ∧
      (scenarioAt garbage initial batches iter).currN ≤ initialSize + iter * newPointers ∧
      (scenarioAt garbage initial batches iter).currN + newPointers ≤ totalCapacity ∧
      SortedUnmarked (appendAndSort (scenarioAt garbage initial batches iter) (batches iter)) ∧
      SortedUnmarked (scenarioAt garbage initial batches (iter + 1)) := by
  have inv := scenarioAt_inv garbage initial batches iter
  have atMarking := appendAndSort_sortedUnmarked inv.nonneg inv.cleared (batches iter)
  have := inv.bounded
  unfold totalCapacity initialSize iterations newPointers at *
  exact ⟨inv.nonneg, this, by omega, atMarking, (markAndFilter_sortedUnmarked atMarking.1).1⟩

theorem quicksortScenario_invariants_first :
    ((0 : Nat) : Int) < iterations ∧
      SortedUnmarked (scenarioAt (fun _ => 0) id (fun _ j => j) 1) :=
  ⟨by decide,
    (quicksortScenario_invariants (fun _ => 0) id (fun _ j => j) 0 (by decide)).2.2.2.2⟩

end ForkscanRegistry.Harness
