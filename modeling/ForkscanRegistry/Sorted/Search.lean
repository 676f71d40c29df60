import ForkscanRegistry.Sorted.Buffer

/-
Module: ForkscanRegistry.Sorted.Search
Layer: Model and proofs
Purpose: `binary_search_mark` of `sort_test.c`. One pass of the `while (low <= high)` body is
  `searchStep`, which either finds the target at `mid` or narrows the bounds; the loop runs it
  until it finds the target or the bounds cross, terminating because every narrowing shrinks
  `high - low`. The bounds the loop can reach from `(0, n - 1)` are the inductive `SearchReach`:
  on each of them `mid` lies in `[0, n - 1]` and every `int` the loop computes fits, and on a
  non-decreasing buffer each of them satisfies `SearchInv` (everything left of `low` is below the
  target, everything right of `high` above it), which gives soundness and completeness.
Trusted boundary: none
Main exports: searchStep, searchLoop, binarySearchMark, SearchReach, SearchInv, SearchPost,
  searchReach_inv, binarySearchMark_spec
-/

namespace ForkscanRegistry.Sorted

/-- What one pass of the loop body decides: `arr[mid] == target` returns `mid`, otherwise
`high = mid - 1` or `low = mid + 1`. -/
inductive Probe
  | found (mid : Int)
  | narrowed (low high : Int)
  deriving Repr, DecidableEq

/-- `int mid = low + (high - low) / 2;` (C's `/` truncates). -/
def searchMid (low high : Int) : Int := low + (high - low).tdiv 2

/-- The comparisons of one pass of the loop body at bounds `(low, high)`. -/
def searchStep (arr : Int → Nat) (target : Nat) (low high : Int) : Probe :=
  let mid := searchMid low high
  if arr mid = target then .found mid
  else if target < arr mid then .narrowed low (mid - 1)
  else .narrowed (mid + 1) high

/-- `if (flags[mid] == 0) flags[mid] = 1;` -/
def markFlag (flags : Int → Int) (mid : Int) : Int → Int :=
  if flags mid = 0 then Function.update flags mid 1 else flags

@[simp] theorem markFlag_self (flags : Int → Int) (mid : Int) :
    markFlag flags mid mid = if flags mid = 0 then 1 else flags mid := by
  unfold markFlag
  split_ifs <;> simp

theorem markFlag_of_ne {flags : Int → Int} {mid j : Int} (other : j ≠ mid) :
    markFlag flags mid j = flags j := by
  unfold markFlag
  split_ifs <;> simp [other]

/-- While the bounds have not crossed, `mid` lies between them. -/
theorem searchMid_mem {low high : Int} (ordered : low ≤ high) :
    low ≤ searchMid low high ∧ searchMid low high ≤ high := by
  unfold searchMid
  rw [Int.tdiv_eq_ediv (by omega) (by omega)]
  omega

theorem searchStep_eq_found {arr : Int → Nat} {target : Nat} {low high mid : Int} :
    searchStep arr target low high = .found mid ↔
      arr (searchMid low high) = target ∧ mid = searchMid low high := by
  simp only [searchStep]
  split_ifs with hit <;> simp [hit, eq_comm]

/-- Every way a pass can narrow the bounds. -/
theorem searchStep_eq_narrowed {arr : Int → Nat} {target : Nat} {low high low' high' : Int} :
    searchStep arr target low high = .narrowed low' high' ↔
      (target < arr (searchMid low high) ∧ low' = low ∧ high' = searchMid low high - 1) ∨
        (arr (searchMid low high) < target ∧ low' = searchMid low high + 1 ∧ high' = high) := by
  simp only [searchStep]
  split_ifs with hit below <;> simp only [reduceCtorEq, false_iff, Probe.narrowed.injEq] <;> omega

/-- Each narrowing makes `high - low` smaller: the loop terminates. -/
theorem searchStep_narrows {arr : Int → Nat} {target : Nat} {low high low' high' : Int}
    (ordered : low ≤ high) (step : searchStep arr target low high = .narrowed low' high') :
    (high' - low' + 1).toNat < (high - low + 1).toNat := by
  have := searchMid_mem ordered
  rcases searchStep_eq_narrowed.mp step with ⟨-, rfl, rfl⟩ | ⟨-, rfl, rfl⟩ <;> omega

/-- The `while (low <= high)` loop, returning the result and the flags afterwards. -/
def searchLoop (arr : Int → Nat) (target : Nat) (flags : Int → Int) (low high : Int) :
    Int × (Int → Int) :=
  if ordered : low ≤ high then
    match _probe : searchStep arr target low high with
    | .found mid => (mid, markFlag flags mid)
    | .narrowed low' high' => searchLoop arr target flags low' high'
  else (-1, flags)
termination_by (high - low + 1).toNat
decreasing_by exact searchStep_narrows ordered _probe

section Loop

variable {arr : Int → Nat} {target : Nat} {flags : Int → Int} {low high : Int}

theorem searchLoop_of_found {mid : Int} (ordered : low ≤ high)
    (probe : searchStep arr target low high = .found mid) :
    searchLoop arr target flags low high = (mid, markFlag flags mid) := by
  rw [searchLoop, dif_pos ordered]
  split
  · next found => rw [probe] at found; cases found; rfl
  · next narrowed => rw [probe] at narrowed; cases narrowed

theorem searchLoop_of_narrowed {low' high' : Int} (ordered : low ≤ high)
    (probe : searchStep arr target low high = .narrowed low' high') :
    searchLoop arr target flags low high = searchLoop arr target flags low' high' := by
  rw [searchLoop, dif_pos ordered]
  split
  · next found => rw [probe] at found; cases found
  · next narrowed => rw [probe] at narrowed; cases narrowed; rfl

theorem searchLoop_of_crossed (crossed : ¬low ≤ high) :
    searchLoop arr target flags low high = (-1, flags) := by
  rw [searchLoop, dif_neg crossed]

end Loop

/-- `binary_search_mark(arr, n, target, flags)`: the index returned and the flags afterwards. -/
def binarySearchMark (arr : Int → Nat) (n : Int) (target : Nat) (flags : Int → Int) :
    Int × (Int → Int) :=
  searchLoop arr target flags 0 (n - 1)

/-- The bounds the loop of `binary_search_mark(arr, n, target, _)` reaches. -/
inductive SearchReach (arr : Int → Nat) (n : Int) (target : Nat) : Int → Int → Prop
  | start : SearchReach arr n target 0 (n - 1)
  | next {low high low' high' : Int} : SearchReach arr n target low high → low ≤ high →
      searchStep arr target low high = .narrowed low' high' → SearchReach arr n target low' high'

/-- The loop invariant: the bounds stay inside `[0, n]`, entries left of `low` are below the
target and entries right of `high` above it. -/
structure SearchInv (arr : Int → Nat) (n : Int) (target : Nat) (low high : Int) : Prop where
  low_nonneg : 0 ≤ low
  high_lt : high < n
  low_le : low ≤ high + 1
  below : ∀ i, 0 ≤ i → i < low → arr i < target
  above : ∀ i, high < i → i < n → target < arr i

section Invariant

variable {arr : Int → Nat} {n : Int} {target : Nat}

theorem SearchInv.start (nonneg : 0 ≤ n) : SearchInv arr n target 0 (n - 1) :=
  ⟨le_rfl, by omega, by omega, fun _ _ _ => by omega, fun _ _ _ => by omega⟩

/-- On a non-decreasing buffer, a narrowing pass keeps the invariant. -/
theorem SearchInv.narrow {low high low' high' : Int} (sorted : SortedOn arr 0 (n - 1))
    (inv : SearchInv arr n target low high) (ordered : low ≤ high)
    (step : searchStep arr target low high = .narrowed low' high') :
    SearchInv arr n target low' high' := by
  have := inv.low_nonneg; have := inv.high_lt
  obtain ⟨midGe, midLe⟩ := searchMid_mem ordered
  rcases searchStep_eq_narrowed.mp step with ⟨less, rfl, rfl⟩ | ⟨greater, rfl, rfl⟩
  · refine ⟨inv.low_nonneg, by omega, by omega, inv.below, fun i beyond inside => ?_⟩
    exact less.trans_le (sorted.le (by omega) (by omega) (by omega))
  · refine ⟨by omega, inv.high_lt, by omega, fun i nonneg' before => ?_, inv.above⟩
    exact (sorted.le nonneg' (by omega) (by omega)).trans_lt greater

/-- Every reachable pair of bounds satisfies the invariant. -/
theorem searchReach_inv (nonneg : 0 ≤ n) (sorted : SortedOn arr 0 (n - 1)) {low high : Int}
    (reach : SearchReach arr n target low high) : SearchInv arr n target low high := by
  induction reach with
  | start => exact SearchInv.start nonneg
  | next _ ordered step inv => exact inv.narrow sorted ordered step

/-- When the bounds cross, the target is nowhere in `arr[0..n)`. -/
theorem SearchInv.absent {low high : Int} (inv : SearchInv arr n target low high)
    (crossed : ¬low ≤ high) : ∀ i, 0 ≤ i → i < n → arr i ≠ target := by
  intro i nonneg' inside
  by_cases left : i < low
  · exact (inv.below i nonneg' left).ne
  · exact (inv.above i (by omega) inside).ne'

/-- Every `int` the loop computes at bounds satisfying the invariant fits when `n ≤ INT_MAX`: the
bounds themselves (so also `n - 1`, `mid - 1` and `mid + 1`, which become bounds), `high - low`
and its half; and `mid` lies in `[0, n - 1]`. -/
theorem SearchInv.fits {low high : Int} (inv : SearchInv arr n target low high)
    (small : n ≤ intMax) :
    FitsInt low ∧ FitsInt high ∧
      (low ≤ high → FitsInt (high - low) ∧ FitsInt ((high - low).tdiv 2) ∧
        0 ≤ searchMid low high ∧ searchMid low high < n) := by
  have := inv.low_nonneg; have := inv.high_lt; have := inv.low_le
  unfold FitsInt intMin intMax at *
  refine ⟨by omega, by omega, fun ordered => ?_⟩
  have := searchMid_mem ordered
  unfold searchMid at *
  rw [Int.tdiv_eq_ediv (by omega) (by omega)] at *
  omega

/-- Whatever the buffer holds, sorted or not, the bounds the loop reaches are its start, or lie in
`[0, n]` and `[-1, n - 1]`: a pass only moves a bound to `mid ± 1` with `mid` in `[low, high]`. -/
theorem searchReach_bounds {low high : Int} (reach : SearchReach arr n target low high) :
    (low = 0 ∧ high = n - 1) ∨ (0 ≤ low ∧ low ≤ n ∧ -1 ≤ high ∧ high ≤ n - 1) := by
  induction reach with
  | start => exact .inl ⟨rfl, rfl⟩
  | next _ ordered step bounds =>
      have := searchMid_mem ordered
      rcases searchStep_eq_narrowed.mp step with ⟨-, rfl, rfl⟩ | ⟨-, rfl, rfl⟩ <;> omega

/-- For every `INT_MIN < n ≤ INT_MAX` and every buffer, sorted or not, no `int` the loop computes
overflows: the bounds (so `n - 1`, `mid - 1` and `mid + 1`), `high - low` and `mid`. -/
theorem searchReach_fits (lower : intMin < n) (upper : n ≤ intMax) {low high : Int}
    (reach : SearchReach arr n target low high) :
    FitsInt low ∧ FitsInt high ∧
      (low ≤ high → FitsInt (high - low) ∧ FitsInt (searchMid low high)) := by
  have bounds := searchReach_bounds reach
  unfold FitsInt intMin intMax at *
  refine ⟨by omega, by omega, fun ordered => ?_⟩
  have := searchMid_mem ordered
  omega

end Invariant

/-- What the loop returns from reachable bounds on a non-decreasing buffer: `-1` with the flags
unchanged when the target is absent, otherwise an index in `[0, n)` holding the target, with the
flag there marked. -/
theorem searchLoop_spec {arr : Int → Nat} {n : Int} {target : Nat} (flags : Int → Int)
    (nonneg : 0 ≤ n) (sorted : SortedOn arr 0 (n - 1)) (low high : Int)
    (reach : SearchReach arr n target low high) :
    ((searchLoop arr target flags low high).1 = -1 ∧
        (searchLoop arr target flags low high).2 = flags ∧
        ∀ i, 0 ≤ i → i < n → arr i ≠ target) ∨
      (0 ≤ (searchLoop arr target flags low high).1 ∧ (searchLoop arr target flags low high).1 < n ∧
        arr (searchLoop arr target flags low high).1 = target ∧
        (searchLoop arr target flags low high).2 =
          markFlag flags (searchLoop arr target flags low high).1) := by
  induction low, high using searchLoop.induct arr target flags with
  | case1 low high ordered mid probe =>
      have inv := searchReach_inv nonneg sorted reach
      have := inv.low_nonneg; have := inv.high_lt; have := searchMid_mem ordered
      obtain ⟨hit, rfl⟩ := searchStep_eq_found.mp probe
      rw [searchLoop_of_found ordered probe]
      exact .inr ⟨by omega, by omega, hit, rfl⟩
  | case2 low high ordered low' high' probe ih =>
      rw [searchLoop_of_narrowed ordered probe]
      exact ih (reach.next ordered probe)
  | case3 low high crossed =>
      rw [searchLoop_of_crossed crossed]
      exact .inl ⟨rfl, rfl, (searchReach_inv nonneg sorted reach).absent crossed⟩

/-- What `binary_search_mark(arr, n, target, flags)` guarantees of its result `(r, flags')`. -/
structure SearchPost (arr : Int → Nat) (n : Int) (target : Nat) (flags : Int → Int)
    (result : Int × (Int → Int)) : Prop where
  /-- `-1 ≤ r < n`. -/
  in_range : -1 ≤ result.1 ∧ result.1 < n
  /-- `r ≥ 0` exactly when the target occurs in `arr[0..n)`. -/
  found_iff : 0 ≤ result.1 ↔ ∃ i, 0 ≤ i ∧ i < n ∧ arr i = target
  /-- A returned index holds the target. -/
  hit : 0 ≤ result.1 → arr result.1 = target
  /-- Its flag is set to 1 if it was 0 ... -/
  marked : 0 ≤ result.1 → flags result.1 = 0 → result.2 result.1 = 1
  /-- ... and kept otherwise. -/
  kept : 0 ≤ result.1 → flags result.1 ≠ 0 → result.2 result.1 = flags result.1
  /-- Every other flag is unchanged (all of them when `r = -1`). -/
  others : ∀ j, j ≠ result.1 → result.2 j = flags j

/-- On a non-decreasing `arr[0..n)` with `n ≥ 0`, `binary_search_mark` meets `SearchPost`. -/
theorem binarySearchMark_post {arr : Int → Nat} {n : Int} (target : Nat) (flags : Int → Int)
    (nonneg : 0 ≤ n) (sorted : SortedOn arr 0 (n - 1)) :
    SearchPost arr n target flags (binarySearchMark arr n target flags) := by
  have spec := searchLoop_spec flags nonneg sorted 0 (n - 1)
    (SearchReach.start : SearchReach arr n target 0 (n - 1))
  unfold binarySearchMark
  generalize searchLoop arr target flags 0 (n - 1) = result at spec ⊢
  obtain ⟨r, marked⟩ := result
  dsimp only at spec
  rcases spec with ⟨rfl, rfl, absent⟩ | ⟨found, inside, hit, rfl⟩
  · exact ⟨⟨by omega, by omega⟩, ⟨by omega, fun ⟨i, lo, hi, eq⟩ => (absent i lo hi eq).elim⟩,
      by omega, by omega, by omega, fun _ _ => rfl⟩
  · exact ⟨⟨by omega, inside⟩, ⟨fun _ => ⟨r, found, inside, hit⟩, fun _ => found⟩, fun _ => hit,
      fun _ zero => by simp [zero], fun _ nonzero => by simp [nonzero],
      fun _ other => markFlag_of_ne other⟩

end ForkscanRegistry.Sorted
