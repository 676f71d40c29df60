import ForkscanRegistry.Avl.Refinement
import ForkscanRegistry.Sorted.Overflow
import ForkscanRegistry.Sorted.Search
import ForkscanRegistry.Sorted.Compact

/-
Module: ForkscanRegistry.Harness.Agreement
Layer: Refinement
Purpose: The two bookkeeping strategies of `sort_test.c` classify retired addresses alike. The
  sorted-array registry (`forkscan_util_sort`, `binary_search_mark` per target,
  `filter_marked_array`) and the tree registry (`avl_build_from_array`, `avl_mark` per target) are
  both read as a list of `(key, marked)` pairs: the tree by its in-order walk, the array by
  `arrayView`, which pairs `a[i]` with `flags[i] ≠ 0`. On distinct keys both start as the sorted
  keys, unmarked; a search and a mark of the same target act on the two lists as the same
  `markEntry` and report the same presence; compaction keeps exactly the unmarked keys.
Trusted boundary: none
Main exports: searchTargets, markTargets, arrayRegistryRun, treeRegistryRun, arrayView,
  arrayView_search, searchTargets_refines, registries_agree
-/

namespace ForkscanRegistry.Harness

open Avl Sorted

/-- `binary_search_mark(a, n, t, flags)` for each target `t` in order: every result, and the
flags afterwards. -/
def searchTargets (a : Int → Nat) (n : Int) : List Nat → (Int → Int) → List Int × (Int → Int)
  | [], flags => ([], flags)
  | t :: ts, flags =>
      let rest := searchTargets a n ts (binarySearchMark a n t flags).2
      ((binarySearchMark a n t flags).1 :: rest.1, rest.2)

/-- `avl_mark(tree, t)` for each target `t` in order: every result, and the tree afterwards. -/
def markTargets (tree : AvlTree) : List Nat → List Bool × AvlTree
  | [] => ([], tree)
  | t :: ts =>
      let rest := markTargets (avlMark tree t).1 ts
      ((avlMark tree t).2 :: rest.1, rest.2)

/-- The array registry on `keys`, held in `a[0..|keys|)` with `flags`: sort, search for every
target, compact. Returns the searches' results and the buffer, length and flags that
`filter_marked_array` leaves. -/
def arrayRegistryRun (a : Int → Nat) (flags : Int → Int) (keys targets : List Nat) :
    List Int × ((Int → Nat) × Int × (Int → Int)) :=
  let n : Int := keys.length
  let sorted := forkscanUtilSort a n
  let searched := searchTargets sorted n targets flags
  (searched.1, filterMarkedArray sorted n searched.2)

/-- The tree registry on `keys`: build, then mark every target. Returns the marks' results and
the tree. -/
def treeRegistryRun (keys targets : List Nat) : Option (List Bool × AvlTree) :=
  (avlBuildFromArray keys).map fun tree => markTargets tree targets

/-- The array registry's abstraction onto the map the tree refines: `a[i]` paired with whether
`flags[i]` is set, for `i < n`. -/
def arrayView (a : Int → Nat) (flags : Int → Int) (n : Nat) : List (Nat × Bool) :=
  (List.range n).map fun i : Nat => (a i, decide (flags i ≠ 0))

theorem arrayView_keys (a : Int → Nat) (flags : Int → Int) (n : Nat) :
    (arrayView a flags n).map Prod.fst = Sorted.segment a 0 n := by
  simp [arrayView, Sorted.segment, Function.comp_def]

/-- The kept entries are the keys the view leaves unmarked. -/
theorem unmarked_eq_view (a : Int → Nat) (flags : Int → Int) (n : Nat) :
    unmarked a flags n = ((arrayView a flags n).filter fun e => !e.2).map Prod.fst := by
  simp [unmarked, arrayView, List.filter_map, Function.comp_def]

/-- A buffer whose range holds distinct keys has each of them at one index only. -/
theorem index_unique {a : Int → Nat} {n : Nat} (distinct : (Sorted.segment a 0 n).Nodup) {i j : Int}
    (iIn : 0 ≤ i ∧ i < n) (jIn : 0 ≤ j ∧ j < n) (same : a i = a j) : i = j := by
  obtain ⟨i, rfl⟩ := Int.eq_ofNat_of_zero_le iIn.1
  obtain ⟨j, rfl⟩ := Int.eq_ofNat_of_zero_le jIn.1
  have := List.inj_on_of_nodup_map distinct (List.mem_range.mpr (show i < n by omega))
    (List.mem_range.mpr (show j < n by omega)) (by simpa using same)
  rw [this]

/-- On a sorted buffer of distinct keys, `binary_search_mark(a, n, t, flags)` acts on the view as
`markEntry t` and reports whether `t` is a key. -/
theorem arrayView_search {a : Int → Nat} {n : Nat} (distinct : (Sorted.segment a 0 n).Nodup)
    (sorted : SortedOn a 0 (n - 1)) (t : Nat) (flags : Int → Int) :
    arrayView a (binarySearchMark a n t flags).2 n = markEntry t (arrayView a flags n) ∧
      (0 ≤ (binarySearchMark a n t flags).1 ↔ t ∈ Sorted.segment a 0 n) := by
  have post := binarySearchMark_post t flags (Int.natCast_nonneg n) sorted
  have present : 0 ≤ (binarySearchMark a n t flags).1 ↔ t ∈ Sorted.segment a 0 n := by
    rw [post.found_iff]
    simp only [Sorted.segment, List.mem_map, List.mem_range, Int.zero_add]
    constructor
    · rintro ⟨i, lo, hi, hit⟩
      exact ⟨i.toNat, by omega, by rwa [Int.toNat_of_nonneg lo]⟩
    · rintro ⟨i, hi, hit⟩
      exact ⟨i, by omega, by omega, hit⟩
  refine ⟨?_, present⟩
  unfold arrayView markEntry
  rw [List.map_map]
  refine List.map_congr_left fun i mem => ?_
  have inside := List.mem_range.mp mem
  simp only [Function.comp_apply]
  by_cases hit : a i = t
  · have found := present.mpr (hit ▸ List.mem_map.mpr ⟨i, mem, by simp⟩)
    have at_i : (i : Int) = (binarySearchMark a n t flags).1 :=
      index_unique distinct ⟨by omega, by omega⟩ ⟨found, post.in_range.2⟩
        (hit.trans (post.hit found).symm)
    rw [if_pos hit, hit, at_i]
    by_cases zero : flags (binarySearchMark a n t flags).1 = 0
    · simp [post.marked found zero]
    · simp [post.kept found zero, zero]
  · have other : (i : Int) ≠ (binarySearchMark a n t flags).1 := fun at_i =>
      hit (at_i ▸ post.hit (at_i ▸ Int.natCast_nonneg i))
    rw [if_neg hit, post.others _ other]

/-- Searching the sorted buffer and marking a valid tree with the same walk, target by target,
keep the view and the walk equal and report the same presence for every target. -/
theorem searchTargets_refines {a : Int → Nat} {n : Nat} (distinct : (Sorted.segment a 0 n).Nodup)
    (sorted : SortedOn a 0 (n - 1)) :
    ∀ (targets : List Nat) (flags : Int → Int) (tree : AvlTree), AvlInvariant tree.root →
      arrayView a flags n = avlInorder tree →
      (searchTargets a n targets flags).1.map (fun r => decide (0 ≤ r)) =
          (markTargets tree targets).1 ∧
        arrayView a (searchTargets a n targets flags).2 n =
          avlInorder (markTargets tree targets).2 ∧
        AvlInvariant (markTargets tree targets).2.root
  | [], _, _, valid, same => ⟨rfl, same, valid⟩
  | t :: ts, flags, tree, valid, same => by
      obtain ⟨view, present⟩ := arrayView_search distinct sorted t flags
      obtain ⟨walk, found⟩ := @markNode_inorder t _ valid.ordered
      have agree :
          arrayView a (binarySearchMark a n t flags).2 n = avlInorder (avlMark tree t).1 := by
        rw [view, same]
        exact walk.symm
      obtain ⟨results, views, valid'⟩ :=
        searchTargets_refines distinct sorted ts _ _ (avlMark_invariant valid t) agree
      refine ⟨?_, views, valid'⟩
      simp only [searchTargets, markTargets, List.map_cons, results, List.cons.injEq, and_true]
      rw [Bool.eq_iff_iff, decide_eq_true_iff, present]
      show t ∈ Sorted.segment a 0 n ↔ (markNode tree.root t).2 = true
      rw [found, ← arrayView_keys a flags n, same]
      rfl

/-- The two registries classify alike. For any at most `2 ^ 30` distinct keys held in
`a[0..|keys|)` with no flag set there, and any targets: no `int` that `forkscan_util_sort`
computes overflows, so the model sorts as the C code does; the tree registry builds and marks
without a fault, the buffer
compacted by the array registry holds exactly the tree's unmarked keys in in-order order, and
each binary search returns an index `≥ 0` exactly when the corresponding `avl_mark` returns 1. -/
theorem registries_agree (a : Int → Nat) (flags : Int → Int) (keys targets : List Nat)
    (distinct : keys.Nodup) (bounded : keys.length ≤ 2 ^ 30)
    (holds : Sorted.segment a 0 keys.length = keys)
    (unflagged : ∀ i : Nat, i < keys.length → flags i = 0) :
    (∀ v ∈ forkscanUtilSortInts a keys.length, FitsInt v) ∧
    ∃ founds tree, treeRegistryRun keys targets = some (founds, tree) ∧
      Sorted.segment (arrayRegistryRun a flags keys targets).2.1 0
          (arrayRegistryRun a flags keys targets).2.2.1.toNat =
        ((avlInorder tree).filter fun e => !e.2).map Prod.fst ∧
      (arrayRegistryRun a flags keys targets).1.map (fun r => decide (0 ≤ r)) = founds := by
  set n := keys.length
  obtain ⟨built, builds, walk⟩ := avlBuildFromArray_inorder keys
  obtain ⟨built', builds', valid⟩ := avlBuildFromArray_invariant keys
  obtain rfl : built = built' := Option.some.inj (builds.symm.trans builds')
  obtain ⟨sortedOn, perm⟩ := quicksort_spec a 0 ((n : Int) - 1) le_rfl
  set sorted := quicksort a 0 ((n : Int) - 1)
  have span : ((n : Int) - 1 - 0 + 1).toNat = n := by omega
  have permKeys : (Sorted.segment sorted 0 n).Perm keys := holds ▸ span ▸ perm.perm_segment
  have sortedList : (Sorted.segment sorted 0 n).Sorted (· ≤ ·) :=
    SortedOn.sorted_segment fun p lo hi => sortedOn p lo (by omega)
  have distinct' : (Sorted.segment sorted 0 n).Nodup := permKeys.nodup_iff.mpr distinct
  have asBuilt : Sorted.segment sorted 0 n = keys.toFinset.sort (· ≤ ·) :=
    List.eq_of_perm_of_sorted
      ((List.perm_ext_iff_of_nodup distinct' (Finset.sort_nodup _ _)).mpr fun x => by
        rw [permKeys.mem_iff]; simp)
      sortedList (Finset.sort_sorted _ _)
  have start : arrayView sorted flags n = avlInorder built := by
    rw [walk, ← asBuilt, arrayView, Sorted.segment, List.map_map]
    refine List.map_congr_left fun i mem => ?_
    simp [unflagged i (List.mem_range.mp mem)]
  obtain ⟨results, views, -⟩ :=
    searchTargets_refines distinct' sortedOn targets flags built valid start
  refine ⟨sortInts_fit a (by unfold intMin; omega) (by omega), (markTargets built targets).1,
    (markTargets built targets).2, by simp [treeRegistryRun, builds], ?_, results⟩
  have post := filterMarkedArray_post sorted n (searchTargets sorted n targets flags).2
  show Sorted.segment (filterMarkedArray sorted n (searchTargets sorted n targets flags).2).1 0
    (filterMarkedArray sorted n (searchTargets sorted n targets flags).2).2.1.toNat = _
  rw [post.kept, Int.toNat_ofNat, unmarked_eq_view, views]

theorem registries_agree_small :
    [3, 1, 2].Nodup ∧ [3, 1, 2].length ≤ 2 ^ 30 ∧
      Sorted.segment (fun i => [3, 1, 2].getD i.toNat 0) 0 3 = [3, 1, 2] ∧
      (∀ i : Nat, i < 3 → (fun _ => (0 : Int)) i = 0) ∧
      ∃ founds tree, treeRegistryRun [3, 1, 2] [2, 5] = some (founds, tree) ∧
        Sorted.segment (arrayRegistryRun (fun i => [3, 1, 2].getD i.toNat 0) (fun _ => 0) [3, 1, 2]
            [2, 5]).2.1 0
          (arrayRegistryRun (fun i => [3, 1, 2].getD i.toNat 0) (fun _ => 0) [3, 1, 2]
            [2, 5]).2.2.1.toNat =
          ((avlInorder tree).filter fun e => !e.2).map Prod.fst ∧
        (arrayRegistryRun (fun i => [3, 1, 2].getD i.toNat 0) (fun _ => 0) [3, 1, 2]
            [2, 5]).1.map (fun r => decide (0 ≤ r)) = founds := by
  have holds :
      Sorted.segment (fun i => [3, 1, 2].getD i.toNat 0) 0 [3, 1, 2].length = [3, 1, 2] := by
    decide
  exact ⟨by decide, by decide, holds, fun _ _ => rfl,
    (registries_agree _ _ [3, 1, 2] [2, 5] (by decide) (by decide) holds fun _ _ => rfl).2⟩

end ForkscanRegistry.Harness
