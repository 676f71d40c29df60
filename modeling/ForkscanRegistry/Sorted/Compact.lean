import ForkscanRegistry.Sorted.Buffer

/-
Module: ForkscanRegistry.Sorted.Compact
Layer: Model and proofs
Purpose: `filter_marked_array` of `sort_test.c`, which compacts the unmarked entries of a buffer to
  its front in place. The loop copies `arr[i]` to `arr[new_n]` for every `i` with a zero flag;
  since `new_n ≤ i` throughout and nothing at or beyond `new_n` has been written yet, every read
  sees the original entry. `FilterInv` states this, with what the front holds so far; one lemma
  per branch of the loop body keeps it.
  The indices `i` and `new_n` start at 0 and only grow, so they are natural numbers here.
Trusted boundary: none
Main exports: filterLoop, filterMarkedArray, unmarked, FilterInv, FilterPost, filterLoop_inv,
  filterMarkedArray_spec
-/

namespace ForkscanRegistry.Sorted

/-- The loop of `filter_marked_array`, `for (int i = 0; i < *n; i++) if (flags[i] == 0)
{ arr[new_n] = arr[i]; flags[new_n] = 0; new_n++; }`, run for its remaining `count` iterations
from `i`; returns both buffers and `new_n`. -/
def filterLoop : Nat → (Int → Nat) → (Int → Int) → Nat → Nat → (Int → Nat) × (Int → Int) × Nat
  | 0, arr, flags, _, newN => (arr, flags, newN)
  | count + 1, arr, flags, i, newN =>
      if flags i = 0 then
        filterLoop count (Function.update arr newN (arr i)) (Function.update flags newN 0) (i + 1)
          (newN + 1)
      else filterLoop count arr flags (i + 1) newN

/-- `filter_marked_array(arr, &n, flags)`: the buffer, the new `*n` and the flags afterwards. -/
def filterMarkedArray (arr : Int → Nat) (n : Int) (flags : Int → Int) :
    (Int → Nat) × Int × (Int → Int) :=
  let result := filterLoop n.toNat arr flags 0 0
  (result.1, result.2.2, result.2.1)

/-- The entries of `arr[0..n)` whose flag is 0, in their order. -/
def unmarked (arr : Int → Nat) (flags : Int → Int) (n : Nat) : List Nat :=
  ((List.range n).filter fun i : Nat => flags i = 0).map fun i : Nat => arr i

theorem unmarked_succ (arr : Int → Nat) (flags : Int → Int) (i : Nat) :
    unmarked arr flags (i + 1) = unmarked arr flags i ++ if flags i = 0 then [arr i] else [] := by
  unfold unmarked
  rw [List.range_succ, List.filter_append, List.map_append]
  split_ifs with zero <;> simp [zero]

/-- The kept entries are a subsequence of the buffer. -/
theorem unmarked_sublist (arr : Int → Nat) (flags : Int → Int) (n : Nat) :
    (unmarked arr flags n).Sublist (segment arr 0 n) := by
  unfold unmarked segment
  simp only [Int.zero_add]
  exact (List.filter_sublist _).map _

/-- The loop invariant before index `i`: `new_n ≤ i`, `arr[0..new_n)` holds the unmarked entries
of the original `arr[0..i)` with their flags cleared, and nothing outside `[0, new_n)` has been
written. -/
structure FilterInv (arr : Int → Nat) (flags : Int → Int) (arr' : Int → Nat) (flags' : Int → Int)
    (i newN : Nat) : Prop where
  newN_le : newN ≤ i
  kept : segment arr' 0 newN = unmarked arr flags i
  cleared : ∀ k : Nat, k < newN → flags' k = 0
  frame : ∀ k : Int, k < 0 ∨ newN ≤ k → arr' k = arr k ∧ flags' k = flags k

namespace FilterInv

variable {arr arr' : Int → Nat} {flags flags' : Int → Int} {i newN : Nat}

theorem init (arr : Int → Nat) (flags : Int → Int) : FilterInv arr flags arr flags 0 0 :=
  ⟨le_rfl, rfl, fun _ none => absurd none (Nat.not_lt_zero _), fun _ _ => ⟨rfl, rfl⟩⟩

/-- The entry at `i` is still the original one: `new_n ≤ i` and nothing at or beyond `new_n` has
been written. -/
theorem reads_original (inv : FilterInv arr flags arr' flags' i newN) :
    arr' i = arr i ∧ flags' i = flags i :=
  inv.frame i (.inr (by have := inv.newN_le; omega))

/-- An unmarked entry is copied to `new_n`. -/
theorem step_keep (inv : FilterInv arr flags arr' flags' i newN) (zero : flags' i = 0) :
    FilterInv arr flags (Function.update arr' newN (arr' i)) (Function.update flags' newN 0)
      (i + 1) (newN + 1) where
  newN_le := Nat.succ_le_succ inv.newN_le
  kept := by
    obtain ⟨sameArr, sameFlag⟩ := inv.reads_original
    rw [segment_succ, unmarked_succ, ← inv.kept, if_pos (sameFlag ▸ zero), sameArr, Int.zero_add,
      Function.update_same, segment_congr fun k lt => Function.update_noteq (by omega) _ _]
  cleared k lt := by
    by_cases same : k = newN
    · rw [same, Function.update_same]
    · rw [Function.update_noteq (by omega)]
      exact inv.cleared k (by omega)
  frame k out := by
    rw [Function.update_noteq (by omega), Function.update_noteq (by omega)]
    exact inv.frame k (by omega)

/-- A marked entry is skipped. -/
theorem step_skip (inv : FilterInv arr flags arr' flags' i newN) (nonzero : flags' i ≠ 0) :
    FilterInv arr flags arr' flags' (i + 1) newN where
  newN_le := Nat.le_succ_of_le inv.newN_le
  kept := by rw [unmarked_succ, if_neg (inv.reads_original.2 ▸ nonzero), List.append_nil, inv.kept]
  cleared := inv.cleared
  frame := inv.frame

end FilterInv

/-- The whole loop keeps the invariant. -/
theorem filterLoop_inv {arr : Int → Nat} {flags : Int → Int} :
    ∀ (count : Nat) {arr' : Int → Nat} {flags' : Int → Int} {i newN : Nat},
      FilterInv arr flags arr' flags' i newN →
      FilterInv arr flags (filterLoop count arr' flags' i newN).1
        (filterLoop count arr' flags' i newN).2.1 (i + count)
        (filterLoop count arr' flags' i newN).2.2
  | 0, _, _, _, _, inv => inv
  | count + 1, arr', flags', i, newN, inv => by
      unfold filterLoop
      rw [← Nat.add_assoc, Nat.add_right_comm]
      split_ifs with zero
      · exact filterLoop_inv count (inv.step_keep zero)
      · exact filterLoop_inv count (inv.step_skip zero)

/-- The state after the first `c` iterations satisfies the invariant at `i = c`. -/
theorem filterLoop_prefix_inv (arr : Int → Nat) (flags : Int → Int) (c : Nat) :
    FilterInv arr flags (filterLoop c arr flags 0 0).1 (filterLoop c arr flags 0 0).2.1 c
      (filterLoop c arr flags 0 0).2.2 := by
  simpa using filterLoop_inv c (FilterInv.init arr flags)

/-- What `filter_marked_array(arr, &n, flags)` guarantees of its result `(arr', n', flags')`. -/
structure FilterPost (arr : Int → Nat) (n : Int) (flags : Int → Int)
    (result : (Int → Nat) × Int × (Int → Int)) : Prop where
  /-- `n'` is the number of zero flags in `flags[0..n)`. -/
  count : result.2.1 = ((List.range n.toNat).countP fun i : Nat => flags i = 0)
  /-- `arr'[0..n')` is the subsequence of `arr[0..n)` at the positions with a zero flag. -/
  kept : segment result.1 0 result.2.1.toNat = unmarked arr flags n.toNat
  /-- `flags'[0..n')` are all 0. -/
  cleared : ∀ k, 0 ≤ k → k < result.2.1 → result.2.2 k = 0
  /-- Nothing below 0 or at or beyond `n'` changes. -/
  frame : ∀ k, k < 0 ∨ result.2.1 ≤ k → result.1 k = arr k ∧ result.2.2 k = flags k

theorem filterMarkedArray_post (arr : Int → Nat) (n : Int) (flags : Int → Int) :
    FilterPost arr n flags (filterMarkedArray arr n flags) := by
  have final := filterLoop_prefix_inv arr flags n.toNat
  refine ⟨?_, by simpa [filterMarkedArray] using final.kept, fun k nonneg below => ?_,
    fun k out => final.frame k out⟩
  · have lengths := congrArg List.length final.kept
    simp only [segment, unmarked, List.length_map, List.length_range] at lengths
    simp [filterMarkedArray, lengths, List.countP_eq_length_filter]
  · obtain ⟨k, rfl⟩ := Int.eq_ofNat_of_zero_le nonneg
    exact final.cleared k (by simpa [filterMarkedArray] using below)

/-- `filter_marked_array(arr, &n, flags)` meets `FilterPost`, and the copy never overwrites an
entry before reading it: after any number `c` of iterations `new_n ≤ c`, and the entry and flag
the next iteration reads at `i = c` are the original ones. -/
theorem filterMarkedArray_spec (arr : Int → Nat) (n : Int) (flags : Int → Int) :
    FilterPost arr n flags (filterMarkedArray arr n flags) ∧
      ∀ c : Nat, (filterLoop c arr flags 0 0).2.2 ≤ c ∧
        (filterLoop c arr flags 0 0).1 c = arr c ∧ (filterLoop c arr flags 0 0).2.1 c = flags c :=
  ⟨filterMarkedArray_post arr n flags, fun c => ⟨(filterLoop_prefix_inv arr flags c).newN_le,
    (filterLoop_prefix_inv arr flags c).reads_original⟩⟩

end ForkscanRegistry.Sorted
