import Mathlib.Logic.Equiv.Basic
import Mathlib.Data.List.Sort
import Mathlib.Data.List.Nodup

/-
Module: ForkscanRegistry.Sorted.Buffer
Layer: Model
Purpose: The raw buffers of the sorted-array registry (`sort_test.c`). A `size_t *` buffer is a
  total map from `int` indices to values and an `int *` flag buffer a map to `Int`; the functions
  of the registry read and write only inside their ranges, which the proofs establish. This
  module holds `swap`, the only write the sort performs, and the two range properties every sort
  lemma is stated with: `PermOn` (the entries of a range permuted among themselves, everything
  outside untouched) and `SortedOn` (non-decreasing on a range, stated on neighbours), and the
  range of C's `int`, against which overflow is stated.
Trusted boundary: none
Main exports: swap, FitsInt, PermOn, segment, SortedOn, PermOn.perm_segment, SortedOn.sorted_segment
-/

namespace ForkscanRegistry.Sorted

/-- `swap(addrs, n, m)`: `tmp = addrs[n]; addrs[n] = addrs[m]; addrs[m] = tmp`. -/
def swap (addrs : Int → Nat) (n m : Int) : Int → Nat :=
  let tmp := addrs n
  Function.update (Function.update addrs n (addrs m)) m tmp

/-- The swap reads the buffer through the transposition of the two indices. -/
theorem swap_eq_comp (addrs : Int → Nat) (n m : Int) :
    swap addrs n m = addrs ∘ Equiv.swap n m := by
  funext i
  simp only [swap, Function.update_apply, Function.comp, Equiv.swap_apply_def]
  split_ifs <;> simp_all

theorem swap_apply_of_ne {addrs : Int → Nat} {n m i : Int} (hn : i ≠ n) (hm : i ≠ m) :
    swap addrs n m i = addrs i := by
  rw [swap_eq_comp, Function.comp, Equiv.swap_apply_of_ne_of_ne hn hm]

@[simp] theorem swap_apply_left (addrs : Int → Nat) (n m : Int) :
    swap addrs n m n = addrs m := by
  rw [swap_eq_comp, Function.comp, Equiv.swap_apply_left]

@[simp] theorem swap_apply_right (addrs : Int → Nat) (n m : Int) :
    swap addrs n m m = addrs n := by
  rw [swap_eq_comp, Function.comp, Equiv.swap_apply_right]

/-- `INT_MAX` of the target's 32-bit `int`. -/
def intMax : Int := 2147483647

/-- `INT_MIN` of the target's 32-bit `int`. -/
def intMin : Int := -2147483648

/-- `x` is a value of C's `int`: computing it did not overflow. -/
def FitsInt (x : Int) : Prop := intMin ≤ x ∧ x ≤ intMax

instance : DecidablePred FitsInt := fun x => inferInstanceAs (Decidable (intMin ≤ x ∧ x ≤ intMax))

/-- `b` is `a` with the entries at indices `lo..hi` permuted among themselves and every entry
outside the range untouched. -/
def PermOn (lo hi : Int) (a b : Int → Nat) : Prop :=
  ∃ σ : Equiv.Perm Int, (∀ i, i < lo ∨ hi < i → σ i = i) ∧ b = a ∘ σ

/-- `a[lo .. lo + len)` as a list. -/
def segment (a : Int → Nat) (lo : Int) (len : Nat) : List Nat :=
  (List.range len).map fun i : Nat => a (lo + i)

/-- `a[lo..hi]` is non-decreasing, stated on neighbours. -/
def SortedOn (a : Int → Nat) (lo hi : Int) : Prop :=
  ∀ p, lo ≤ p → p < hi → a p ≤ a (p + 1)

theorem segment_succ (a : Int → Nat) (lo : Int) (len : Nat) :
    segment a lo (len + 1) = segment a lo len ++ [a (lo + len)] := by
  simp [segment, List.range_succ]

/-- A segment reads only the entries inside it. -/
theorem segment_congr {a b : Int → Nat} {lo : Int} {len : Nat}
    (same : ∀ i : Nat, i < len → a (lo + i) = b (lo + i)) : segment a lo len = segment b lo len :=
  List.map_congr_left fun i mem => same i (List.mem_range.mp mem)

namespace PermOn

variable {lo hi : Int} {a b c : Int → Nat}

theorem refl (lo hi : Int) (a : Int → Nat) : PermOn lo hi a a :=
  ⟨Equiv.refl _, fun _ _ => rfl, rfl⟩

theorem trans (first : PermOn lo hi a b) (second : PermOn lo hi b c) : PermOn lo hi a c := by
  obtain ⟨σ, fixσ, rfl⟩ := first
  obtain ⟨τ, fixτ, rfl⟩ := second
  exact ⟨τ.trans σ, fun i out => by simp [fixτ i out, fixσ i out], rfl⟩

theorem widen {lo' hi' : Int} (perm : PermOn lo hi a b) (low : lo' ≤ lo) (high : hi ≤ hi') :
    PermOn lo' hi' a b := by
  obtain ⟨σ, fix, rfl⟩ := perm
  exact ⟨σ, fun i out => fix i (by omega), rfl⟩

theorem of_swap {n m : Int} (nIn : lo ≤ n ∧ n ≤ hi) (mIn : lo ≤ m ∧ m ≤ hi) :
    PermOn lo hi a (swap a n m) :=
  ⟨Equiv.swap n m, fun _ out => Equiv.swap_apply_of_ne_of_ne (by omega) (by omega),
    swap_eq_comp a n m⟩

/-- Entries outside the range are untouched. -/
theorem apply_of_out {i : Int} (perm : PermOn lo hi a b) (out : i < lo ∨ hi < i) : b i = a i := by
  obtain ⟨σ, fix, rfl⟩ := perm
  simp [fix i out]

/-- A permutation fixing everything outside a range maps the range into itself. -/
theorem mem_range_of_fix {σ : Equiv.Perm Int} (fix : ∀ i, i < lo ∨ hi < i → σ i = i) {i : Int}
    (low : lo ≤ i) (high : i ≤ hi) : lo ≤ σ i ∧ σ i ≤ hi := by
  by_contra out
  have moved : σ (σ i) = σ i := fix _ (by omega)
  have same : σ i = i := σ.injective moved
  omega

/-- Any property of every entry of the range holds after the permutation. -/
theorem forall_range (perm : PermOn lo hi a b) (P : Nat → Prop)
    (all : ∀ k, lo ≤ k → k ≤ hi → P (a k)) : ∀ k, lo ≤ k → k ≤ hi → P (b k) := by
  obtain ⟨σ, fix, rfl⟩ := perm
  intro k low high
  obtain ⟨low', high'⟩ := mem_range_of_fix fix low high
  exact all _ low' high'

/-- The range's contents, read as a list, are a permutation of the original ones. -/
theorem perm_segment (perm : PermOn lo hi a b) :
    (segment b lo (hi - lo + 1).toNat).Perm (segment a lo (hi - lo + 1).toNat) := by
  obtain ⟨σ, fix, rfl⟩ := perm
  have back : ∀ i, i < lo ∨ hi < i → σ.symm i = i := fun i out => by
    rw [Equiv.symm_apply_eq, fix i out]
  let idx := (List.range (hi - lo + 1).toNat).map fun i : Nat => lo + i
  have nodupIdx : idx.Nodup := (List.nodup_range _).map fun i j same => by omega
  have memIdx : ∀ x, x ∈ idx ↔ lo ≤ x ∧ x ≤ hi := fun x => by
    simp only [idx, List.mem_map, List.mem_range]
    constructor
    · rintro ⟨i, lt, rfl⟩; omega
    · intro inside; exact ⟨(x - lo).toNat, by omega, by omega⟩
  have permIdx : (idx.map σ).Perm idx := by
    refine (List.perm_ext_iff_of_nodup (nodupIdx.map σ.injective) nodupIdx).mpr fun x => ?_
    rw [List.mem_map, memIdx]
    constructor
    · rintro ⟨i, mem, rfl⟩; exact mem_range_of_fix fix ((memIdx i).mp mem).1 ((memIdx i).mp mem).2
    · intro inside
      obtain ⟨low, high⟩ := mem_range_of_fix back inside.1 inside.2
      exact ⟨σ.symm x, (memIdx _).mpr ⟨low, high⟩, σ.apply_symm_apply x⟩
  have asMap : ∀ f : Int → Nat, segment f lo (hi - lo + 1).toNat = idx.map f := fun f => by
    simp only [segment, idx, List.map_map]
    rfl
  rw [asMap, asMap, ← List.map_map]
  exact permIdx.map a

end PermOn

namespace SortedOn

variable {a : Int → Nat} {lo hi : Int}

/-- Neighbour-wise order gives order between any two entries of the range. -/
theorem le (sorted : SortedOn a lo hi) {p q : Int} (low : lo ≤ p) (pq : p ≤ q) (high : q ≤ hi) :
    a p ≤ a q := by
  obtain ⟨d, rfl⟩ : ∃ d : Nat, q = p + d := ⟨(q - p).toNat, by omega⟩
  induction d with
  | zero => simp
  | succ d ih =>
      calc a p ≤ a (p + d) := ih (by omega) (by omega)
        _ ≤ a (p + d + 1) := sorted _ (by omega) (by omega)
        _ = a (p + ↑(d + 1)) := congrArg a (by omega)

/-- The range read as a list is sorted. -/
theorem sorted_segment {len : Nat} (sorted : SortedOn a lo (lo + len - 1)) :
    (segment a lo len).Sorted (· ≤ ·) := by
  unfold segment
  rw [List.Sorted, List.pairwise_map, List.pairwise_iff_get]
  intro i j lt
  simp only [List.get_eq_getElem, List.getElem_range]
  have := i.isLt; have := j.isLt
  simp only [List.length_range] at *
  exact sorted.le (by omega) (by simp only [Fin.lt_def] at lt; omega) (by omega)

end SortedOn

end ForkscanRegistry.Sorted
