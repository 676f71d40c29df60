import ForkscanRegistry.Avl.HeightBound
import ForkscanRegistry.Avl.Destroy
import ForkscanRegistry.Harness.QuicksortScenario

/-
Module: ForkscanRegistry.Harness.AvlScenario
Layer: Model and proofs
Purpose: `test_avl_scenario` of `sort_test.c`, the driver of the tree registry. It builds a tree
  from `INITIAL_SIZE` values, then each iteration inserts the `NEW_POINTERS` values of a fresh
  batch one by one and marks the values at the even indices of that batch. Nothing is ever
  removed: marked nodes stay in the tree, so it grows over the whole run. `Tracks` relates a tree
  to the keys it must hold and the keys it must have marked; each `avl_insert` and `avl_mark` of
  the driver keeps it, and by induction over the iterations the tree after `iter` iterations holds
  exactly the values seen so far, marked exactly when they stood at an even index of some batch.
  Its size then bounds its height, and with it the recursion depth of every call, over the run.
  As in `Harness.QuicksortScenario`, the values of `rand()` are whatever the environment supplies
  (`initial`, `batches`); timing and printing are not modelled. Written as its sequence of calls
  from `avl_create`, the run allocates one node per distinct value, and the final `avl_destroy`
  frees each exactly once.
Trusted boundary: none
Main exports: insertBatch, markBatch, avlIteration, avlScenarioAt, ScenarioKey, ScenarioMarked,
  Tracks, avlScenario_contents, avlScenario_calls, scenarioCalls, avlScenario_frees_allocated
-/

namespace ForkscanRegistry.Harness

open Avl

/-! ### The driver -/

/-- The insertion loop of an iteration, `for (int i = 0; i < NEW_POINTERS; i++)
avl_insert(tree, new_array[i]);`, run for its remaining `count` iterations from `i`. An
`avl_insert` that faults ends the run. -/
def insertBatch (newArray : Nat → Nat) : Nat → AvlTree → Nat → Option AvlTree
  | 0, tree, _ => some tree
  | count + 1, tree, i =>
      (avlInsert tree (newArray i)).bind fun result => insertBatch newArray count result.1 (i + 1)

/-- The marking loop of an iteration, `for (int i = 0; i < NEW_POINTERS; i += 2)
avl_mark(tree, new_array[i]);`, run for its remaining `count` iterations from `i`. -/
def markBatch (newArray : Nat → Nat) : Nat → AvlTree → Nat → AvlTree
  | 0, tree, _ => tree
  | count + 1, tree, i => markBatch newArray count (avlMark tree (newArray i)).1 (i + 2)

/-- One iteration of the `for (iter ...)` loop on the tree, once `generate_random_array` has
filled `new_array` with the batch `newArray`: the insertion loop, then the marking loop, which
runs `(NEW_POINTERS + 1) / 2` times. -/
def avlIteration (tree : AvlTree) (newArray : Nat → Nat) : Option AvlTree :=
  (insertBatch newArray newPointers.toNat tree 0).map fun tree' =>
    markBatch newArray ((newPointers + 1) / 2).toNat tree' 0

/-- The tree before the `for (iter ...)` loop: `avl_build_from_array(init_array, INITIAL_SIZE)`,
the `j`-th value of `init_array` being `initial j`. -/
def avlScenarioStart (initial : Nat → Nat) : Option AvlTree :=
  avlBuildFromArray ((List.range initialSize.toNat).map initial)

/-- The tree at the start of iteration `iter`, the `j`-th value of its batch being
`batches iter j`. -/
def avlScenarioAt (initial : Nat → Nat) (batches : Nat → Nat → Nat) : Nat → Option AvlTree
  | 0 => avlScenarioStart initial
  | iter + 1 =>
      (avlScenarioAt initial batches iter).bind fun tree => avlIteration tree (batches iter)

/-! ### What the tree holds -/

/-- A key the tree holds after `iter` iterations: a value of `init_array` or of the batch of an
earlier iteration. -/
def ScenarioKey (initial : Nat → Nat) (batches : Nat → Nat → Nat) (iter k : Nat) : Prop :=
  (∃ j < initialSize.toNat, initial j = k) ∨ ∃ it < iter, ∃ j < newPointers.toNat, batches it j = k

/-- A key marked after `iter` iterations: the value at an even index of an earlier batch. -/
def ScenarioMarked (batches : Nat → Nat → Nat) (iter k : Nat) : Prop :=
  ∃ it < iter, ∃ j < ((newPointers + 1) / 2).toNat, batches it (2 * j) = k

/-- The tree is valid, its in-order walk holds an entry for exactly the keys satisfying `present`,
marked exactly when the key satisfies `marked`, and only present keys are marked. -/
structure Tracks (tree : AvlTree) (present marked : Nat → Prop) : Prop where
  valid : AvlInvariant tree.root
  walk : ∀ k b, (k, b) ∈ avlInorder tree ↔ present k ∧ (b = true ↔ marked k)
  marked_present : ∀ k, marked k → present k

namespace Tracks

variable {tree : AvlTree} {present marked : Nat → Prop}

/-- Only the extension of the two predicates matters. -/
theorem congr (tracks : Tracks tree present marked) {present' marked' : Nat → Prop}
    (samePresent : ∀ k, present k ↔ present' k) (sameMarked : ∀ k, marked k ↔ marked' k) :
    Tracks tree present' marked' :=
  ⟨tracks.valid, fun k b => by rw [tracks.walk, samePresent, sameMarked],
    fun k mark => (samePresent k).mp (tracks.marked_present k ((sameMarked k).mpr mark))⟩

theorem mem_inorder (tracks : Tracks tree present marked) (k : Nat) (b : Bool) :
    (k, b) ∈ tree.root.inorder ↔ present k ∧ (b = true ↔ marked k) :=
  tracks.walk k b

theorem mem_keys (tracks : Tracks tree present marked) (k : Nat) :
    k ∈ tree.root.keys ↔ present k := by
  simp only [AvlNode.keys, List.mem_map, Prod.exists, exists_and_right, exists_eq_right]
  constructor
  · rintro ⟨b, mem⟩
    exact ((tracks.walk k b).mp mem).1
  · intro here
    by_cases mark : marked k
    · exact ⟨true, (tracks.walk k true).mpr ⟨here, iff_of_true rfl mark⟩⟩
    · exact ⟨false, (tracks.walk k false).mpr ⟨here, iff_of_false (by simp) mark⟩⟩

/-- `avl_insert(tree, key)` cannot fault, adds `key` to the present keys unmarked, and returns 1
exactly when `key` was not present. -/
theorem insert (tracks : Tracks tree present marked) (key : Nat) :
    ∃ tree' inserted, avlInsert tree key = some (tree', inserted) ∧
      Tracks tree' (fun k => present k ∨ k = key) marked ∧ (inserted = true ↔ ¬ present key) := by
  obtain ⟨tree', inserted, inserts, valid'⟩ := avlInsert_invariant tracks.valid key
  obtain ⟨walk', reports⟩ := insertNode_inorder tracks.valid.ordered (avlInsert_eq_some.mp inserts)
  rw [tracks.mem_keys] at reports
  refine ⟨tree', inserted, inserts, ⟨valid', fun k b => ?_, fun k mark =>
    .inl (tracks.marked_present k mark)⟩, reports⟩
  show (k, b) ∈ tree'.root.inorder ↔ _
  rw [walk']
  by_cases here : present key
  · rw [insertEntry_eq_self tracks.valid.ordered ((tracks.mem_keys key).mpr here)]
    exact (tracks.mem_inorder k b).trans
      (and_congr_left' (or_iff_left_of_imp fun same => same ▸ here).symm)
  · rw [mem_insertEntry_iff (mt (tracks.mem_keys key).mp here), tracks.mem_inorder k b]
    by_cases same : k = key
    · subst same
      have unmarked : ¬ marked k := mt (tracks.marked_present k) here
      cases b <;> simp [here, unmarked]
    · simp [same]

/-- `avl_mark(tree, key)` for a present key returns 1 and adds `key` to the marked keys. -/
theorem mark (tracks : Tracks tree present marked) {key : Nat} (found : present key) :
    Tracks (avlMark tree key).1 present (fun k => marked k ∨ k = key) ∧
      (avlMark tree key).2 = true := by
  obtain ⟨walk', reports⟩ := @markNode_inorder key _ tracks.valid.ordered
  refine ⟨⟨avlMark_invariant tracks.valid key, fun k b => ?_, fun k mark =>
    mark.elim (tracks.marked_present k) fun same => same ▸ found⟩,
    reports.mpr ((tracks.mem_keys key).mpr found)⟩
  show (k, b) ∈ (markNode tree.root key).1.inorder ↔ _
  rw [walk', mem_markEntry]
  by_cases same : k = key
  · subst same
    obtain ⟨⟨k', b'⟩, held, rfl⟩ := List.mem_map.mp ((tracks.mem_keys k).mpr found)
    simp only [true_and, ne_eq, not_true_eq_false, false_and, or_false, or_true, iff_true, found]
    exact ⟨fun ⟨set, _⟩ => set, fun set => ⟨set, b', held⟩⟩
  · simp [same, tracks.mem_inorder k b]

/-- The insertion loop from `i` adds the `count` values `newArray i, ...` to the present keys. -/
theorem insertBatch (newArray : Nat → Nat) :
    ∀ (count : Nat) {tree : AvlTree} {present : Nat → Prop} (i : Nat),
      Tracks tree present marked →
      ∃ tree', Harness.insertBatch newArray count tree i = some tree' ∧
        Tracks tree' (fun k => present k ∨ ∃ j < count, newArray (i + j) = k) marked
  | 0, tree, _, _, tracks => ⟨tree, rfl, tracks.congr (fun k => by simp) fun _ => Iff.rfl⟩
  | count + 1, tree, present, i, tracks => by
      obtain ⟨tree₁, _, inserts, tracks₁, -⟩ := tracks.insert (newArray i)
      obtain ⟨tree₂, runs, tracks₂⟩ := insertBatch newArray count (i + 1) tracks₁
      refine ⟨tree₂, by simp [Harness.insertBatch, inserts, runs], tracks₂.congr (fun k => ?_)
        fun _ => Iff.rfl⟩
      constructor
      · rintro ((old | rfl) | ⟨j, below, rfl⟩)
        · exact .inl old
        · exact .inr ⟨0, by omega, rfl⟩
        · exact .inr ⟨j + 1, by omega, by rw [Nat.add_right_comm, Nat.add_assoc]⟩
      · rintro (old | ⟨j, below, rfl⟩)
        · exact .inl (.inl old)
        · rcases j with _ | j
          · exact .inl (.inr rfl)
          · exact .inr ⟨j, by omega, by rw [Nat.add_right_comm, Nat.add_assoc]⟩

/-- The marking loop from `i` adds the `count` values `newArray i, newArray (i + 2), ...` to the
marked keys, provided they are present. -/
theorem markBatch (newArray : Nat → Nat) :
    ∀ (count : Nat) {tree : AvlTree} {marked : Nat → Prop} (i : Nat),
      Tracks tree present marked → (∀ j < count, present (newArray (i + 2 * j))) →
      Tracks (Harness.markBatch newArray count tree i) present
        (fun k => marked k ∨ ∃ j < count, newArray (i + 2 * j) = k)
  | 0, tree, _, _, tracks, _ => tracks.congr (fun _ => Iff.rfl) fun k => by
      simp only [Nat.not_lt_zero, false_and, exists_false, or_false]
  | count + 1, tree, marked, i, tracks, found => by
      have tracks₁ := (tracks.mark (found 0 (by omega))).1
      have tracks₂ := markBatch newArray count (i + 2) tracks₁ fun j below => by
        rw [show i + 2 + 2 * j = i + 2 * (j + 1) by omega]
        exact found (j + 1) (by omega)
      refine tracks₂.congr (fun _ => Iff.rfl) fun k => ?_
      constructor
      · rintro ((old | rfl) | ⟨j, below, rfl⟩)
        · exact .inl old
        · exact .inr ⟨0, by omega, rfl⟩
        · exact .inr ⟨j + 1, by omega, by rw [show i + 2 * (j + 1) = i + 2 + 2 * j by omega]⟩
      · rintro (old | ⟨j, below, rfl⟩)
        · exact .inl (.inl old)
        · rcases j with _ | j
          · exact .inl (.inr rfl)
          · exact .inr ⟨j, by omega, by rw [show i + 2 + 2 * j = i + 2 * (j + 1) by omega]⟩

/-- One iteration cannot fault: it adds the batch to the present keys and its even-index
values to the marked ones. -/
theorem iteration (tracks : Tracks tree present marked) (newArray : Nat → Nat) :
    ∃ tree', avlIteration tree newArray = some tree' ∧
      Tracks tree' (fun k => present k ∨ ∃ j < newPointers.toNat, newArray j = k)
        (fun k => marked k ∨ ∃ j < ((newPointers + 1) / 2).toNat, newArray (2 * j) = k) := by
  obtain ⟨tree₁, inserts, tracks₁⟩ := tracks.insertBatch newArray newPointers.toNat 0
  have tracks₂ := tracks₁.markBatch newArray ((newPointers + 1) / 2).toNat 0 fun j below =>
    .inr ⟨2 * j, by unfold newPointers at *; omega, rfl⟩
  refine ⟨_, by rw [avlIteration, inserts]; rfl, tracks₂.congr (fun k => ?_) fun k => ?_⟩
  · simp only [Nat.zero_add]
  · simp only [Nat.zero_add]

end Tracks

/-- `avl_build_from_array(keys, n)` holds the values of `keys[0..n)`, none marked. -/
theorem avlBuildFromArray_tracks (keys : List Nat) :
    ∃ tree, avlBuildFromArray keys = some tree ∧ Tracks tree (· ∈ keys) fun _ => False := by
  obtain ⟨tree, builds, walk⟩ := avlBuildFromArray_inorder keys
  obtain ⟨tree', builds', valid⟩ := avlBuildFromArray_invariant keys
  obtain rfl : tree = tree' := Option.some.inj (builds.symm.trans builds')
  refine ⟨tree, builds, valid, fun k b => ?_, fun _ => False.elim⟩
  rw [walk]
  simp only [List.mem_map, Finset.mem_sort, List.mem_toFinset, Prod.mk.injEq, iff_false,
    Bool.not_eq_true]
  constructor
  · rintro ⟨_, mem, rfl, rfl⟩
    exact ⟨mem, rfl⟩
  · rintro ⟨mem, rfl⟩
    exact ⟨_, mem, rfl, rfl⟩

/-- Every iteration starts from a tree reached without a fault, holding the values seen so far
and marking those seen at an even index of a batch. -/
theorem avlScenarioAt_tracks (initial : Nat → Nat) (batches : Nat → Nat → Nat) :
    ∀ iter, ∃ tree, avlScenarioAt initial batches iter = some tree ∧
      Tracks tree (ScenarioKey initial batches iter) (ScenarioMarked batches iter)
  | 0 => by
      obtain ⟨tree, builds, tracks⟩ :=
        avlBuildFromArray_tracks ((List.range initialSize.toNat).map initial)
      exact ⟨tree, builds, tracks.congr
        (fun k => by simp only [ScenarioKey, List.mem_map, List.mem_range, Nat.not_lt_zero,
          false_and, exists_false, or_false])
        fun k => by simp only [ScenarioMarked, Nat.not_lt_zero, false_and, exists_false]⟩
  | iter + 1 => by
      obtain ⟨tree, reaches, tracks⟩ := avlScenarioAt_tracks initial batches iter
      obtain ⟨tree', runs, tracks'⟩ := tracks.iteration (batches iter)
      refine ⟨tree', by rw [avlScenarioAt, reaches, Option.some_bind, runs],
        tracks'.congr (fun k => ?_) fun k => ?_⟩
      · simp only [ScenarioKey, Nat.exists_lt_succ_right, or_assoc]
      · simp only [ScenarioMarked, Nat.exists_lt_succ_right]

/-- The values of `init_array` and of the first `iter` batches, in the order they are generated. -/
def scenarioValues (initial : Nat → Nat) (batches : Nat → Nat → Nat) : Nat → List Nat
  | 0 => (List.range initialSize.toNat).map initial
  | iter + 1 =>
      scenarioValues initial batches iter ++ (List.range newPointers.toNat).map (batches iter)

theorem mem_scenarioValues (initial : Nat → Nat) (batches : Nat → Nat → Nat) (k : Nat) :
    ∀ iter, k ∈ scenarioValues initial batches iter ↔ ScenarioKey initial batches iter k
  | 0 => by
      simp only [scenarioValues, ScenarioKey, List.mem_map, List.mem_range, Nat.not_lt_zero,
        false_and, exists_false, or_false]
  | iter + 1 => by
      simp only [scenarioValues, List.mem_append, mem_scenarioValues initial batches k iter,
        ScenarioKey, Nat.exists_lt_succ_right, List.mem_map, List.mem_range, or_assoc]

theorem length_scenarioValues (initial : Nat → Nat) (batches : Nat → Nat → Nat) :
    ∀ iter, (scenarioValues initial batches iter).length =
      initialSize.toNat + iter * newPointers.toNat
  | 0 => by simp [scenarioValues]
  | iter + 1 => by
      simp only [scenarioValues, List.length_append, length_scenarioValues initial batches iter,
        List.length_map, List.length_range, Nat.succ_mul, Nat.add_assoc]

/-! ### Height and recursion depth over the run -/

/-- Every descent into the tree, and so the recursion of `insert_node`, `contains_node` and
`mark_node` on it for any key, makes at most 36 nested calls, and every stored height is at most
36. -/
def Shallow (tree : AvlTree) : Prop :=
  (∀ key, descentDepth tree.root key ≤ 36) ∧ tree.root.AllHeightsBelow 37

/-- A tree holding only values from a list has no more nodes than the list has entries. -/
theorem Tracks.size_le {tree : AvlTree} {present marked : Nat → Prop}
    (tracks : Tracks tree present marked) {values : List Nat}
    (within : ∀ k, present k → k ∈ values) : tree.root.size ≤ values.length := by
  rw [← AvlNode.length_inorder, ← List.length_map _ Prod.fst]
  exact (List.subperm_of_subset tracks.valid.ordered.nodup fun k mem =>
    within k ((tracks.mem_keys k).mp mem)).length_le

/-- A valid tree of at most `INITIAL_SIZE + ITERATIONS * NEW_POINTERS` nodes is shallow: its
height `h` has `Fib (h + 2)` at most one more than its size, and `Fib 39` exceeds that. -/
theorem shallow_of_size {tree : AvlTree} (valid : AvlInvariant tree.root)
    (small : tree.root.size ≤ 50001000) : Shallow tree := by
  have fib_le := fib_height_le_size valid.heightsExact valid.balanced
  have low : tree.root.height ≤ 36 := by
    by_contra tall
    have reaches := Nat.fib_mono (show 39 ≤ tree.root.height + 2 by omega)
    have huge : 50001001 < Nat.fib 39 := by decide
    omega
  exact ⟨fun key => (descentDepth_le_height key valid.heightsExact).trans low,
    allHeightsBelow_of_height_lt valid.heightsExact (by omega)⟩

/-- A tree the run reaches within its `ITERATIONS` iterations is shallow. -/
theorem Tracks.shallow {tree : AvlTree} {present marked : Nat → Prop}
    (tracks : Tracks tree present marked) {initial : Nat → Nat} {batches : Nat → Nat → Nat}
    {iter : Nat} (running : iter ≤ 100)
    (within : ∀ k, present k → ScenarioKey initial batches iter k) :
    Shallow tree := by
  have size := tracks.size_le fun k here =>
    (mem_scenarioValues initial batches k iter).mpr (within k here)
  rw [length_scenarioValues, show initialSize.toNat = 1000 from rfl,
    show newPointers.toNat = 500000 from rfl] at size
  exact shallow_of_size tracks.valid (by omega)

/-- In `test_avl_scenario`, for any values `rand()` returns and after any number of iterations,
no `avl_insert` has faulted and the tree satisfies the AVL invariant; its in-order walk has one
entry for each distinct value of `init_array` and of the batches so far, marked exactly when the
value stood at an even index of one of those batches. No value is lost, none appears that was not
generated, a mark is never cleared, and a value generated again keeps its mark. -/
theorem avlScenario_contents (initial : Nat → Nat) (batches : Nat → Nat → Nat) (iter : Nat) :
    ∃ tree, avlScenarioAt initial batches iter = some tree ∧ AvlInvariant tree.root ∧
      ∀ k b, (k, b) ∈ avlInorder tree ↔
        ScenarioKey initial batches iter k ∧ (b = true ↔ ScenarioMarked batches iter k) := by
  obtain ⟨tree, reaches, tracks⟩ := avlScenarioAt_tracks initial batches iter
  exact ⟨tree, reaches, tracks.valid, tracks.walk⟩

/-- Every call `test_avl_scenario` makes in its `ITERATIONS` iterations runs on a shallow tree,
whatever values `rand()` returns: the `c`-th `avl_insert` of `avl_build_from_array` runs on the
tree built from the first `c` values, the `c`-th `avl_insert` of iteration `iter` on the tree
after `c` insertions of that iteration, and its `c`-th `avl_mark` on the tree after all of them
and `c` marks. So no `insert_node` or `mark_node` recursion is more than 36 calls deep and no
height field exceeds 36. Moreover every `avl_mark` of the scenario returns 1: the value it marks
was inserted earlier in the same iteration. -/
theorem avlScenario_calls (initial : Nat → Nat) (batches : Nat → Nat → Nat) (iter : Nat)
    (running : (iter : Int) < iterations) :
    (∀ c < initialSize.toNat, ∃ tree,
      avlBuildFromArray ((List.range c).map initial) = some tree ∧ Shallow tree) ∧
    (∀ c < newPointers.toNat, ∃ tree,
      (avlScenarioAt initial batches iter).bind (fun t => insertBatch (batches iter) c t 0) =
        some tree ∧ Shallow tree) ∧
    ∀ c < ((newPointers + 1) / 2).toNat, ∃ tree,
      ((avlScenarioAt initial batches iter).bind fun t =>
        (insertBatch (batches iter) newPointers.toNat t 0).map fun t' =>
          markBatch (batches iter) c t' 0) = some tree ∧
        Shallow tree ∧ (avlMark tree (batches iter (2 * c))).2 = true := by
  have last : iter + 1 ≤ 100 := by unfold iterations at running; omega
  have pts : newPointers.toNat = 500000 := rfl
  have half : ((newPointers + 1) / 2).toNat = 250000 := rfl
  obtain ⟨tree, reaches, tracks⟩ := avlScenarioAt_tracks initial batches iter
  have within : ∀ c ≤ newPointers.toNat, ∀ k, (ScenarioKey initial batches iter k ∨
      ∃ j < c, batches iter (0 + j) = k) → ScenarioKey initial batches (iter + 1) k := by
    rintro c few k (old | ⟨j, below, rfl⟩)
    · rcases old with init | ⟨it, earlier, j, below, rfl⟩
      · exact .inl init
      · exact .inr ⟨it, by omega, j, below, rfl⟩
    · exact .inr ⟨iter, by omega, j, by omega, by rw [Nat.zero_add]⟩
  obtain ⟨full, inserts, tracksFull⟩ := tracks.insertBatch (batches iter) newPointers.toNat 0
  refine ⟨fun c few => ?_, fun c few => ?_, fun c few => ?_⟩
  · obtain ⟨built, builds, tracksBuilt⟩ := avlBuildFromArray_tracks ((List.range c).map initial)
    have size := tracksBuilt.size_le fun _ mem => mem
    rw [List.length_map, List.length_range] at size
    exact ⟨built, builds, shallow_of_size tracksBuilt.valid (by unfold initialSize at few; omega)⟩
  · obtain ⟨midway, runs, tracksMidway⟩ := tracks.insertBatch (batches iter) c 0
    exact ⟨midway, by rw [reaches, Option.some_bind, runs],
      tracksMidway.shallow last (within c few.le)⟩
  · have found : ∀ j < c, (ScenarioKey initial batches iter (batches iter (0 + 2 * j)) ∨
        ∃ j' < newPointers.toNat, batches iter (0 + j') = batches iter (0 + 2 * j)) :=
      fun j below => .inr ⟨2 * j, by omega, rfl⟩
    have tracksMarked := tracksFull.markBatch (batches iter) c 0 found
    refine ⟨_, by rw [reaches, Option.some_bind, inserts]; rfl,
      tracksMarked.shallow last (within _ le_rfl), ?_⟩
    simpa only [Nat.zero_add] using (tracksMarked.mark (.inr ⟨2 * c, by omega, rfl⟩)).2

theorem avlScenario_calls_first :
    ((0 : Nat) : Int) < iterations ∧ ∀ c < initialSize.toNat, ∃ tree,
      avlBuildFromArray ((List.range c).map id) = some tree ∧ Shallow tree :=
  ⟨by decide, (avlScenario_calls id (fun _ j => j) 0 (by decide)).1⟩

/-! ### Memory over the run -/

/-- The calls one iteration makes on the tree: `avl_insert` of each value of the batch, then
`avl_mark` of each value at an even index. -/
def iterationCalls (newArray : Nat → Nat) : List AvlCall :=
  (List.range newPointers.toNat).map (fun j => .insert (newArray j)) ++
    (List.range ((newPointers + 1) / 2).toNat).map fun j => .mark (newArray (2 * j))

/-- Every call `test_avl_scenario` makes on the tree in its first `iter` iterations, starting with
the insertions of `avl_build_from_array`. -/
def scenarioCalls (initial : Nat → Nat) (batches : Nat → Nat → Nat) : Nat → List AvlCall
  | 0 => (List.range initialSize.toNat).map fun j => .insert (initial j)
  | iter + 1 => scenarioCalls initial batches iter ++ iterationCalls (batches iter)

theorem runCalls_append (tree : AvlTree) (first rest : List AvlCall) :
    runCalls tree (first ++ rest) = (runCalls tree first).bind (runCalls · rest) :=
  List.foldlM_append _ _ _ _

theorem insertBatch_eq_runCalls (newArray : Nat → Nat) : ∀ (count : Nat) (tree : AvlTree) (i : Nat),
    insertBatch newArray count tree i =
      runCalls tree ((List.range count).map fun j => .insert (newArray (i + j)))
  | 0, _, _ => rfl
  | count + 1, tree, i => by
      rw [List.range_succ_eq_map, List.map_cons, List.map_map, runCalls_cons, insertBatch]
      simp only [applyCall, Nat.add_zero, Option.bind_map, Function.comp_def,
        insertBatch_eq_runCalls newArray count _ (i + 1), Nat.add_assoc, Nat.add_comm 1]

theorem markBatch_eq_runCalls (newArray : Nat → Nat) : ∀ (count : Nat) (tree : AvlTree) (i : Nat),
    runCalls tree ((List.range count).map fun j => .mark (newArray (i + 2 * j))) =
      some (markBatch newArray count tree i)
  | 0, _, _ => rfl
  | count + 1, tree, i => by
      rw [List.range_succ_eq_map, List.map_cons, List.map_map, runCalls_cons, markBatch]
      simp only [applyCall, Nat.mul_zero, Nat.add_zero, Option.some_bind, Function.comp_def,
        ← markBatch_eq_runCalls newArray count _ (i + 2), Nat.mul_succ, Nat.add_assoc,
        Nat.add_comm 2]

/-- One iteration is the run of its calls. -/
theorem avlIteration_eq_runCalls (tree : AvlTree) (newArray : Nat → Nat) :
    avlIteration tree newArray = runCalls tree (iterationCalls newArray) := by
  have inserts := insertBatch_eq_runCalls newArray newPointers.toNat tree 0
  simp only [Nat.zero_add] at inserts
  rw [avlIteration, iterationCalls, runCalls_append, ← inserts]
  cases insertBatch newArray newPointers.toNat tree 0 with
  | none => rfl
  | some inserted =>
      have marks := markBatch_eq_runCalls newArray ((newPointers + 1) / 2).toNat inserted 0
      simp only [Nat.zero_add] at marks
      rw [Option.map_some', Option.some_bind, marks]

/-- The driver's tree after `iter` iterations is the run of its calls from `avl_create`. -/
theorem avlScenarioAt_eq_runCalls (initial : Nat → Nat) (batches : Nat → Nat → Nat) :
    ∀ iter, avlScenarioAt initial batches iter =
      runCalls avlCreate (scenarioCalls initial batches iter)
  | 0 => by
      rw [avlScenarioAt, avlScenarioStart, avlBuildFromArray_eq_runCalls, scenarioCalls,
        List.map_map]
      rfl
  | iter + 1 => by
      rw [avlScenarioAt, scenarioCalls, runCalls_append,
        ← avlScenarioAt_eq_runCalls initial batches iter]
      simp only [avlIteration_eq_runCalls]

/-- Over the whole of `test_avl_scenario`, whatever values `rand()` returns: the run allocates
distinct nodes, exactly one for each distinct value it generates, and they are the nodes of the
tree it ends with; the `avl_destroy(tree)` it ends with touches only live nodes and, starting from
those allocations, frees every one of them exactly once (a second free of a node would touch a node
no longer live). -/
theorem avlScenario_frees_allocated (initial : Nat → Nat) (batches : Nat → Nat → Nat) :
    ∃ tree allocated, avlScenarioAt initial batches iterations.toNat = some tree ∧
      runAllocations avlCreate (scenarioCalls initial batches iterations.toNat) =
        some (tree, allocated) ∧
      allocated.Nodup ∧
      (∀ x, x ∈ allocated ↔ x ∈ scenarioValues initial batches iterations.toNat) ∧
      allocated.length = (scenarioValues initial batches iterations.toNat).toFinset.card ∧
      (∀ x, x ∈ tree.root.keys ↔ x ∈ allocated) ∧
      replayAccesses allocated.toFinset (avlDestroy tree) = some ∅ := by
  obtain ⟨tree, allocated, runs, nodup, keys', frees⟩ :=
    runAllocations_destroy (scenarioCalls initial batches iterations.toNat)
  have reaches : avlScenarioAt initial batches iterations.toNat = some tree := by
    rw [avlScenarioAt_eq_runCalls, ← runAllocations_map_fst, runs]
    rfl
  obtain ⟨tree', reaches', tracks⟩ := avlScenarioAt_tracks initial batches iterations.toNat
  obtain rfl : tree = tree' := Option.some.inj (reaches.symm.trans reaches')
  have values : ∀ x, x ∈ allocated ↔ x ∈ scenarioValues initial batches iterations.toNat :=
    fun x => by rw [← keys', tracks.mem_keys, mem_scenarioValues]
  refine ⟨tree, allocated, reaches, runs, nodup, values, ?_, keys', frees⟩
  rw [← List.toFinset_card_of_nodup nodup]
  exact congrArg Finset.card (Finset.ext fun x => by simp only [List.mem_toFinset, values])

end ForkscanRegistry.Harness
