import ForkscanRegistry.Avl.Refinement
import Mathlib.Data.Finset.Basic

/-
Module: ForkscanRegistry.Avl.Destroy
Layer: Model and proofs
Purpose: The memory discipline of `avl.c` over a whole run: `new_node` allocates, `avl_destroy`
  frees. A node is named by its key, which is sound because the keys of a tree satisfying the
  invariant are distinct and no function of `avl.c` rewrites a node's key. `destroy_node` is
  modelled by the accesses it makes (loading `node->left` and `node->right`, then `free(node)`),
  and `replayAccesses` is the heap's view of them: touching a node that is not live, whether freed
  already or never allocated, is a fault. Over any sequence of `avl_insert` and `avl_mark` calls
  from `avl_create`, recorded with the key of every node `new_node` allocates (`runAllocations`),
  `avl_destroy` touches only live nodes and frees every allocated node exactly once.
Trusted boundary: `free` of the `avl_tree_t` handle touches no node and is left out.
Main exports: Access, destroyNode, avlDestroy, replayAccesses, runAllocations,
  replayAccesses_destroyNode, runAllocations_keys, runAllocations_destroy
-/

namespace ForkscanRegistry.Avl

open AvlNode

/-- An access `destroy_node` makes to a node, named by its key. -/
inductive Access
  /-- Loading `node->left` or `node->right`. -/
  | read (key : Nat)
  /-- `free(node)`. -/
  | free (key : Nat)
deriving DecidableEq, Repr

/-- `destroy_node(node)`: the accesses in program order. The call on the left child loads
`node->left`, the call on the right child loads `node->right`, and the node is freed last. -/
def destroyNode : AvlNode → List Access
  | null => []
  | node k _ _ left right =>
      .read k :: destroyNode left ++ .read k :: destroyNode right ++ [.free k]

/-- `avl_destroy(tree)`: the accesses of `destroy_node(tree->root)`. -/
def avlDestroy (tree : AvlTree) : List Access := destroyNode tree.root

/-- The heap's view of a sequence of accesses from the live nodes `live`: a read of a live node is
allowed, a free ends its life, and touching a node that is not live is a fault (`none`). The result
is the nodes still live. -/
def replayAccesses (live : Finset Nat) : List Access → Option (Finset Nat)
  | [] => some live
  | .read k :: rest => if k ∈ live then replayAccesses live rest else none
  | .free k :: rest => if k ∈ live then replayAccesses (live.erase k) rest else none

/-- A run of calls from `tree` that also records the key of every node `new_node` allocates:
`insert_node` calls `new_node` exactly where it reaches `NULL`, which is where `inserted` becomes 1,
so `avl_insert` allocates one node when it returns 1 and none when it returns 0. -/
def runAllocations (tree : AvlTree) : List AvlCall → Option (AvlTree × List Nat)
  | [] => some (tree, [])
  | .insert key :: calls =>
      (avlInsert tree key).bind fun inserts =>
        (runAllocations inserts.1 calls).map fun run =>
          (run.1, if inserts.2 then key :: run.2 else run.2)
  | .mark key :: calls => runAllocations (avlMark tree key).1 calls

/-- Recording the allocations does not change the run. -/
theorem runAllocations_map_fst : ∀ (tree : AvlTree) (calls : List AvlCall),
    (runAllocations tree calls).map Prod.fst = runCalls tree calls
  | _, [] => rfl
  | tree, .insert key :: calls => by
      have rest := fun t => runAllocations_map_fst t calls
      simp only [runAllocations, runCalls_cons, applyCall, Option.map_bind, Option.bind_map,
        Option.map_map, Function.comp_def, ← rest]
  | tree, .mark key :: calls => runAllocations_map_fst _ calls

/-! ### The accesses of `destroy_node` -/

theorem replayAccesses_append (live : Finset Nat) (first rest : List Access) :
    replayAccesses live (first ++ rest) =
      (replayAccesses live first).bind fun live' => replayAccesses live' rest := by
  induction first generalizing live with
  | nil => rfl
  | cons access first ih =>
      cases access <;> simp only [List.cons_append, replayAccesses] <;> split_ifs <;> simp [ih]

theorem replayAccesses_read {live : Finset Nat} {k : Nat} (alive : k ∈ live) (rest : List Access) :
    replayAccesses live (.read k :: rest) = replayAccesses live rest := by
  rw [replayAccesses, if_pos alive]

theorem replayAccesses_free {live : Finset Nat} {k : Nat} (alive : k ∈ live) (rest : List Access) :
    replayAccesses live (.free k :: rest) = replayAccesses (live.erase k) rest := by
  rw [replayAccesses, if_pos alive]

/-- Reading a node after freeing it is a fault. -/
example : replayAccesses {1} [.read 1, .free 1, .read 1] = none := by decide

/-- `destroy_node` on an ordered subtree whose nodes are all live touches only live nodes and
ends the life of exactly its own nodes. -/
theorem replayAccesses_destroyNode : ∀ {t : AvlNode} (live : Finset Nat), t.Ordered →
    (∀ x ∈ t.keys, x ∈ live) → replayAccesses live (destroyNode t) = some (live \ t.keys.toFinset)
  | null, live, _, _ => by simp [destroyNode, replayAccesses, keys]
  | node k h m l r, live, ordered, alive => by
      obtain ⟨lOrdered, rOrdered, below, above⟩ := ordered_node_iff.mp ordered
      simp only [keys_node, List.mem_append, List.mem_cons] at alive
      have self : k ∈ live \ l.keys.toFinset := by
        simpa using ⟨alive k (.inr (.inl rfl)), fun mem => (below k mem).false⟩
      have left := replayAccesses_destroyNode live lOrdered fun x mem => alive x (.inl mem)
      have right := replayAccesses_destroyNode (live \ l.keys.toFinset) rOrdered fun x mem => by
        have higher := above x mem
        simpa using ⟨alive x (.inr (.inr mem)), fun lower => by have := below x lower; omega⟩
      have last : k ∈ (live \ l.keys.toFinset) \ r.keys.toFinset :=
        Finset.mem_sdiff.mpr ⟨self, fun mem => (above k (List.mem_toFinset.mp mem)).false⟩
      rw [destroyNode, replayAccesses_append, replayAccesses_append,
        replayAccesses_read (Finset.mem_sdiff.mp self).1, left, Option.some_bind,
        replayAccesses_read self, right, Option.some_bind, replayAccesses_free last,
        replayAccesses]
      congr 1
      ext x
      simp only [Finset.mem_erase, Finset.mem_sdiff, List.mem_toFinset, keys_node, List.mem_append,
        List.mem_cons, not_or]
      exact ⟨fun ⟨other, ⟨alive, notLeft⟩, notRight⟩ => ⟨alive, notLeft, other, notRight⟩,
        fun ⟨alive, notLeft, other, notRight⟩ => ⟨other, ⟨alive, notLeft⟩, notRight⟩⟩

/-! ### Allocations over a run -/

/-- `avl_insert` on a valid tree: the keys afterwards are the old ones and `key`, and it returns 1
exactly when `key` was new. -/
theorem avlInsert_keys {t t' : AvlTree} {key : Nat} {inserted : Bool} (valid : AvlInvariant t.root)
    (inserts : avlInsert t key = some (t', inserted)) :
    (∀ x, x ∈ t'.root.keys ↔ x = key ∨ x ∈ t.root.keys) ∧
      (inserted = true ↔ key ∉ t.root.keys) := by
  obtain ⟨inorder, fresh⟩ := insertNode_inorder valid.ordered (avlInsert_eq_some.mp inserts)
  refine ⟨fun x => ?_, fresh⟩
  rw [keys, inorder, mem_insertEntry_keys]
  rfl

/-- Over any run from a valid tree, the nodes `new_node` allocates are distinct and new, and the
final tree holds exactly the old nodes and them. -/
theorem runAllocations_keys : ∀ (calls : List AvlCall) {t : AvlTree}, AvlInvariant t.root →
    ∃ t' allocated, runAllocations t calls = some (t', allocated) ∧ AvlInvariant t'.root ∧
      allocated.Nodup ∧ (∀ x ∈ allocated, x ∉ t.root.keys) ∧
      ∀ x, x ∈ t'.root.keys ↔ x ∈ t.root.keys ∨ x ∈ allocated
  | [], t, valid => ⟨t, [], rfl, valid, List.nodup_nil, by simp, by simp⟩
  | .mark key :: calls, t, valid => by
      obtain ⟨t', allocated, runs, valid', nodup, fresh, keys'⟩ :=
        runAllocations_keys calls (avlMark_invariant valid key)
      have same : (avlMark t key).1.root.keys = t.root.keys := markNode_keys key t.root
      refine ⟨t', allocated, runs, valid', nodup, ?_, ?_⟩ <;> rw [same] at fresh keys' <;>
        assumption
  | .insert key :: calls, t, valid => by
      obtain ⟨t₁, inserted, inserts, valid₁⟩ := avlInsert_invariant valid key
      obtain ⟨keys₁, new⟩ := avlInsert_keys valid inserts
      obtain ⟨t', allocated, runs, valid', nodup, fresh, keys'⟩ := runAllocations_keys calls valid₁
      refine ⟨t', if inserted then key :: allocated else allocated,
        by simp [runAllocations, inserts, runs], valid', ?_⟩
      cases inserted with
      | true =>
          have absent := new.mp rfl
          have later : key ∉ allocated := fun mem => fresh key mem ((keys₁ key).mpr (.inl rfl))
          refine ⟨List.nodup_cons.mpr ⟨later, nodup⟩, ?_, fun x => ?_⟩
          · simp only [if_true, List.mem_cons, forall_eq_or_imp]
            exact ⟨absent, fun x mem old => fresh x mem ((keys₁ x).mpr (.inr old))⟩
          · rw [if_pos rfl, keys', keys₁, List.mem_cons, or_assoc, or_left_comm]
      | false =>
          have present : key ∈ t.root.keys := not_not.mp (mt new.mpr (by simp))
          refine ⟨nodup, fun x mem old => fresh x mem ((keys₁ x).mpr (.inr old)), fun x => ?_⟩
          simp only [Bool.false_eq_true, if_false, keys', keys₁]
          constructor
          · rintro ((rfl | old) | mem)
            · exact .inl present
            · exact .inl old
            · exact .inr mem
          · rintro (old | mem)
            · exact .inl (.inr old)
            · exact .inr mem

/-- From `avl_create`, a run allocates distinct nodes and ends with exactly them in the tree, and
`avl_destroy` of that tree frees each of them exactly once, touching no other. -/
theorem runAllocations_destroy (calls : List AvlCall) :
    ∃ t allocated, runAllocations avlCreate calls = some (t, allocated) ∧ allocated.Nodup ∧
      (∀ x, x ∈ t.root.keys ↔ x ∈ allocated) ∧
      replayAccesses allocated.toFinset (avlDestroy t) = some ∅ := by
  obtain ⟨t, allocated, runs, valid, nodup, -, keys'⟩ :=
    runAllocations_keys calls (t := avlCreate) ⟨List.sorted_nil, trivial, trivial⟩
  have empty : avlCreate.root.keys = [] := rfl
  simp only [empty, List.not_mem_nil, false_or] at keys'
  refine ⟨t, allocated, runs, nodup, keys', ?_⟩
  rw [avlDestroy,
    replayAccesses_destroyNode _ valid.ordered fun x mem => by simpa [keys'] using mem]
  congr 1
  ext x
  simp [keys']

/-- Whatever sequence of `avl_insert` and `avl_mark` calls a client makes from `avl_create`, the run
allocates distinct nodes, and `avl_destroy` of the tree it ends with touches only live nodes (no
use after free) and frees every allocated node exactly once: no double free, no leak. -/
theorem avlDestroy_frees_allocated (calls : List AvlCall) :
    ∃ t allocated, runCalls avlCreate calls = some t ∧
      runAllocations avlCreate calls = some (t, allocated) ∧ allocated.Nodup ∧
      replayAccesses allocated.toFinset (avlDestroy t) = some ∅ := by
  obtain ⟨t, allocated, runs, nodup, -, frees⟩ := runAllocations_destroy calls
  exact ⟨t, allocated, by rw [← runAllocations_map_fst, runs]; rfl, runs, nodup, frees⟩

end ForkscanRegistry.Avl
