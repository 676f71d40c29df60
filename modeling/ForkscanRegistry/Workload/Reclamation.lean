import ForkscanRegistry.Workload.SlotTable

/-
Module: ForkscanRegistry.Workload.Reclamation
Layer: Proofs
Purpose: What the reclaimer may assume of the nodes `forkscan_test/main.c` lets go of. The program
  reaches a node only through a slot of `array` or through a thread's locals (`newNode` of an
  `add` between its allocation and its compare-exchange, `oldval` of a `remove_node` between its
  exchange and its return). A node passed to `forkscan_retire`, or freed after a failed
  compare-exchange, is released. In every interleaving a released node is referenced by no slot
  and by no thread, it stays released, and no step writes its `collected` flag: the program never
  touches it again, so freeing it cannot be observed. The roots are read off `Lifecycle`: a node
  in a slot is stored, a node in a thread's locals is pending, taken or flagged, and a released
  node is retired or discarded.
Trusted boundary: as in `Workload.SlotTable`.
Main exports: World.References, World.Released, Lifecycle.not_references, Lifecycle.collected_step,
  released_unreachable
-/

namespace ForkscanRegistry.Workload

/-- A root of the program names node `n`: a slot of `array` holds it, or a thread has it in its
locals. -/
def World.References (w : World) (n : Nat) : Prop :=
  (∃ k, w.slots k = some n) ∨
    ∃ t k, w.pc t = .addCas k n ∨ w.pc t = .removeFlag k n ∨ w.pc t = .removeRetire k n

/-- Node `n` has been passed to `forkscan_retire`, or freed after a failed compare-exchange. -/
def World.Released (w : World) (n : Nat) : Prop :=
  (∃ e ∈ w.retired, e.node = n) ∨ n ∈ w.discarded

/-- The histories only grow, so a step keeps every released node released. -/
theorem World.Released.step {w w' : World} {n : Nat} (released : w.Released n)
    (step : Step w w') : w'.Released n := by
  have grows : w.retired ⊆ w'.retired ∧ w.discarded ⊆ w'.discarded := by
    cases step <;>
      simp only [World.respond, World.allocate, World.install, World.discard, World.take,
        World.flag, World.skipCollected, World.retire, List.Subset.refl, List.subset_append_left,
        and_self]
  rcases released with ⟨e, mem, same⟩ | mem
  · exact .inl ⟨e, grows.1 mem, same⟩
  · exact .inr (grows.2 mem)

namespace Lifecycle

variable {w : World} {life : Nat → Life}

/-- A released node is retired or discarded. -/
theorem released_stage (inv : Lifecycle w life) {n : Nat} (released : w.Released n) :
    (∃ t k, life n = .retired t k) ∨ life n = .discarded := by
  rcases released with ⟨e, mem, rfl⟩ | mem
  · exact .inl ⟨e.thread, e.key, (inv.retired e).mp mem⟩
  · exact .inr (inv.discarded n mem)

/-- A node some thread has in its locals has that thread as its owner. -/
theorem owned_of_local (inv : Lifecycle w life) {t k n : Nat}
    (local_ : w.pc t = .addCas k n ∨ w.pc t = .removeFlag k n ∨ w.pc t = .removeRetire k n) :
    (life n).owner = some t := by
  have holds : ∃ s, (w.pc t).holding t = some (n, s) := by
    rcases local_ with pc | pc | pc <;> exact ⟨_, by rw [pc]; rfl⟩
  obtain ⟨s, holds⟩ := holds
  rw [inv.holding t n s holds]
  exact Pc.owner_of_holding holds

/-- No root names a released node. -/
theorem not_references (inv : Lifecycle w life) {n : Nat} (released : w.Released n) :
    ¬ w.References n := by
  rintro (⟨k, slot⟩ | ⟨t, k, local_⟩)
  · have stored := inv.slot k n slot
    rcases inv.released_stage released with ⟨_, _, stage⟩ | stage <;> rw [stage] at stored <;>
      cases stored
  · have owned := inv.owned_of_local local_
    rcases inv.released_stage released with ⟨_, _, stage⟩ | stage <;> rw [stage] at owned <;>
      cases owned

/-- No step writes the `collected` flag of a released node: the allocation writes a fresh node's
flag and the exchange on `oldval->collected` writes the flag of a node in the remover's locals. -/
theorem collected_step (inv : Lifecycle w life) {w' : World} (step : Step w w') {n : Nat}
    (released : w.Released n) : w'.collected n = w.collected n := by
  have unreferenced := inv.not_references released
  cases step with
  | addLoadEmpty t key =>
      have fresh := inv.fresh w.nextNode le_rfl
      have other : n ≠ w.nextNode := by
        rintro rfl
        rcases inv.released_stage released with ⟨_, _, stage⟩ | stage <;> rw [stage] at fresh <;>
          cases fresh
      simp [World.allocate, other]
  | removeFlagFresh t key node holds =>
      have other : n ≠ node := by
        rintro rfl
        exact unreferenced (.inr ⟨t, key, .inr (.inl holds)⟩)
      simp [World.flag, other]
  | _ => rfl

end Lifecycle

/-- In every interleaving, a node passed to `forkscan_retire` or freed after a failed
compare-exchange is unreachable from the program: no slot holds it and no thread has it in its
locals; after any further step it is still released and still unreachable, and its `collected`
flag is unchanged, so no thread ever loads, exchanges or writes it again. -/
theorem released_unreachable {w : World} (reach : Reachable w) (n : Nat)
    (released : w.Released n) :
    ¬ w.References n ∧
      ∀ w', Step w w' → w'.Released n ∧ ¬ w'.References n ∧ w'.collected n = w.collected n := by
  obtain ⟨life, inv⟩ := lifecycle_reachable reach
  refine ⟨inv.not_references released, fun w' step => ?_⟩
  have still := released.step step
  obtain ⟨life', inv'⟩ := lifecycle_reachable (.step reach step)
  exact ⟨still, inv'.not_references still, inv.collected_step step released⟩

/-- After thread 0's `add(0)` and thread 1's `remove_node(0)`, which retires node 0. -/
theorem released_unreachable_retired :
    ∃ w, Reachable w ∧ w.Released 0 ∧
      ¬ w.References 0 ∧
        ∀ w', Step w w' → w'.Released 0 ∧ ¬ w'.References 0 ∧ w'.collected 0 = w.collected 0 :=
  have released : World.Released (((((initial.allocate 0 0).install 0 0 0).take 1 0 0).flag 1 0
      0).retire 1 0 0) 0 := .inl ⟨⟨1, 0, 0⟩, by decide, rfl⟩
  ⟨_, reachable_retired, released, released_unreachable reachable_retired 0 released⟩

end ForkscanRegistry.Workload
