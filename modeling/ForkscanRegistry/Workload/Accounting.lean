import ForkscanRegistry.Workload.Reclamation

/-
Module: ForkscanRegistry.Workload.Accounting
Layer: Proofs
Purpose: No node of `forkscan_test/main.c` is lost. At every state of every interleaving, a node
  `forkscan_malloc` has handed out is reachable from the program (in a slot of `array` or in a
  thread's locals) exactly when it is not released (passed to `forkscan_retire`, or freed after a
  failed compare-exchange). When no thread is inside an operation, each such node is in exactly one
  of three places: a slot, the retired nodes or the freed ones. `Lifecycle` says where a node in a
  given stage may be, not that it is there; the converse facts are `Accounted`, which every step
  keeps under `Lifecycle`.
Trusted boundary: as in `Workload.SlotTable`.
Main exports: Accounted, accounted_reachable, Lifecycle.references_or_released,
  referenced_iff_not_released, quiescent_nodes_placed
-/

namespace ForkscanRegistry.Workload

/-- The node a thread works on is named in its locals. -/
theorem Pc.local_of_holding {p : Pc} {t n : Nat} {s : Life} (holds : p.holding t = some (n, s)) :
    ∃ k, p = .addCas k n ∨ p = .removeFlag k n ∨ p = .removeRetire k n := by
  cases p with
  | idle => cases holds
  | addCas k _ | removeFlag k _ | removeRetire k _ =>
      obtain ⟨rfl, -⟩ := Prod.mk.inj (Option.some.inj holds)
      exact ⟨k, by simp⟩

/-- What the lives of the nodes say of the table beyond `Lifecycle`: no node handed out is still
fresh, a stored node is in its slot, and a discarded node is among the freed ones. -/
structure Accounted (w : World) (life : Nat → Life) : Prop where
  handedOut : ∀ n < w.nextNode, life n ≠ .fresh
  inSlot : ∀ n k, life n = .stored k → w.slots k = some n
  freed : ∀ n, life n = .discarded → n ∈ w.discarded

namespace Accounted

variable {w : World} {life : Nat → Life} {t key node : Nat}

theorem initial : Accounted Workload.initial fun _ => .fresh where
  handedOut n below := absurd below (Nat.not_lt_zero n)
  inSlot _ _ := nofun
  freed _ := nofun

theorem respond (acc : Accounted w life) (op : Op) : Accounted (w.respond t op) life :=
  ⟨acc.handedOut, acc.inSlot, acc.freed⟩

/-- Node `n₀` moves to a stage `s'` other than fresh. The facts hold afterwards when the nodes
handed out are the old ones and `n₀`, every other node keeps its slot, the freed nodes stay freed,
and `n₀` is where `s'` says. -/
theorem update (acc : Accounted w life) {w' : World} {n₀ : Nat} {s' : Life}
    (handedOut : ∀ n < w'.nextNode, n ≠ n₀ → n < w.nextNode) (moved : s' ≠ .fresh)
    (inSlot : ∀ n k, n ≠ n₀ → w.slots k = some n → w'.slots k = some n)
    (stored : ∀ k, s' = .stored k → w'.slots k = some n₀)
    (freed : w.discarded ⊆ w'.discarded) (discarded : s' = .discarded → n₀ ∈ w'.discarded) :
    Accounted w' (Function.update life n₀ s') where
  handedOut n below := by
    by_cases same : n = n₀
    · rw [same, Function.update_same]
      exact moved
    · rw [Function.update_noteq same]
      exact acc.handedOut n (handedOut n below same)
  inSlot n k stage := by
    by_cases same : n = n₀
    · subst same
      exact stored k (by rwa [Function.update_same] at stage)
    · rw [Function.update_noteq same] at stage
      exact inSlot n k same (acc.inSlot n k stage)
  freed n stage := by
    by_cases same : n = n₀
    · subst same
      exact discarded (by rwa [Function.update_same] at stage)
    · rw [Function.update_noteq same] at stage
      exact freed (acc.freed n stage)

/-- Allocation hands out `nextNode`. -/
theorem allocate (acc : Accounted w life) :
    Accounted (w.allocate t key) (Function.update life w.nextNode (.pending t key)) :=
  acc.update (fun n below other => by simp only [World.allocate] at below; omega) nofun
    (fun _ _ _ slot => slot) (fun _ => nofun) (List.Subset.refl _) nofun

/-- A successful compare-exchange puts the node into the slot it found empty. -/
theorem install (acc : Accounted w life) (empty : w.slots key = none) :
    Accounted (w.install t key node) (Function.update life node (.stored key)) :=
  acc.update (fun _ below _ => below) nofun
    (fun _ k _ slot => by
      have other : k ≠ key := by
        rintro rfl
        rw [empty] at slot
        cases slot
      exact (Function.update_noteq other _ _).trans slot)
    (fun _ stage => by cases stage; exact Function.update_same _ _ _) (List.Subset.refl _) nofun

/-- A failed compare-exchange frees the node. -/
theorem discard (acc : Accounted w life) :
    Accounted (w.discard t key node) (Function.update life node .discarded) :=
  acc.update (fun _ below _ => below) nofun (fun _ _ _ slot => slot) (fun _ => nofun)
    (List.subset_append_left _ _) fun _ => List.mem_append_right _ (List.mem_singleton_self _)

/-- The exchange empties only the slot of the node it takes. -/
theorem take (acc : Accounted w life) (slot : w.slots key = some node) :
    Accounted (w.take t key node) (Function.update life node (.taken t key)) :=
  acc.update (fun _ below _ => below) nofun
    (fun _ k other held => by
      have differ : k ≠ key := by
        rintro rfl
        rw [slot] at held
        exact other (Option.some.inj held).symm
      exact (Function.update_noteq differ _ _).trans held)
    (fun _ => nofun) (List.Subset.refl _) nofun

theorem flag (acc : Accounted w life) :
    Accounted (w.flag t key node) (Function.update life node (.flagged t key)) :=
  acc.update (fun _ below _ => below) nofun (fun _ _ _ slot => slot) (fun _ => nofun)
    (List.Subset.refl _) nofun

theorem retire (acc : Accounted w life) :
    Accounted (w.retire t key node) (Function.update life node (.retired t key)) :=
  acc.update (fun _ below _ => below) nofun (fun _ _ _ slot => slot) (fun _ => nofun)
    (List.Subset.refl _) nofun

/-- Every step keeps `Lifecycle` and `Accounted` together, for the lives `Lifecycle.step` moves
to. -/
theorem step (inv : Lifecycle w life) (acc : Accounted w life) {w' : World} (step : Step w w') :
    ∃ life', Lifecycle w' life' ∧ Accounted w' life' := by
  cases step with
  | containsLoad => exact ⟨life, inv.respond _, acc.respond _⟩
  | addLoadFull => exact ⟨life, inv.respond _, acc.respond _⟩
  | removeEmpty => exact ⟨life, inv.respond _, acc.respond _⟩
  | addLoadEmpty _ _ idle => exact ⟨_, inv.allocate idle, acc.allocate⟩
  | addCasSuccess _ _ _ holds empty => exact ⟨_, inv.install holds empty, acc.install empty⟩
  | addCasFailure _ _ _ holds => exact ⟨_, inv.discard holds, acc.discard⟩
  | removeTake _ _ _ idle _ slot => exact ⟨_, inv.take idle slot, acc.take slot⟩
  | removeFlagFresh _ _ _ holds => exact ⟨_, inv.flag holds, acc.flag⟩
  | removeFlagCollected _ _ _ holds set => simp [inv.not_collected holds] at set
  | removeRetire _ _ _ holds => exact ⟨_, inv.retire holds, acc.retire⟩

end Accounted

/-- Every reachable state agrees with a life of its nodes that also accounts for them. -/
theorem accounted_reachable {w : World} (reach : Reachable w) :
    ∃ life, Lifecycle w life ∧ Accounted w life := by
  induction reach with
  | initial => exact ⟨_, Lifecycle.initial, Accounted.initial⟩
  | step _ step ih =>
      obtain ⟨life, inv, acc⟩ := ih
      exact acc.step inv step

namespace Lifecycle

variable {w : World} {life : Nat → Life}

/-- A node handed out is, by its stage, in a slot, in its owner's locals, retired or freed. -/
theorem references_or_released (inv : Lifecycle w life) (acc : Accounted w life) {n : Nat}
    (handed : n < w.nextNode) : w.References n ∨ w.Released n := by
  have local_ : ∀ t, (life n).owner = some t → w.References n := fun t owns => by
    obtain ⟨k, pc⟩ := Pc.local_of_holding (inv.owned n t owns)
    exact .inr ⟨t, k, pc⟩
  cases stage : life n with
  | fresh => exact absurd stage (acc.handedOut n handed)
  | pending t _ | taken t _ | flagged t _ => exact .inl (local_ t (by rw [stage]; rfl))
  | stored k => exact .inl (.inl ⟨k, acc.inSlot n k stage⟩)
  | discarded => exact .inr (.inr (acc.freed n stage))
  | retired t k => exact .inr (.inl ⟨⟨t, k, n⟩, (inv.retired ⟨t, k, n⟩).mpr stage, rfl⟩)

end Lifecycle

/-- Nothing is lost, at any point of any interleaving: a node `forkscan_malloc` has handed out is
reachable from the program, through a slot of `array` or a thread's locals, exactly when it has not
been passed to `forkscan_retire` or freed. -/
theorem referenced_iff_not_released {w : World} (reach : Reachable w) {n : Nat}
    (handed : n < w.nextNode) : w.References n ↔ ¬ w.Released n := by
  obtain ⟨life, inv, acc⟩ := accounted_reachable reach
  exact ⟨fun refs released => inv.not_references released refs,
    (inv.references_or_released acc handed).resolve_right⟩

/-- Thread 0 has allocated node 0 in `add(0)` and not yet run its compare-exchange. -/
theorem referenced_iff_not_released_pending :
    Reachable (initial.allocate 0 0) ∧ 0 < (initial.allocate 0 0).nextNode ∧
      ((initial.allocate 0 0).References 0 ↔ ¬ (initial.allocate 0 0).Released 0) :=
  have reach : Reachable (initial.allocate 0 0) :=
    .step .initial (.addLoadEmpty 0 0 rfl (by decide) rfl)
  ⟨reach, Nat.zero_lt_one, referenced_iff_not_released reach Nat.zero_lt_one⟩

/-- With no thread inside an operation, every node `forkscan_malloc` has handed out is in exactly
one place: a slot of `array`, the nodes passed to `forkscan_retire`, or the nodes freed after a
failed compare-exchange. -/
theorem quiescent_nodes_placed {w : World} (reach : Reachable w) (quiet : ∀ t, w.pc t = .idle)
    {n : Nat} (handed : n < w.nextNode) :
    ((∃ k, w.slots k = some n) ∨ (∃ e ∈ w.retired, e.node = n) ∨ n ∈ w.discarded) ∧
      ¬ ((∃ k, w.slots k = some n) ∧ w.Released n) ∧
      ¬ ((∃ e ∈ w.retired, e.node = n) ∧ n ∈ w.discarded) := by
  obtain ⟨life, inv, acc⟩ := accounted_reachable reach
  refine ⟨?_, fun ⟨slot, released⟩ => inv.not_references released (.inl slot), ?_⟩
  · rcases inv.references_or_released acc handed with (slot | ⟨t, k, pc⟩) | released
    · exact .inl slot
    · rcases pc with pc | pc | pc <;> rw [quiet t] at pc <;> cases pc
    · exact .inr released
  · rintro ⟨⟨e, mem, rfl⟩, freed⟩
    have retired := (inv.retired e).mp mem
    rw [inv.discarded _ freed] at retired
    cases retired

/-- After thread 0's `add(0)` and thread 1's `remove_node(0)`, node 0 is retired. -/
theorem quiescent_nodes_placed_retired :
    ∃ w, Reachable w ∧ (∀ t, w.pc t = .idle) ∧ 0 < w.nextNode ∧
      ((∃ k, w.slots k = some 0) ∨ (∃ e ∈ w.retired, e.node = 0) ∨ 0 ∈ w.discarded) ∧
        ¬ ((∃ k, w.slots k = some 0) ∧ w.Released 0) ∧
        ¬ ((∃ e ∈ w.retired, e.node = 0) ∧ 0 ∈ w.discarded) :=
  have quiet : ∀ t, (((((initial.allocate 0 0).install 0 0 0).take 1 0 0).flag 1 0 0).retire 1 0
      0).pc t = .idle := fun t => by
    simp [World.retire, World.flag, World.take, World.install, World.respond, World.allocate,
      initial, Function.update_apply]
  ⟨_, reachable_retired, quiet, Nat.zero_lt_one,
    quiescent_nodes_placed reachable_retired quiet Nat.zero_lt_one⟩

end ForkscanRegistry.Workload
