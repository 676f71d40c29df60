import Mathlib.Data.List.Nodup

/-
Module: ForkscanRegistry.Workload.SlotTable
Layer: Model and proofs
Purpose: The concurrent workload of `forkscan_test/main.c`: a table of `KEY_RANGE` atomic slots
  shared by any number of threads running `add`, `remove_node` and `contains`. Every atomic load,
  compare-exchange and exchange on a slot or on a node's `collected` flag is one step of `Step`,
  and so is each call to `forkscan_retire`; the thread-local work around them (allocation, the
  tests on the loaded values, `free`, `return`) happens in the step it follows. A node is named by
  its allocation. The state also keeps history variables, which no step reads: the nodes each
  successful compare-exchange installed, each exchange that took a node out of its slot, the nodes
  freed after a failed compare-exchange, each call to `forkscan_retire`, and every operation with
  its result, once at the step where it takes effect and once at its return.
  The abstract layer is the life of one node (`Life`): fresh, pending in an `add`, then discarded,
  or stored, taken by a `remove_node`, flagged as collected and retired. `Lifecycle` relates the
  table to a life for every node, and every step moves at most one node one move of `Life.Move`;
  the retirement guarantees follow from that.
Trusted boundary: `forkscan_malloc` returns a node not allocated before; the reclaimer's reuse of
  retired or freed memory is outside the model.
Main exports: Pc, World, Step, Reachable, Life, Lifecycle, lifecycle_reachable,
  retirement_exactly_once
-/

namespace ForkscanRegistry.Workload

/-- `KEY_RANGE`. -/
def keyRange : Nat := 1048576

/-- A `remove_node` exchange that took a node out of its slot: the thread, the key and the node.
The call to `forkscan_retire` that hands the node on is recorded with the same triple. -/
structure Handoff where
  thread : Nat
  key : Nat
  node : Nat
  deriving DecidableEq, Repr

/-- An operation of the slot table together with its result. -/
inductive Op
  | add (key : Nat) (result : Bool)
  | remove (key : Nat) (result : Bool)
  | contains (key : Nat) (result : Bool)
  deriving DecidableEq, Repr

/-- Where a thread stands between two atomic steps, with the locals it carries. -/
inductive Pc
  /-- Between operations. -/
  | idle
  /-- `add(key)` loaded `NULL` and allocated `newNode`; the compare-exchange is next. -/
  | addCas (key node : Nat)
  /-- `remove_node(key)` exchanged `oldval` out of the slot; the exchange on
  `oldval->collected` is next. -/
  | removeFlag (key node : Nat)
  /-- `oldval->collected` was 0; `forkscan_retire(oldval)` is next. -/
  | removeRetire (key node : Nat)
  deriving DecidableEq, Repr

/-- The shared table, the allocator and every thread's place, with the history variables. -/
structure World where
  /-- `array[key]`: the node stored there, if any. -/
  slots : Nat → Option Nat
  /-- `node->collected`. -/
  collected : Nat → Bool
  /-- The next node `forkscan_malloc` hands out. -/
  nextNode : Nat
  pc : Nat → Pc
  /-- Every node a compare-exchange installed. -/
  stored : List Nat
  /-- Every exchange that took a node out of its slot. -/
  taken : List Handoff
  /-- Every node freed after a failed compare-exchange. -/
  discarded : List Nat
  /-- Every call to `forkscan_retire`. -/
  retired : List Handoff
  /-- Every operation at its linearization step, with the thread running it. -/
  linearized : List (Nat × Op)
  /-- Every operation at its return, with the thread running it. -/
  completed : List (Nat × Op)

/-- `memset(array, 0, ...)` before any thread runs. -/
def initial : World :=
  ⟨fun _ => none, fun _ => false, 0, fun _ => .idle, [], [], [], [], [], []⟩

/-- Thread `t`'s operation takes effect and returns `op`'s result in the same step. -/
def World.respond (w : World) (t : Nat) (op : Op) : World :=
  { w with linearized := w.linearized ++ [(t, op)], completed := w.completed ++ [(t, op)] }

/-- `add(key)` found `NULL`: `newNode = forkscan_malloc(...)`, `newNode->collected = 0`. -/
def World.allocate (w : World) (t key : Nat) : World :=
  { w with
    pc := Function.update w.pc t (.addCas key w.nextNode)
    nextNode := w.nextNode + 1
    collected := Function.update w.collected w.nextNode false }

/-- `add(key)`'s compare-exchange from `NULL` succeeds: the node is in the slot; `return true`. -/
def World.install (w : World) (t key node : Nat) : World :=
  World.respond { w with
    slots := Function.update w.slots key (some node)
    pc := Function.update w.pc t .idle
    stored := w.stored ++ [node] } t (.add key true)

/-- `add(key)`'s compare-exchange fails: `free(newNode)`; `return false`. -/
def World.discard (w : World) (t key node : Nat) : World :=
  World.respond { w with
    pc := Function.update w.pc t .idle
    discarded := w.discarded ++ [node] } t (.add key false)

/-- `remove_node(key)`'s exchange takes `oldval` out of the slot, which takes effect as a
successful removal. -/
def World.take (w : World) (t key node : Nat) : World :=
  { w with
    slots := Function.update w.slots key none
    pc := Function.update w.pc t (.removeFlag key node)
    taken := w.taken ++ [⟨t, key, node⟩]
    linearized := w.linearized ++ [(t, .remove key true)] }

/-- `atomic_exchange(&oldval->collected, 1)` returned 0. -/
def World.flag (w : World) (t key node : Nat) : World :=
  { w with
    collected := Function.update w.collected node true
    pc := Function.update w.pc t (.removeRetire key node) }

/-- The exchange on `collected` returned 1: `return true` without retiring. -/
def World.skipCollected (w : World) (t key : Nat) : World :=
  { w with
    pc := Function.update w.pc t .idle
    completed := w.completed ++ [(t, .remove key true)] }

/-- `forkscan_retire(oldval)`; `return true`. -/
def World.retire (w : World) (t key node : Nat) : World :=
  { w with
    pc := Function.update w.pc t .idle
    retired := w.retired ++ [⟨t, key, node⟩]
    completed := w.completed ++ [(t, .remove key true)] }

/-- The atomic steps of `add`, `remove_node` and `contains`, and the calls to `forkscan_retire`,
by any thread on any key in `[0, KEY_RANGE)`. -/
inductive Step : World → World → Prop
  /-- `contains(key)`: `n = atomic_load(&array[key])`; `return n != NULL`. -/
  | containsLoad {w : World} (t key : Nat) : w.pc t = .idle → key < keyRange →
      Step w (w.respond t (.contains key (w.slots key).isSome))
  /-- `add(key)`: the load finds the slot occupied; `return false`. -/
  | addLoadFull {w : World} (t key : Nat) : w.pc t = .idle → key < keyRange →
      (w.slots key).isSome → Step w (w.respond t (.add key false))
  /-- `add(key)`: the load finds `NULL`. -/
  | addLoadEmpty {w : World} (t key : Nat) : w.pc t = .idle → key < keyRange →
      w.slots key = none → Step w (w.allocate t key)
  /-- `add(key)`: the compare-exchange finds `NULL`. -/
  | addCasSuccess {w : World} (t key node : Nat) : w.pc t = .addCas key node →
      w.slots key = none → Step w (w.install t key node)
  /-- `add(key)`: the compare-exchange finds the slot occupied. -/
  | addCasFailure {w : World} (t key node : Nat) : w.pc t = .addCas key node →
      (w.slots key).isSome → Step w (w.discard t key node)
  /-- `remove_node(key)`: the exchange finds `NULL`; `return false`. -/
  | removeEmpty {w : World} (t key : Nat) : w.pc t = .idle → key < keyRange →
      w.slots key = none → Step w (w.respond t (.remove key false))
  /-- `remove_node(key)`: the exchange finds a node. -/
  | removeTake {w : World} (t key node : Nat) : w.pc t = .idle → key < keyRange →
      w.slots key = some node → Step w (w.take t key node)
  /-- `remove_node(key)`: the exchange on `oldval->collected` finds 0. -/
  | removeFlagFresh {w : World} (t key node : Nat) : w.pc t = .removeFlag key node →
      w.collected node = false → Step w (w.flag t key node)
  /-- `remove_node(key)`: the exchange on `oldval->collected` finds 1. -/
  | removeFlagCollected {w : World} (t key node : Nat) : w.pc t = .removeFlag key node →
      w.collected node = true → Step w (w.skipCollected t key)
  /-- `remove_node(key)`: the call to `forkscan_retire`. -/
  | removeRetire {w : World} (t key node : Nat) : w.pc t = .removeRetire key node →
      Step w (w.retire t key node)

/-- The states of every interleaving. -/
inductive Reachable : World → Prop
  | initial : Reachable initial
  | step {w w' : World} : Reachable w → Step w w' → Reachable w'

/-- Thread 0's `add(0)` stores node 0, then thread 1's `remove_node(0)` exchanges it out. -/
theorem reachable_taken : Reachable (((initial.allocate 0 0).install 0 0 0).take 1 0 0) :=
  .step (.step (.step .initial (.addLoadEmpty 0 0 rfl (by decide) rfl))
    (.addCasSuccess 0 0 0 rfl rfl)) (.removeTake 1 0 0 rfl (by decide) rfl)

/-- Thread 1's `remove_node(0)` then flags node 0 as collected and retires it. -/
theorem reachable_retired :
    Reachable (((((initial.allocate 0 0).install 0 0 0).take 1 0 0).flag 1 0 0).retire 1 0 0) :=
  .step (.step reachable_taken (.removeFlagFresh 1 0 0 rfl rfl)) (.removeRetire 1 0 0 rfl)

/-! ### The life of a node -/

/-- The stages of one node. -/
inductive Life
  /-- Not allocated yet. -/
  | fresh
  /-- Allocated by thread `t`'s `add(key)`, before its compare-exchange. -/
  | pending (t key : Nat)
  /-- Freed after a failed compare-exchange. -/
  | discarded
  /-- In `array[key]`. -/
  | stored (key : Nat)
  /-- Exchanged out of `array[key]` by thread `t`'s `remove_node`. -/
  | taken (t key : Nat)
  /-- Its `collected` flag set by that thread. -/
  | flagged (t key : Nat)
  /-- Handed to `forkscan_retire` by that thread. -/
  | retired (t key : Nat)
  deriving DecidableEq, Repr

namespace Life

/-- The moves of a node: each step of the table makes at most one. -/
inductive Move : Life → Life → Prop
  | allocate (t key : Nat) : Move fresh (pending t key)
  | discard (t key : Nat) : Move (pending t key) discarded
  | store (t key : Nat) : Move (pending t key) (stored key)
  | take (t key : Nat) : Move (stored key) (taken t key)
  | flag (t key : Nat) : Move (taken t key) (flagged t key)
  | retire (t key : Nat) : Move (flagged t key) (retired t key)

/-- The stages in which `collected` is 1. -/
def isCollected : Life → Bool
  | flagged .. | retired .. => true
  | _ => false

/-- The stages after a compare-exchange installed the node. -/
def wasStored : Life → Bool
  | stored _ | taken .. | flagged .. | retired .. => true
  | _ => false

/-- The stages after thread `t`'s exchange took the node out of `array[key]`. -/
def handedBy (t key : Nat) : Life → Bool
  | taken t' key' | flagged t' key' | retired t' key' => t' = t ∧ key' = key
  | _ => false

theorem handedBy_eq_true {t key : Nat} {s : Life} :
    s.handedBy t key = true ↔ s = taken t key ∨ s = flagged t key ∨ s = retired t key := by
  cases s <;> simp [handedBy]

/-- The thread working on a node in this stage. -/
def owner : Life → Option Nat
  | pending t _ | taken t _ | flagged t _ => some t
  | _ => none

end Life

/-- The node thread `t` works on at this place, and the stage it must be in. -/
def Pc.holding (t : Nat) : Pc → Option (Nat × Life)
  | .idle => none
  | .addCas key node => some (node, .pending t key)
  | .removeFlag key node => some (node, .taken t key)
  | .removeRetire key node => some (node, .flagged t key)

theorem Pc.owner_of_holding {p : Pc} {t n : Nat} {s : Life} (holds : p.holding t = some (n, s)) :
    s.owner = some t := by
  cases p <;> simp only [Pc.holding, reduceCtorEq, Option.some.injEq, Prod.mk.injEq] at holds <;>
    obtain ⟨-, rfl⟩ := holds <;> rfl

theorem Pc.eq_removeFlag {p : Pc} {t key node : Nat}
    (holds : p.holding t = some (node, .taken t key)) : p = .removeFlag key node := by
  cases p <;> simp_all [Pc.holding]

theorem Pc.eq_removeRetire {p : Pc} {t key node : Nat}
    (holds : p.holding t = some (node, .flagged t key)) : p = .removeRetire key node := by
  cases p <;> simp_all [Pc.holding]

/-- The table agrees with a life for every node: fresh nodes are beyond the allocator, each slot
holds a stored node, each thread's locals name the node it works on and no other node is in that
thread's hands, the `collected` flags and the history variables match the stages, and no node is
taken or retired twice. -/
structure Lifecycle (w : World) (life : Nat → Life) : Prop where
  fresh : ∀ n, w.nextNode ≤ n → life n = .fresh
  slot : ∀ k n, w.slots k = some n → life n = .stored k
  holding : ∀ t n s, (w.pc t).holding t = some (n, s) → life n = s
  owned : ∀ n t, (life n).owner = some t → (w.pc t).holding t = some (n, life n)
  collected : ∀ n, w.collected n = true → (life n).isCollected
  discarded : ∀ n ∈ w.discarded, life n = .discarded
  stored : ∀ n ∈ w.stored, (life n).wasStored
  handed : ∀ e, e ∈ w.taken ↔ (life e.node).handedBy e.thread e.key
  retired : ∀ e, e ∈ w.retired ↔ life e.node = .retired e.thread e.key
  taken_nodup : (w.taken.map Handoff.node).Nodup
  retired_nodup : (w.retired.map Handoff.node).Nodup

namespace Lifecycle

variable {w : World} {life : Nat → Life} {t key node : Nat}

theorem initial : Lifecycle Workload.initial fun _ => .fresh where
  fresh _ _ := rfl
  slot _ _ none := by cases none
  holding _ _ _ none := by cases none
  owned _ _ none := by cases none
  collected _ none := by cases none
  discarded _ none := by cases none
  stored _ none := by cases none
  handed e := by simp [Workload.initial, Life.handedBy]
  retired e := by simp [Workload.initial]
  taken_nodup := List.nodup_nil
  retired_nodup := List.nodup_nil

/-- A step that only records an operation keeps the lives. -/
theorem respond (inv : Lifecycle w life) (op : Op) : Lifecycle (w.respond t op) life :=
  ⟨inv.fresh, inv.slot, inv.holding, inv.owned, inv.collected, inv.discarded, inv.stored,
    inv.handed, inv.retired, inv.taken_nodup, inv.retired_nodup⟩

/-- When node `n₀` moves, a node in a stage other than `n₀`'s old one stays in it. -/
theorem update_stage {n₀ n : Nat} {s s' : Life} (stage : life n = s) (differ : s ≠ life n₀) :
    Function.update life n₀ s' n = s := by
  rw [Function.update_noteq fun same => differ (stage.symm.trans (congrArg life same)), stage]

/-- When node `n₀` moves, a node keeps a flag of its stage that `n₀`'s old stage lacks. -/
theorem update_flag_of_ne {f : Life → Bool} {n₀ n : Nat} {s' : Life} (has : f (life n) = true)
    (lacks : f (life n₀) = false) : f (Function.update life n₀ s' n) = true := by
  rw [Function.update_noteq fun same : n = n₀ => Bool.false_ne_true (lacks.symm.trans (same ▸ has))]
  exact has

/-- A flag of node `n`'s stage that `n₀`'s new stage also has holds after `n₀` moves. -/
theorem update_flag {f : Life → Bool} {n₀ n : Nat} {s' : Life} (has : f (life n) = true)
    (new : f s' = true) : f (Function.update life n₀ s' n) = true := by
  rw [Function.update_apply]
  split_ifs
  exacts [new, has]

/-- Moving node `n₀` to a stage handed over by the same thread and key as before, in a step that
makes no exchange, keeps the record of exchanges. -/
theorem handed_update (inv : Lifecycle w life) {n₀ : Nat} {s' : Life}
    (same : ∀ t k, s'.handedBy t k = (life n₀).handedBy t k) (e : Handoff) :
    e ∈ w.taken ↔ (Function.update life n₀ s' e.node).handedBy e.thread e.key := by
  rw [inv.handed e, Function.update_apply]
  split_ifs with moved
  · rw [moved, same]
  · rfl

/-- Moving node `n₀` between two stages that are not retired, in a step that retires nothing,
keeps the record of retirements. -/
theorem retired_update (inv : Lifecycle w life) {n₀ : Nat} {s' : Life}
    (old : ∀ t k, life n₀ ≠ .retired t k) (new : ∀ t k, s' ≠ .retired t k) (e : Handoff) :
    e ∈ w.retired ↔ Function.update life n₀ s' e.node = .retired e.thread e.key := by
  rw [inv.retired e, Function.update_apply]
  split_ifs with moved
  · rw [moved]
    exact iff_of_false (old _ _) (new _ _)
  · rfl

/-- Thread `t` moving to `p'` while node `n₀` moves to stage `s'` keeps every thread holding its
node and every owned node in its owner's hands, provided `t` held nothing but `n₀`, `n₀` was in
no other thread's hands, and afterwards `t` holds exactly `n₀` if `s'` is `t`'s and nothing
otherwise. -/
theorem holding_step (inv : Lifecycle w life) (p' : Pc) (n₀ : Nat) (s' : Life)
    (before : ∀ n s, (w.pc t).holding t = some (n, s) → n = n₀)
    (ownerBefore : ∀ t', (life n₀).owner = some t' → t' = t)
    (after : ∀ n s, p'.holding t = some (n, s) ↔ n = n₀ ∧ s = s' ∧ s'.owner = some t)
    (ownerAfter : ∀ t', s'.owner = some t' → t' = t) :
    (∀ t' n s, ((Function.update w.pc t p') t').holding t' = some (n, s) →
        Function.update life n₀ s' n = s) ∧
      ∀ n t', (Function.update life n₀ s' n).owner = some t' →
        ((Function.update w.pc t p') t').holding t' = some (n, Function.update life n₀ s' n) := by
  constructor
  · intro t' n s holds
    by_cases same : t' = t
    · subst same
      rw [Function.update_same] at holds
      obtain ⟨rfl, rfl, -⟩ := (after n s).mp holds
      exact Function.update_same _ _ _
    · rw [Function.update_noteq same] at holds
      have stage := inv.holding t' n s holds
      have other : n ≠ n₀ := fun eq =>
        same (ownerBefore t' (eq ▸ stage ▸ Pc.owner_of_holding holds))
      rw [Function.update_noteq other, stage]
  · intro n t' owns
    by_cases moved : n = n₀
    · subst moved
      rw [Function.update_same] at owns ⊢
      obtain rfl := ownerAfter t' owns
      rw [Function.update_same]
      exact (after _ _).mpr ⟨rfl, rfl, owns⟩
    · rw [Function.update_noteq moved] at owns ⊢
      have held := inv.owned n t' owns
      by_cases same : t' = t
      · exact absurd (before _ _ (same ▸ held)) moved
      · rwa [Function.update_noteq same]

/-- Allocation puts the fresh node `nextNode` into thread `t`'s hands. -/
theorem allocate (inv : Lifecycle w life) (idle : w.pc t = .idle) :
    Lifecycle (w.allocate t key) (Function.update life w.nextNode (.pending t key)) := by
  have fresh := inv.fresh w.nextNode le_rfl
  obtain ⟨holding, owned⟩ := inv.holding_step (.addCas key w.nextNode) w.nextNode (.pending t key)
    (fun _ _ holds => by rw [idle] at holds; cases holds)
    (fun _ owns => by simp [fresh, Life.owner] at owns)
    (fun _ _ => by simp [Pc.holding, Life.owner, eq_comm])
    (fun _ owns => by simp [Life.owner] at owns; exact owns.symm)
  refine ⟨fun n beyond => ?_, fun k n slot => update_stage (inv.slot k n slot) (by simp [fresh]),
    holding, owned, fun n set => ?_,
    fun n mem => update_stage (inv.discarded n mem) (by simp [fresh]),
    fun n mem => update_flag_of_ne (inv.stored n mem) (by rw [fresh]; rfl),
    inv.handed_update fun _ _ => by rw [fresh]; rfl,
    inv.retired_update (fun _ _ => by simp [fresh]) (fun _ _ => by simp), inv.taken_nodup,
    inv.retired_nodup⟩
  · simp only [World.allocate] at beyond
    rw [Function.update_noteq (by omega)]
    exact inv.fresh n (by omega)
  · by_cases same : n = w.nextNode
    · simp [World.allocate, same] at set
    · rw [Function.update_noteq same]
      exact inv.collected n (by simpa [World.allocate, same] using set)

/-- A successful compare-exchange stores the node thread `t` allocated. -/
theorem install (inv : Lifecycle w life) (holds : w.pc t = .addCas key node)
    (empty : w.slots key = none) :
    Lifecycle (w.install t key node) (Function.update life node (.stored key)) := by
  have pending : life node = .pending t key := inv.holding t node _ (by rw [holds]; rfl)
  obtain ⟨holding, owned⟩ := inv.holding_step .idle node (.stored key)
    (fun _ _ held => by rw [holds] at held; simp [Pc.holding] at held; exact held.1.symm)
    (fun _ owns => by simp [pending, Life.owner] at owns; exact owns.symm)
    (fun _ _ => by simp [Pc.holding, Life.owner]) (fun _ owns => by simp [Life.owner] at owns)
  refine ⟨fun n beyond => update_stage (inv.fresh n beyond) (by simp [pending]),
    fun k n slot => ?_, holding, owned,
    fun n set => update_flag_of_ne (inv.collected n set) (by rw [pending]; rfl),
    fun n mem => update_stage (inv.discarded n mem) (by simp [pending]), fun n mem => ?_,
    inv.handed_update fun _ _ => by rw [pending]; rfl,
    inv.retired_update (fun _ _ => by simp [pending]) (fun _ _ => by simp), inv.taken_nodup,
    inv.retired_nodup⟩
  · by_cases same : k = key
    · subst same
      simp only [World.install, World.respond, Function.update_same, Option.some.injEq] at slot
      subst slot
      exact Function.update_same _ _ _
    · exact update_stage (inv.slot k n (by simpa [World.install, World.respond, same] using slot))
        (by simp [pending])
  · simp only [World.install, World.respond, List.mem_append, List.mem_singleton] at mem
    rcases mem with old | rfl
    · exact update_flag_of_ne (inv.stored n old) (by rw [pending]; rfl)
    · simp [Life.wasStored]

/-- A failed compare-exchange discards the node thread `t` allocated. -/
theorem discard (inv : Lifecycle w life) (holds : w.pc t = .addCas key node) :
    Lifecycle (w.discard t key node) (Function.update life node .discarded) := by
  have pending : life node = .pending t key := inv.holding t node _ (by rw [holds]; rfl)
  obtain ⟨holding, owned⟩ := inv.holding_step .idle node .discarded
    (fun _ _ held => by rw [holds] at held; simp [Pc.holding] at held; exact held.1.symm)
    (fun _ owns => by simp [pending, Life.owner] at owns; exact owns.symm)
    (fun _ _ => by simp [Pc.holding, Life.owner]) (fun _ owns => by simp [Life.owner] at owns)
  refine ⟨fun n beyond => update_stage (inv.fresh n beyond) (by simp [pending]),
    fun k n slot => update_stage (inv.slot k n slot) (by simp [pending]), holding, owned,
    fun n set => update_flag_of_ne (inv.collected n set) (by rw [pending]; rfl), fun n mem => ?_,
    fun n mem => update_flag_of_ne (inv.stored n mem) (by rw [pending]; rfl),
    inv.handed_update fun _ _ => by rw [pending]; rfl,
    inv.retired_update (fun _ _ => by simp [pending]) (fun _ _ => by simp), inv.taken_nodup,
    inv.retired_nodup⟩
  simp only [World.discard, World.respond, List.mem_append, List.mem_singleton] at mem
  rcases mem with old | rfl
  · exact update_stage (inv.discarded n old) (by simp [pending])
  · exact Function.update_same _ _ _

/-- An exchange that finds a node takes it into thread `t`'s hands. -/
theorem take (inv : Lifecycle w life) (idle : w.pc t = .idle) (slot : w.slots key = some node) :
    Lifecycle (w.take t key node) (Function.update life node (.taken t key)) := by
  have stored := inv.slot key node slot
  obtain ⟨holding, owned⟩ := inv.holding_step (.removeFlag key node) node (.taken t key)
    (fun _ _ held => by rw [idle] at held; cases held)
    (fun _ owns => by simp [stored, Life.owner] at owns)
    (fun _ _ => by simp [Pc.holding, Life.owner, eq_comm])
    (fun _ owns => by simp [Life.owner] at owns; exact owns.symm)
  refine ⟨fun n beyond => update_stage (inv.fresh n beyond) (by simp [stored]),
    fun k n slot' => ?_, holding, owned,
    fun n set => update_flag_of_ne (inv.collected n set) (by rw [stored]; rfl),
    fun n mem => update_stage (inv.discarded n mem) (by simp [stored]),
    fun n mem => update_flag (inv.stored n mem) rfl, fun e => ?_,
    inv.retired_update (fun _ _ => by simp [stored]) (fun _ _ => by simp), ?_, inv.retired_nodup⟩
  · by_cases same : k = key
    · simp [World.take, same] at slot'
    · exact update_stage (inv.slot k n (by simpa [World.take, same] using slot'))
        (by simp [stored, same])
  · simp only [World.take, List.mem_append, List.mem_singleton]
    rw [inv.handed e, Function.update_apply]
    split_ifs with same
    · rw [same, stored]
      obtain ⟨thread, key', node'⟩ := e
      simp only at same
      subst same
      simp only [Life.handedBy, Handoff.mk.injEq, and_true, Bool.false_eq_true, false_or,
        decide_eq_true_eq]
      exact ⟨fun ⟨a, b⟩ => ⟨a.symm, b.symm⟩, fun ⟨a, b⟩ => ⟨a.symm, b.symm⟩⟩
    · exact or_iff_left fun eq => same (eq ▸ rfl)
  · simp only [World.take, List.map_append, List.map_singleton]
    refine List.nodup_append.mpr
      ⟨inv.taken_nodup, List.nodup_singleton _, fun n mem single => ?_⟩
    obtain ⟨e, held, rfl⟩ := List.mem_map.mp mem
    have handed := (inv.handed e).mp held
    rw [List.mem_singleton.mp single, stored] at handed
    simp [Life.handedBy] at handed

/-- The exchange on `collected` that finds 0 flags the node in thread `t`'s hands. -/
theorem flag (inv : Lifecycle w life) (holds : w.pc t = .removeFlag key node) :
    Lifecycle (w.flag t key node) (Function.update life node (.flagged t key)) := by
  have taken : life node = .taken t key := inv.holding t node _ (by rw [holds]; rfl)
  obtain ⟨holding, owned⟩ := inv.holding_step (.removeRetire key node) node (.flagged t key)
    (fun _ _ held => by rw [holds] at held; simp [Pc.holding] at held; exact held.1.symm)
    (fun _ owns => by simp [taken, Life.owner] at owns; exact owns.symm)
    (fun _ _ => by simp [Pc.holding, Life.owner, eq_comm])
    (fun _ owns => by simp [Life.owner] at owns; exact owns.symm)
  refine ⟨fun n beyond => update_stage (inv.fresh n beyond) (by simp [taken]),
    fun k n slot => update_stage (inv.slot k n slot) (by simp [taken]), holding, owned,
    fun n set => ?_, fun n mem => update_stage (inv.discarded n mem) (by simp [taken]),
    fun n mem => update_flag (inv.stored n mem) rfl,
    inv.handed_update fun _ _ => by rw [taken]; rfl,
    inv.retired_update (fun _ _ => by simp [taken]) (fun _ _ => by simp), inv.taken_nodup,
    inv.retired_nodup⟩
  rw [Function.update_apply]
  split_ifs with same
  · rfl
  · exact inv.collected n (by simpa [World.flag, same] using set)

/-- `forkscan_retire` retires the node in thread `t`'s hands. -/
theorem retire (inv : Lifecycle w life) (holds : w.pc t = .removeRetire key node) :
    Lifecycle (w.retire t key node) (Function.update life node (.retired t key)) := by
  have flagged : life node = .flagged t key := inv.holding t node _ (by rw [holds]; rfl)
  obtain ⟨holding, owned⟩ := inv.holding_step .idle node (.retired t key)
    (fun _ _ held => by rw [holds] at held; simp [Pc.holding] at held; exact held.1.symm)
    (fun _ owns => by simp [flagged, Life.owner] at owns; exact owns.symm)
    (fun _ _ => by simp [Pc.holding, Life.owner]) (fun _ owns => by simp [Life.owner] at owns)
  refine ⟨fun n beyond => update_stage (inv.fresh n beyond) (by simp [flagged]),
    fun k n slot => update_stage (inv.slot k n slot) (by simp [flagged]), holding, owned,
    fun n set => update_flag (inv.collected n set) rfl,
    fun n mem => update_stage (inv.discarded n mem) (by simp [flagged]),
    fun n mem => update_flag (inv.stored n mem) rfl,
    inv.handed_update fun _ _ => by rw [flagged]; rfl, fun e => ?_, inv.taken_nodup, ?_⟩
  · simp only [World.retire, List.mem_append, List.mem_singleton]
    rw [inv.retired e, Function.update_apply]
    split_ifs with same
    · rw [same, flagged]
      obtain ⟨thread, key', node'⟩ := e
      simp only at same
      subst same
      simp only [reduceCtorEq, false_or, Handoff.mk.injEq, and_true, Life.retired.injEq]
      exact ⟨fun ⟨a, b⟩ => ⟨a.symm, b.symm⟩, fun ⟨a, b⟩ => ⟨a.symm, b.symm⟩⟩
    · exact or_iff_left fun eq => same (eq ▸ rfl)
  · simp only [World.retire, List.map_append, List.map_singleton]
    refine List.nodup_append.mpr
      ⟨inv.retired_nodup, List.nodup_singleton _, fun n mem single => ?_⟩
    obtain ⟨e, gone, rfl⟩ := List.mem_map.mp mem
    have stage := (inv.retired e).mp gone
    rw [List.mem_singleton.mp single, flagged] at stage
    cases stage

/-- A node in a thread's hands after its exchange has `collected = 0`. -/
theorem not_collected (inv : Lifecycle w life) (holds : w.pc t = .removeFlag key node) :
    w.collected node = false := by
  have taken : life node = .taken t key := inv.holding t node _ (by rw [holds]; rfl)
  by_contra set
  have := inv.collected node (by simpa using set)
  rw [taken] at this
  cases this

/-- Every step keeps the table in agreement with the lives, moving at most one node by one move
of its life. -/
theorem step (inv : Lifecycle w life) {w' : World} (step : Step w w') :
    ∃ life', Lifecycle w' life' ∧
      (life' = life ∨ ∃ n s, Life.Move (life n) s ∧ life' = Function.update life n s) := by
  cases step with
  | containsLoad t key => exact ⟨life, inv.respond _, .inl rfl⟩
  | addLoadFull t key => exact ⟨life, inv.respond _, .inl rfl⟩
  | removeEmpty t key => exact ⟨life, inv.respond _, .inl rfl⟩
  | addLoadEmpty t key idle =>
      refine ⟨_, inv.allocate idle, .inr ⟨_, _, ?_, rfl⟩⟩
      rw [inv.fresh _ le_rfl]
      exact .allocate t key
  | addCasSuccess t key node holds empty =>
      refine ⟨_, inv.install holds empty, .inr ⟨_, _, ?_, rfl⟩⟩
      rw [inv.holding t node _ (by rw [holds]; rfl)]
      exact .store t key
  | addCasFailure t key node holds =>
      refine ⟨_, inv.discard holds, .inr ⟨_, _, ?_, rfl⟩⟩
      rw [inv.holding t node _ (by rw [holds]; rfl)]
      exact .discard t key
  | removeTake t key node idle _ slot =>
      refine ⟨_, inv.take idle slot, .inr ⟨_, _, ?_, rfl⟩⟩
      rw [inv.slot key node slot]
      exact .take t key
  | removeFlagFresh t key node holds =>
      refine ⟨_, inv.flag holds, .inr ⟨_, _, ?_, rfl⟩⟩
      rw [inv.holding t node _ (by rw [holds]; rfl)]
      exact .flag t key
  | removeFlagCollected t key node holds set => simp [inv.not_collected holds] at set
  | removeRetire t key node holds =>
      refine ⟨_, inv.retire holds, .inr ⟨_, _, ?_, rfl⟩⟩
      rw [inv.holding t node _ (by rw [holds]; rfl)]
      exact .retire t key

end Lifecycle

/-- Every reachable state agrees with some life of its nodes. -/
theorem lifecycle_reachable {w : World} (reach : Reachable w) : ∃ life, Lifecycle w life := by
  induction reach with
  | initial => exact ⟨_, Lifecycle.initial⟩
  | step _ step ih =>
      obtain ⟨life, inv⟩ := ih
      obtain ⟨life', inv', -⟩ := inv.step step
      exact ⟨life', inv'⟩


namespace Lifecycle

variable {w : World} {life : Nat → Life}

/-- A retired node was handed over by the exchange of the same thread on the same key. -/
theorem retired_mem_taken (inv : Lifecycle w life) {e : Handoff} (gone : e ∈ w.retired) :
    e ∈ w.taken := by
  rw [inv.handed, (inv.retired e).mp gone]
  simp [Life.handedBy]

/-- A node taken out of its slot is in no slot. -/
theorem taken_not_in_slot (inv : Lifecycle w life) {e : Handoff} (held : e ∈ w.taken) (k : Nat) :
    w.slots k ≠ some e.node := fun slot => by
  have handed := (inv.handed e).mp held
  rw [inv.slot k _ slot] at handed
  cases handed

/-- A discarded node was never installed and is not retired. -/
theorem discarded_untouched (inv : Lifecycle w life) {n : Nat} (mem : n ∈ w.discarded) :
    n ∉ w.stored ∧ ∀ e ∈ w.retired, e.node ≠ n := by
  have stage := inv.discarded n mem
  refine ⟨fun stored => ?_, fun e gone same => ?_⟩
  · have := inv.stored n stored
    rw [stage] at this
    cases this
  · have := (inv.retired e).mp gone
    rw [same, stage] at this
    cases this

/-- A node taken out of its slot has been retired by the thread that took it, or that thread is
between its exchange and its return. -/
theorem taken_settled (inv : Lifecycle w life) {e : Handoff} (held : e ∈ w.taken) :
    e ∈ w.retired ∨ w.pc e.thread = .removeFlag e.key e.node ∨
      w.pc e.thread = .removeRetire e.key e.node := by
  rcases Life.handedBy_eq_true.mp ((inv.handed e).mp held) with stage | stage | stage
  · have held := inv.owned e.node e.thread (by rw [stage]; rfl)
    rw [stage] at held
    exact .inr (.inl (Pc.eq_removeFlag held))
  · have held := inv.owned e.node e.thread (by rw [stage]; rfl)
    rw [stage] at held
    exact .inr (.inr (Pc.eq_removeRetire held))
  · exact .inl ((inv.retired e).mpr stage)

end Lifecycle

/-- In every interleaving of any number of threads: every node is passed to `forkscan_retire` at
most once, and only by the `remove_node` call whose exchange took it out of its slot (the same
thread and key); a node is taken out at most once and after that is in no slot; a node discarded
after a failed compare-exchange was never stored in a slot and is not retired; the "already
collected" branch is never enabled, since a node in a remover's hands still has `collected = 0`;
and every `remove_node` whose exchange took a node has retired exactly that node, or is still
on its way there. -/
theorem retirement_exactly_once {w : World} (reach : Reachable w) :
    (w.retired.map Handoff.node).Nodup ∧
      (∀ e ∈ w.retired, e ∈ w.taken) ∧
      (w.taken.map Handoff.node).Nodup ∧
      (∀ e ∈ w.taken, ∀ k, w.slots k ≠ some e.node) ∧
      (∀ n ∈ w.discarded, n ∉ w.stored ∧ ∀ e ∈ w.retired, e.node ≠ n) ∧
      (∀ t k n, w.pc t = .removeFlag k n → w.collected n = false) ∧
      (∀ e ∈ w.taken, e ∈ w.retired ∨ w.pc e.thread = .removeFlag e.key e.node ∨
        w.pc e.thread = .removeRetire e.key e.node) := by
  obtain ⟨life, inv⟩ := lifecycle_reachable reach
  exact ⟨inv.retired_nodup, fun _ => inv.retired_mem_taken, inv.taken_nodup,
    fun _ => inv.taken_not_in_slot, fun _ => inv.discarded_untouched,
    fun _ _ _ => inv.not_collected, fun _ => inv.taken_settled⟩

/-- After thread 0's `add(0)` and thread 1's `remove_node(0)`, node 0 has been retired once, by
the call whose exchange took it out of slot 0, and no slot holds it. -/
theorem retirement_exactly_once_retired :
    ∃ w, Reachable w ∧ w.retired = [⟨1, 0, 0⟩] ∧ (w.retired.map Handoff.node).Nodup ∧
      (∀ e ∈ w.retired, e ∈ w.taken) ∧ ∀ e ∈ w.taken, ∀ k, w.slots k ≠ some e.node :=
  have holds := retirement_exactly_once reachable_retired
  ⟨_, reachable_retired, rfl, holds.1, holds.2.1, holds.2.2.2.1⟩

end ForkscanRegistry.Workload
