import ForkscanRegistry.Workload.SlotTable

/-
Module: ForkscanRegistry.Workload.Linearizability
Layer: Refinement
Purpose: The slot table implements a set of keys. The abstract object is the sequential set
  `SetSpec`; the table's set is `{k | array[k] != NULL}`. Every operation takes effect at one of
  its own atomic steps (the load of `contains` and of `add`'s early `false`, the compare-exchange of
  `add`, the exchange of `remove_node`), where it is recorded in `linearized`; `Linearizable`
  says that this record is a legal run of the sequential set ending in the table's set, and that
  each thread's returned results are its linearized ones, but for a `remove_node` still between
  its exchange and its return. Counting additions and removals follows: the removals to count
  are the exchanges that took a node, whether or not their call has returned yet.
Trusted boundary: none
Main exports: SetSpec.apply, replay, World.members, threadOps, calls, Linearizable,
  linearizable_reachable, slotTable_linearizable, returned_removes_undercount
-/

namespace ForkscanRegistry.Workload

/-- One operation of the sequential set on `S`: the set afterwards, when `op`'s result is the one
the set gives, and `none` when it is not. -/
def SetSpec.apply (S : Nat → Bool) : Op → Option (Nat → Bool)
  | .add key result => if result = !S key then some (Function.update S key true) else none
  | .remove key result => if result = S key then some (Function.update S key false) else none
  | .contains key result => if result = S key then some S else none

/-- A history replayed on the sequential set from `S`: the final set, when every result agrees. -/
def replay (S : Nat → Bool) : List Op → Option (Nat → Bool)
  | [] => some S
  | op :: ops => (SetSpec.apply S op).bind fun S' => replay S' ops

theorem replay_append (S : Nat → Bool) (ops : List Op) (op : Op) :
    replay S (ops ++ [op]) = (replay S ops).bind fun S' => SetSpec.apply S' op := by
  induction ops generalizing S with
  | nil => simp [replay]
  | cons first ops ih =>
      simp only [replay, List.cons_append]
      cases SetSpec.apply S first <;> simp [ih]

/-- The table's set: the keys whose slot holds a node. -/
def World.members (w : World) (key : Nat) : Bool := (w.slots key).isSome

@[simp] theorem World.members_respond (w : World) (t : Nat) (op : Op) :
    (w.respond t op).members = w.members := rfl

theorem World.members_install (w : World) (t key node : Nat) :
    (w.install t key node).members = Function.update w.members key true := by
  funext k
  by_cases same : k = key
  · subst same
    simp [World.install, World.respond, World.members]
  · simp [World.install, World.respond, World.members, same]

@[simp] theorem World.members_discard (w : World) (t key node : Nat) :
    (w.discard t key node).members = w.members := rfl

/-- The operations of thread `t` in a log, in order. -/
def threadOps (log : List (Nat × Op)) (t : Nat) : List Op :=
  (log.filter fun entry => entry.1 = t).map Prod.snd

/-- How often `op` occurs in a log. -/
def calls (log : List (Nat × Op)) (op : Op) : Nat := (log.map Prod.snd).count op

/-- The operation a thread has linearized but not yet returned. -/
def Pc.inFlight : Pc → List Op
  | .removeFlag key _ | .removeRetire key _ => [.remove key true]
  | _ => []

/-- Moving one thread to a place with the same operation in flight changes no thread's. -/
theorem Pc.inFlight_update {pc : Nat → Pc} {t : Nat} {p : Pc}
    (same : p.inFlight = (pc t).inFlight) (t' : Nat) :
    (Function.update pc t p t').inFlight = (pc t').inFlight := by
  by_cases moved : t' = t
  · subst moved
    rw [Function.update_same, same]
  · rw [Function.update_noteq moved]

theorem threadOps_append (log : List (Nat × Op)) (t t' : Nat) (op : Op) :
    threadOps (log ++ [(t, op)]) t' = threadOps log t' ++ if t = t' then [op] else [] := by
  unfold threadOps
  split_ifs with same <;> simp [same]

theorem calls_append (log : List (Nat × Op)) (t : Nat) (op op' : Op) :
    calls (log ++ [(t, op)]) op' = calls log op' + if op = op' then 1 else 0 := by
  unfold calls
  split_ifs with same <;> simp [same, List.count_singleton', Ne.symm]

/-- One legal operation moves key `k` in when it is an addition of `k` that returns true, out when
it is a removal of `k` that returns true, and otherwise leaves `k` where it was. -/
theorem SetSpec.apply_balance {S S' : Nat → Bool} {op : Op} (k : Nat)
    (legal : SetSpec.apply S op = some S') :
    (((if op = .add k true then 1 else 0 : Nat) : Int) -
        ((if op = .remove k true then 1 else 0 : Nat) : Int)) =
      (if S' k then 1 else 0) - if S k then 1 else 0 := by
  cases op with
  | add key result | remove key result =>
      simp only [SetSpec.apply] at legal
      split_ifs at legal with agrees
      cases legal
      by_cases same : key = k
      · subst same
        cases h : S key <;> simp_all
      · simp [same, Function.update_noteq (Ne.symm same)]
  | contains key result =>
      simp only [SetSpec.apply] at legal
      split_ifs at legal
      cases legal
      simp

/-- Replaying a legal history moves key `k` in by additions that return true and out by
removals that return true, so their difference is the change of `k`'s membership. -/
theorem replay_balance {S S' : Nat → Bool} (k : Nat) :
    ∀ {ops : List Op}, replay S ops = some S' →
      (ops.count (.add k true) : Int) - ops.count (.remove k true) =
        (if S' k then 1 else 0) - if S k then 1 else 0
  | [], legal => by cases legal; simp
  | op :: ops, legal => by
      obtain ⟨S₁, first, rest⟩ := Option.bind_eq_some.mp legal
      have step := SetSpec.apply_balance k first
      have ih := replay_balance k rest
      simp only [List.count_cons, beq_iff_eq]
      omega

/-- The linearization invariant: the linearized operations replay legally on the sequential set
to the table's set, each thread has returned its linearized operations but the one in flight,
additions return when they take effect, and the true removals are counted by the exchanges that
took a node and returned by the calls of `forkscan_retire`. -/
structure Linearizable (w : World) : Prop where
  legal : replay (fun _ => false) (w.linearized.map Prod.snd) = some w.members
  per_thread : ∀ t, threadOps w.linearized t = threadOps w.completed t ++ (w.pc t).inFlight
  adds : ∀ k, calls w.completed (.add k true) = calls w.linearized (.add k true)
  removes : ∀ k, calls w.linearized (.remove k true) = w.taken.countP fun e => e.key = k
  retires : ∀ k, calls w.completed (.remove k true) = w.retired.countP fun e => e.key = k

namespace Linearizable

variable {w : World} {t key node : Nat}

theorem initial : Linearizable Workload.initial where
  legal := by simp [replay, Workload.initial, World.members]; rfl
  per_thread _ := by simp [threadOps, Workload.initial, Pc.inFlight]
  adds _ := rfl
  removes _ := rfl
  retires _ := rfl

/-- A step in which thread `t`, with nothing in flight, takes `op` into effect and returns it,
the table's set changing as the sequential set does, keeps the invariant. -/
theorem of_respond (lin : Linearizable w) {w' : World} (op : Op)
    (linearized : w'.linearized = w.linearized ++ [(t, op)])
    (completed : w'.completed = w.completed ++ [(t, op)])
    (taken : w'.taken = w.taken) (retired : w'.retired = w.retired)
    (quiet : (w.pc t).inFlight = []) (quiet' : (w'.pc t).inFlight = [])
    (others : ∀ t', t' ≠ t → w'.pc t' = w.pc t')
    (agrees : SetSpec.apply w.members op = some w'.members)
    (notRemoval : ∀ k, op ≠ .remove k true) : Linearizable w' where
  legal := by
    rw [linearized, List.map_append, List.map_singleton, replay_append, lin.legal]
    exact agrees
  per_thread t' := by
    rw [linearized, completed, threadOps_append, threadOps_append, lin.per_thread t']
    by_cases same : t = t'
    · subst same
      simp [quiet, quiet']
    · simp [same, others t' (Ne.symm same)]
  adds k := by rw [completed, linearized, calls_append, calls_append, lin.adds k]
  removes k := by simp [linearized, taken, calls_append, lin.removes k, notRemoval k]
  retires k := by simp [completed, retired, calls_append, lin.retires k, notRemoval k]

/-- An idle thread answering from the table without changing it keeps the invariant. -/
theorem respond (lin : Linearizable w) (idle : w.pc t = .idle) {op : Op}
    (agrees : SetSpec.apply w.members op = some w.members)
    (notRemoval : ∀ k, op ≠ .remove k true) :
    Linearizable (w.respond t op) :=
  have quiet : (w.pc t).inFlight = [] := by rw [idle]; rfl
  lin.of_respond op rfl rfl rfl rfl quiet quiet (fun _ _ => rfl) agrees notRemoval

/-- A step that records nothing and changes neither the set nor what any thread has in flight
keeps the invariant. -/
theorem of_silent (lin : Linearizable w) {w' : World}
    (linearized : w'.linearized = w.linearized) (completed : w'.completed = w.completed)
    (taken : w'.taken = w.taken) (retired : w'.retired = w.retired)
    (members : w'.members = w.members)
    (inFlight : ∀ t', (w'.pc t').inFlight = (w.pc t').inFlight) :
    Linearizable w' where
  legal := by rw [linearized, members]; exact lin.legal
  per_thread t' := by rw [linearized, completed, inFlight]; exact lin.per_thread t'
  adds k := by rw [completed, linearized]; exact lin.adds k
  removes k := by rw [linearized, taken]; exact lin.removes k
  retires k := by rw [completed, retired]; exact lin.retires k

/-- The exchange that takes a node out of the slot is a true removal taking effect. -/
theorem take (lin : Linearizable w) (idle : w.pc t = .idle) (slot : w.slots key = some node) :
    Linearizable (w.take t key node) where
  legal := by
    simp only [World.take, List.map_append, List.map_singleton, replay_append, lin.legal,
      Option.some_bind, SetSpec.apply, World.members, slot, Option.isSome_some, if_true]
    congr 1
    funext k
    by_cases same : k = key
    · subst same
      simp [World.members]
    · simp [same, World.members]
  per_thread t' := by
    simp only [World.take, threadOps_append, lin.per_thread t']
    by_cases same : t = t'
    · subst same
      simp [idle, Pc.inFlight]
    · simp [same, Function.update_noteq (Ne.symm same)]
  adds k := by simp [World.take, calls_append, lin.adds k]
  removes k := by
    simp only [World.take, calls_append, lin.removes k, List.countP_append, Op.remove.injEq,
      and_true]
    by_cases same : key = k <;> simp [same]
  retires k := lin.retires k

/-- The call of `forkscan_retire` returns the removal in flight. -/
theorem retire (lin : Linearizable w) (holds : w.pc t = .removeRetire key node) :
    Linearizable (w.retire t key node) where
  legal := lin.legal
  per_thread t' := by
    simp only [World.retire, threadOps_append, lin.per_thread t']
    by_cases same : t = t'
    · subst same
      simp [holds, Pc.inFlight]
    · simp [same, Function.update_noteq (Ne.symm same)]
  adds k := by simp [World.retire, calls_append, lin.adds k]
  removes k := lin.removes k
  retires k := by
    simp only [World.retire, calls_append, lin.retires k, List.countP_append, Op.remove.injEq,
      and_true]
    by_cases same : key = k <;> simp [same]

/-- Every step keeps the invariant. The one step that would return a removal without a call of
`forkscan_retire`, the "already collected" branch, is excluded by the lives of the nodes. -/
theorem step (lin : Linearizable w) {life : Nat → Life} (inv : Lifecycle w life) {w' : World}
    (step : Step w w') : Linearizable w' := by
  cases step with
  | containsLoad t key idle =>
      exact lin.respond idle (by simp [SetSpec.apply, World.members]) (fun _ => by simp)
  | addLoadFull t key idle _ full =>
      exact lin.respond idle (by simp [SetSpec.apply, World.members, full,
        Function.update_eq_self_iff]) (fun _ => by simp)
  | removeEmpty t key idle _ empty =>
      exact lin.respond idle (by simp [SetSpec.apply, World.members, empty,
        Function.update_eq_self_iff]) (fun _ => by simp)
  | addLoadEmpty t key idle =>
      exact lin.of_silent rfl rfl rfl rfl rfl (Pc.inFlight_update (by simp [idle, Pc.inFlight]))
  | addCasSuccess t key node holds empty =>
      exact lin.of_respond _ rfl rfl rfl rfl (by simp [holds, Pc.inFlight])
        (by simp [World.install, World.respond, Pc.inFlight])
        (fun _ other => Function.update_noteq other _ _)
        (by simp [SetSpec.apply, World.members_install, World.members, empty]) (fun _ => by simp)
  | addCasFailure t key node holds full =>
      exact lin.of_respond _ rfl rfl rfl rfl (by simp [holds, Pc.inFlight])
        (by simp [World.discard, World.respond, Pc.inFlight])
        (fun _ other => Function.update_noteq other _ _)
        (by simp [SetSpec.apply, World.members, full, Function.update_eq_self_iff])
        (fun _ => by simp)
  | removeTake t key node idle _ slot => exact lin.take idle slot
  | removeFlagFresh t key node holds =>
      exact lin.of_silent rfl rfl rfl rfl rfl (Pc.inFlight_update (by simp [holds, Pc.inFlight]))
  | removeFlagCollected t key node holds set => simp [inv.not_collected holds] at set
  | removeRetire t key node holds => exact lin.retire holds

end Linearizable

/-- Every reachable state satisfies the linearization invariant. -/
theorem linearizable_reachable {w : World} (reach : Reachable w) : Linearizable w := by
  induction reach with
  | initial => exact Linearizable.initial
  | step reach step ih =>
      obtain ⟨life, inv⟩ := lifecycle_reachable reach
      exact ih.step inv step

/-- With no `remove_node(k)` between its exchange and its return, every exchange that took a
node from `array[k]` has been answered by a call of `forkscan_retire`. -/
theorem retired_count_eq_taken {w : World} {life : Nat → Life} (inv : Lifecycle w life) {k : Nat}
    (settled : ∀ t n, w.pc t ≠ .removeFlag k n ∧ w.pc t ≠ .removeRetire k n) :
    (w.retired.countP fun e => e.key = k) = w.taken.countP fun e => e.key = k := by
  have same : (w.retired.filter fun e => e.key = k).Perm (w.taken.filter fun e => e.key = k) := by
    refine (List.perm_ext_iff_of_nodup ((inv.retired_nodup.of_map _).filter _)
      ((inv.taken_nodup.of_map _).filter _)).mpr fun e => ?_
    simp only [List.mem_filter, decide_eq_true_eq]
    refine ⟨fun ⟨gone, key⟩ => ⟨inv.retired_mem_taken gone, key⟩,
      fun ⟨held, key⟩ => ⟨?_, key⟩⟩
    rcases inv.taken_settled held with gone | flag | retire
    · exact gone
    · exact absurd (key ▸ flag) (settled _ _).1
    · exact absurd (key ▸ retire) (settled _ _).2
  simp only [List.countP_eq_length_filter]
  exact same.length_eq

/-- In every interleaving of any number of threads, the slot table is a linearizable set: the
operations, each taken at one of its own atomic steps (the load of `contains` and of `add`'s early
`false`, the compare-exchange of `add`, the exchange of `remove_node`), form a legal run of the
sequential set ending in `S = {k | array[k] != NULL}`, so `contains(k)` answers whether `k ∈ S`,
`add(k)` returns true iff it moved `k` in and `remove_node(k)` iff it moved `k` out; and every
thread has returned exactly its linearized operations, but a `remove_node` between its exchange
and its return. Hence for every key `k`, the additions of `k` that returned true less the
exchanges that took a node from `array[k]` (returned or not) count `[array[k] != NULL]`; counting
only returned removals, the identity holds at every state where no `remove_node(k)` is between
its exchange and its return. -/
theorem slotTable_linearizable {w : World} (reach : Reachable w) :
    replay (fun _ => false) (w.linearized.map Prod.snd) = some w.members ∧
      (∀ t, threadOps w.linearized t = threadOps w.completed t ++ (w.pc t).inFlight) ∧
      (∀ k, (calls w.completed (.add k true) : Int) - (w.taken.countP fun e => e.key = k) =
        if w.members k then 1 else 0) ∧
      (∀ k, (∀ t n, w.pc t ≠ .removeFlag k n ∧ w.pc t ≠ .removeRetire k n) →
        (calls w.completed (.add k true) : Int) - calls w.completed (.remove k true) =
          if w.members k then 1 else 0) := by
  have lin := linearizable_reachable reach
  obtain ⟨life, inv⟩ := lifecycle_reachable reach
  have balance : ∀ k,
      (calls w.completed (.add k true) : Int) - (w.taken.countP fun e => e.key = k) =
        if w.members k then 1 else 0 := fun k => by
    rw [lin.adds k, ← lin.removes k]
    simpa using replay_balance k lin.legal
  refine ⟨lin.legal, lin.per_thread, balance, fun k settled => ?_⟩
  rw [lin.retires k, retired_count_eq_taken inv settled]
  exact balance k

/-- After thread 0's `add(0)` returns true and thread 1's `remove_node(0)` has exchanged the node
out: the run `add(0) → true`, `remove_node(0) → true` replays to the table, in which 0 is absent;
thread 1 has returned nothing and its removal is in flight; and for key 0 one addition less one
exchange balances the empty slot. -/
theorem slotTable_linearizable_taken :
    ∃ w, Reachable w ∧ w.linearized.map Prod.snd = [.add 0 true, .remove 0 true] ∧
      w.members 0 = false ∧
      replay (fun _ => false) (w.linearized.map Prod.snd) = some w.members ∧
      threadOps w.linearized 1 = threadOps w.completed 1 ++ (w.pc 1).inFlight ∧
      (calls w.completed (.add 0 true) : Int) - (w.taken.countP fun e => e.key = 0) =
        if w.members 0 then 1 else 0 :=
  have holds := slotTable_linearizable reachable_taken
  ⟨_, reachable_taken, rfl, rfl, holds.1, holds.2.1 1, holds.2.2.1 0⟩

/-- Counting only the `remove_node` calls that have returned, the identity fails: after thread 0's
`add(0)` returns true and thread 1's `remove_node(0)` has exchanged the node out but not yet
returned, one addition of 0 has returned true, no removal has, and `array[0]` is `NULL`. -/
theorem returned_removes_undercount :
    ∃ w, Reachable w ∧
      (calls w.completed (.add 0 true) : Int) - calls w.completed (.remove 0 true) ≠
        if w.members 0 then 1 else 0 :=
  ⟨_, reachable_taken, by decide⟩

end ForkscanRegistry.Workload
