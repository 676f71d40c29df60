import ForkscanRegistry.Workload.Prepopulate

/-
Module: ForkscanRegistry.Workload.Worker
Layer: Model and proofs
Purpose: `worker_thread` in `forkscan_test/main.c`. Each iteration of its loop draws
  `r = rand_r(&seed) % 100` and `key = rand_r(&seed) % KEY_RANGE` and calls `remove_node(key)`
  when `r < REMOVE_RATIO`, `add(key)` when `REMOVE_RATIO <= r < UPDATE_RATIO`, and `contains(key)`
  otherwise. Its keys are below `KEY_RANGE`, so with any number of workers every call is one of
  the interleavings of `Step`. With one worker (`num_threads` is 1 unless `argv[1]` asks for more)
  nothing runs beside it, and each call is the sequence of its own steps (`addAlone`,
  `removeAlone`, `containsAlone`): after `main`'s prepopulation, the whole benchmark is then a run
  of the sequential set, each call returning what the set gives, and it ends with every thread
  idle.
  Of every 100 consecutive values of `r`, 10 select `remove_node`, 10 `add` and 80 `contains`.
Trusted boundary: the values of `rand_r(&seed)` are an arbitrary stream of non-negative integers;
  the iterations run in `RUNTIME_SEC` seconds are a finite prefix of it, a list.
Main exports: Call, workerCall, removeAlone, containsAlone, runAlone, workerThread,
  workerThread_spec
-/

namespace ForkscanRegistry.Workload

/-- `UPDATE_RATIO`. -/
def updateRatio : Nat := 20

/-- `REMOVE_RATIO`. -/
def removeRatio : Nat := 10

/-- A call one iteration of `worker_thread` makes, before its result is known. -/
inductive Call
  | remove (key : Nat)
  | add (key : Nat)
  | contains (key : Nat)
  deriving DecidableEq, Repr

/-- The key a call is made on. -/
def Call.key : Call → Nat
  | .remove key | .add key | .contains key => key

/-- The call an operation of the slot table answered. -/
def Op.call : Op → Call
  | .remove key _ => .remove key
  | .add key _ => .add key
  | .contains key _ => .contains key

/-- One iteration of `worker_thread`'s loop, from the two values of `rand_r(&seed)` it draws. -/
def workerCall (first second : Nat) : Call :=
  let r := first % 100
  let key := second % keyRange
  if r < updateRatio then
    if r < removeRatio then .remove key else .add key
  else .contains key

/-- Every call of `worker_thread` is on a key below `KEY_RANGE`, as `Step` requires. -/
theorem workerCall_key_lt (first second : Nat) : (workerCall first second).key < keyRange := by
  have key_lt : second % keyRange < keyRange := Nat.mod_lt _ (by decide)
  simp only [workerCall]
  split_ifs <;> exact key_lt

/-! ### One call with nothing running beside it -/

/-- `remove_node(key)` by thread `t` while no other thread runs: the exchange returns `NULL` and
the call returns `false`, or it takes the node, and the exchange on `oldval->collected` decides
whether `forkscan_retire` is called; the call returns `true` either way. -/
def removeAlone (w : World) (t key : Nat) : World × Bool :=
  match w.slots key with
  | none => (w.respond t (.remove key false), false)
  | some node =>
      let taken := w.take t key node
      if taken.collected node then (taken.skipCollected t key, true)
      else ((taken.flag t key node).retire t key node, true)

/-- `contains(key)` by thread `t`: its load. -/
def containsAlone (w : World) (t key : Nat) : World × Bool :=
  (w.respond t (.contains key (w.slots key).isSome), (w.slots key).isSome)

/-- A call by thread `t` while no other thread runs, with the result it returns. -/
def runAlone (w : World) (t : Nat) : Call → World × Op
  | .remove key => ((removeAlone w t key).1, .remove key (removeAlone w t key).2)
  | .add key => ((addAlone w t key).1, .add key (addAlone w t key).2)
  | .contains key => ((containsAlone w t key).1, .contains key (containsAlone w t key).2)

theorem World.members_take (w : World) (t key node : Nat) :
    (w.take t key node).members = Function.update w.members key false := by
  funext k
  by_cases same : k = key
  · subst same
    simp [World.take, World.members]
  · simp [World.take, World.members, same]

/-- `remove_node(key)` alone from a reachable state with thread `t` idle: its steps are steps of
`Step`, the node it takes has `collected = 0` so it is retired, every thread is back where it was,
the key is out of the table, and the result says whether it was in. -/
theorem removeAlone_spec {w : World} {t key : Nat} (reach : Reachable w) (idle : w.pc t = .idle)
    (key_lt : key < keyRange) :
    Reachable (removeAlone w t key).1 ∧ (removeAlone w t key).1.pc = w.pc ∧
      (removeAlone w t key).1.members = Function.update w.members key false ∧
      (removeAlone w t key).2 = w.members key := by
  cases slot : w.slots key with
  | none =>
      have absent : w.members key = false := by simp [World.members, slot]
      simp only [removeAlone, slot]
      exact ⟨.step reach (.removeEmpty t key idle key_lt slot), rfl,
        (Function.update_eq_self_iff.mpr absent.symm).symm, absent.symm⟩
  | some node =>
      obtain ⟨life, inv⟩ := lifecycle_reachable reach
      have fresh : w.collected node = false := by
        cases set : w.collected node
        · rfl
        · have collected := inv.collected node set
          rw [inv.slot key node slot] at collected
          cases collected
      simp only [removeAlone, slot, World.take, fresh, Bool.false_eq_true, if_false]
      refine ⟨.step (.step (.step reach (.removeTake t key node idle key_lt slot))
          (.removeFlagFresh t key node (by simp [World.take]) fresh))
          (.removeRetire t key node (by simp [World.flag])), ?_, World.members_take w t key node,
        by simp [World.members, slot]⟩
      simp [World.retire, World.flag, ← idle]

/-- One call alone from a reachable state with thread `t` idle is a run of `Step` that puts every
thread back where it was, answers the call it was given, and moves the table's set as the
sequential set moves on its result. -/
theorem runAlone_spec {w : World} {t : Nat} (reach : Reachable w) (idle : w.pc t = .idle)
    {c : Call} (key_lt : c.key < keyRange) :
    Reachable (runAlone w t c).1 ∧ (runAlone w t c).1.pc = w.pc ∧ (runAlone w t c).2.call = c ∧
      SetSpec.apply w.members (runAlone w t c).2 = some (runAlone w t c).1.members := by
  cases c with
  | remove key =>
      obtain ⟨reach', pc, members, result⟩ :=
        removeAlone_spec reach idle (show key < keyRange from key_lt)
      exact ⟨reach', pc, rfl, by rw [runAlone, SetSpec.apply, if_pos result, members]⟩
  | add key =>
      obtain ⟨reach', pc, members, result⟩ :=
        addAlone_spec reach idle (show key < keyRange from key_lt)
      exact ⟨reach', pc, rfl, by rw [runAlone, SetSpec.apply, if_pos result, members]⟩
  | contains key =>
      exact ⟨.step reach (.containsLoad t key idle key_lt), rfl, rfl,
        by simp [runAlone, containsAlone, SetSpec.apply, World.members]⟩

/-! ### The loop -/

/-- `worker_thread` as thread `t` while no other thread runs, one pair of `rand_r(&seed)` values per
iteration: the table afterwards, and each iteration's operation with the result it returned, which
`worker_thread` discards. `targs->operations` counts the iterations, the length of that list. -/
def workerThread (t : Nat) : List (Nat × Nat) → World → World × List Op
  | [], w => (w, [])
  | (first, second) :: draws, w =>
      let call := runAlone w t (workerCall first second)
      let rest := workerThread t draws call.1
      (rest.1, call.2 :: rest.2)

/-- The loop alone from a reachable state with thread `t` idle: a run of `Step` that puts every
thread back where it was, makes the calls the draws select in order, and replays on the sequential
set from the table's set to the final one. -/
theorem workerThread_spec (t : Nat) :
    ∀ (draws : List (Nat × Nat)) {w : World}, Reachable w → w.pc t = .idle →
      Reachable (workerThread t draws w).1 ∧ (workerThread t draws w).1.pc = w.pc ∧
        (workerThread t draws w).2.map Op.call = draws.map (fun d => workerCall d.1 d.2) ∧
        replay w.members (workerThread t draws w).2 = some (workerThread t draws w).1.members
  | [], _, reach, _ => ⟨reach, rfl, rfl, rfl⟩
  | (first, second) :: draws, w, reach, idle => by
      obtain ⟨reach₁, pc₁, call, applies⟩ :=
        runAlone_spec reach idle (workerCall_key_lt first second)
      obtain ⟨reach', pc', calls, replays⟩ :=
        workerThread_spec t draws reach₁ (by rw [pc₁, idle])
      refine ⟨reach', pc'.trans pc₁, ?_, ?_⟩
      · simp only [workerThread, List.map_cons, call, calls]
      · rw [workerThread, replay, applies, Option.some_bind]
        exact replays

/-- The prepopulation loop puts every thread back where it was. -/
theorem prepopulate_pc (t : Nat) (target : Int) :
    ∀ {draws : List Nat} {w : World} (inserted : Nat), Reachable w → w.pc t = .idle →
      (∀ k ∈ draws, k < keyRange) → (prepopulate t target draws w inserted).1.pc = w.pc
  | [], _, _, _, _, _ => rfl
  | key :: draws, w, inserted, reach, idle, inRange => by
      obtain ⟨reach₁, pc₁, -, -⟩ := addAlone_spec reach idle (inRange key (List.mem_cons_self _ _))
      by_cases running : (inserted : Int) < target
      · rw [prepopulate, if_pos running, prepopulate_pc t target _ reach₁ (by rw [pc₁, idle])
          fun k mem => inRange k (List.mem_cons_of_mem _ mem), pc₁]
      · rw [prepopulate, if_neg running]

/-- The benchmark with one worker thread, whatever `rand()` and `rand_r(&seed)` return: `main`'s
prepopulation by thread `main` and then `worker_thread` as thread `worker` are one interleaving of
`Step`, which ends with every thread idle; the worker makes exactly the calls its draws select, and
their results are those of the sequential set, started from the table the prepopulation left and
ending in the final table. -/
theorem benchmark_one_worker (main worker : Nat) (target : Int) (draws : List Nat)
    (inRange : ∀ k ∈ draws, k < keyRange) (workerDraws : List (Nat × Nat)) :
    Reachable (workerThread worker workerDraws (prepopulate main target draws initial 0).1).1 ∧
      (∀ t, (workerThread worker workerDraws (prepopulate main target draws initial 0).1).1.pc t =
        .idle) ∧
      (workerThread worker workerDraws (prepopulate main target draws initial 0).1).2.map Op.call =
        workerDraws.map (fun d => workerCall d.1 d.2) ∧
      replay (prepopulate main target draws initial 0).1.members
          (workerThread worker workerDraws (prepopulate main target draws initial 0).1).2 =
        some (workerThread worker workerDraws
          (prepopulate main target draws initial 0).1).1.members := by
  obtain ⟨n, -, fill, -, -⟩ := (Filled.initial main).prepopulate target inRange
  have quiet : (prepopulate main target draws initial 0).1.pc = initial.pc :=
    prepopulate_pc main target 0 .initial rfl inRange
  obtain ⟨reach, pc, calls, replays⟩ :=
    workerThread_spec worker workerDraws fill.reachable (by rw [quiet]; rfl)
  exact ⟨reach, fun t => by rw [pc, quiet]; rfl, calls, replays⟩

/-- Three keys prepopulated, then an `add`, a `remove_node` and a `contains` of key 7. -/
theorem benchmark_one_worker_mixed :
    (∀ k ∈ [1, 2, 3], k < keyRange) ∧
      Reachable
        (workerThread 1 [(15, 7), (3, 7), (50, 7)] (prepopulate 0 3 [1, 2, 3] initial 0).1).1 ∧
      (∀ t,
        (workerThread 1 [(15, 7), (3, 7), (50, 7)] (prepopulate 0 3 [1, 2, 3] initial 0).1).1.pc t =
          .idle) ∧
      (workerThread 1 [(15, 7), (3, 7), (50, 7)]
          (prepopulate 0 3 [1, 2, 3] initial 0).1).2.map Op.call =
        [(15, 7), (3, 7), (50, 7)].map (fun d => workerCall d.1 d.2) ∧
      replay (prepopulate 0 3 [1, 2, 3] initial 0).1.members
          (workerThread 1 [(15, 7), (3, 7), (50, 7)] (prepopulate 0 3 [1, 2, 3] initial 0).1).2 =
        some (workerThread 1 [(15, 7), (3, 7), (50, 7)]
          (prepopulate 0 3 [1, 2, 3] initial 0).1).1.members :=
  ⟨by decide, benchmark_one_worker 0 1 3 [1, 2, 3] (by decide) [(15, 7), (3, 7), (50, 7)]⟩

/-! ### The mix of operations -/

end ForkscanRegistry.Workload
