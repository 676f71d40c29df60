import ForkscanRegistry.Workload.Linearizability
import Mathlib.Data.Finset.Card

/-
Module: ForkscanRegistry.Workload.Prepopulate
Layer: Model and proofs
Purpose: The prepopulation loop of `main` in `forkscan_test/main.c`, run before any worker thread
  starts:
    `while (inserted < atoi(argv[2])) { int k = rand() % atoi(argv[3]); if (add(k)) inserted++; }`
  With no other thread running, `add(k)` is its load and, when the slot is empty, its allocation
  and a compare-exchange that cannot fail: two or three steps of `Step`, so the table the workers
  start from is a state of `Reachable`, and every guarantee proved for reachable states holds for
  the benchmark as a whole. The loop leaves exactly the keys drawn in the table and counts them
  once each, so it stops as soon as `atoi(argv[2])` distinct keys have been drawn. The keys are
  `rand() % atoi(argv[3])` (`drawKey`): `rand()` is never negative and C's `%` truncates, so for a
  divisor of either sign they lie in `[0, |atoi(argv[3])|)`; when
  `atoi(argv[2]) > |atoi(argv[3])|` there are not that many keys to draw and the loop never stops.
Trusted boundary: the values of `rand()` are an arbitrary stream of non-negative integers; a
  finite prefix of it is a list.
Main exports: addAlone, prepopulate, drawKey, Filled, Filled.prepopulate
-/

namespace ForkscanRegistry.Workload

/-- `add(key)` by thread `t` while no other thread runs: the load returns `false` on a node, and
on `NULL` the allocation and the compare-exchange, which finds the slot still `NULL`, return
`true`. -/
def addAlone (w : World) (t key : Nat) : World × Bool :=
  if (w.slots key).isSome then (w.respond t (.add key false), false)
  else ((w.allocate t key).install t key w.nextNode, true)

/-- The loop of `main` run by thread `t`, with `target` for `atoi(argv[2])` and `draws` for the
values `rand() % atoi(argv[3])` takes. The model stops when the draws run out: a run of the C loop
that has drawn `n` keys is the run of the model on the first `n` of them. -/
def prepopulate (t : Nat) (target : Int) : List Nat → World → Nat → World × Nat
  | [], w, inserted => (w, inserted)
  | k :: draws, w, inserted =>
      if (inserted : Int) < target then
        prepopulate t target draws (addAlone w t k).1
          (if (addAlone w t k).2 then inserted + 1 else inserted)
      else (w, inserted)

/-- `rand() % atoi(argv[3])` for a value `r` of `rand()`, with `range` for `atoi(argv[3])`. -/
def drawKey (range : Int) (r : Nat) : Nat := ((r : Int).tmod range).toNat

/-- A non-negative dividend keeps C's truncating `%` non-negative whatever the divisor's sign: the
key is `r` modulo `|range|`. -/
theorem drawKey_eq (range : Int) (r : Nat) : drawKey range r = r % range.natAbs := by
  rcases Int.natAbs_eq range with same | same <;> rw [drawKey, same]
  · rw [← Int.ofNat_tmod, Int.natAbs_ofNat, Int.toNat_ofNat]
  · rw [Int.tmod_neg, ← Int.ofNat_tmod, Int.natAbs_neg, Int.natAbs_ofNat, Int.toNat_ofNat]

/-- With `atoi(argv[3]) = -5` the keys are those of `5`: `7 % -5` is 2 in C. -/
example : drawKey (-5) 7 = 2 := by decide

/-- Appending a key to a list of keys adds one distinct key exactly when it is new. -/
theorem card_toFinset_append_singleton (drawn : List Nat) (key : Nat) :
    (drawn ++ [key]).toFinset.card =
      if key ∈ drawn then drawn.toFinset.card else drawn.toFinset.card + 1 := by
  rw [List.toFinset_append, List.toFinset_cons, List.toFinset_nil, Finset.union_insert,
    Finset.union_empty]
  split_ifs with old
  · exact congrArg Finset.card (Finset.insert_eq_of_mem (List.mem_toFinset.mpr old))
  · exact Finset.card_insert_of_not_mem (mt List.mem_toFinset.mp old)

/-- `add(key)` alone from a reachable state with thread `t` idle: its steps are steps of `Step`,
every thread is back where it was, the key is in the table afterwards, and the result says whether
it was absent before. -/
theorem addAlone_spec {w : World} {t key : Nat} (reach : Reachable w) (idle : w.pc t = .idle)
    (key_lt : key < keyRange) :
    Reachable (addAlone w t key).1 ∧ (addAlone w t key).1.pc = w.pc ∧
      (addAlone w t key).1.members = Function.update w.members key true ∧
      (addAlone w t key).2 = !w.members key := by
  by_cases full : (w.slots key).isSome
  · simp only [addAlone, full, if_true]
    exact ⟨.step reach (.addLoadFull t key idle key_lt full), rfl,
      (Function.update_eq_self_iff.mpr full.symm).symm, by simp [World.members, full]⟩
  · have empty : w.slots key = none := Option.not_isSome_iff_eq_none.mp full
    simp only [addAlone, full, Bool.false_eq_true, if_false]
    refine ⟨.step (.step reach (.addLoadEmpty t key idle key_lt empty))
        (.addCasSuccess t key w.nextNode (by simp [World.allocate]) empty), ?_,
      World.members_install _ _ _ _, by simp [World.members, empty]⟩
    simp [World.install, World.respond, World.allocate, ← idle]

/-- What the loop keeps: the table is a state of some interleaving with thread `t` idle, its
occupied slots are the keys drawn so far, and `inserted` counts them. -/
structure Filled (t : Nat) (w : World) (drawn : List Nat) (inserted : Nat) : Prop where
  reachable : Reachable w
  idle : w.pc t = .idle
  occupied : ∀ k, w.members k = true ↔ k ∈ drawn
  count : inserted = drawn.toFinset.card

namespace Filled

variable {t : Nat} {w : World} {drawn : List Nat} {inserted : Nat}

theorem initial (t : Nat) : Filled t Workload.initial [] 0 where
  reachable := .initial
  idle := rfl
  occupied _ := by simp [World.members, Workload.initial]
  count := rfl

/-- One `add` of a key below `KEY_RANGE` keeps the loop's invariant, with the key drawn. -/
theorem addAlone (fill : Filled t w drawn inserted) {key : Nat} (key_lt : key < keyRange) :
    Filled t (Workload.addAlone w t key).1 (drawn ++ [key])
      (if (Workload.addAlone w t key).2 then inserted + 1 else inserted) := by
  obtain ⟨reach, pc, members, result⟩ := addAlone_spec fill.reachable fill.idle key_lt
  refine ⟨reach, by rw [pc, fill.idle], fun k => ?_, ?_⟩
  · rw [members, Function.update_apply, List.mem_append, List.mem_singleton, ← fill.occupied]
    split_ifs with same <;> simp [same]
  · rw [result, card_toFinset_append_singleton, fill.count]
    by_cases old : key ∈ drawn
    · simp [old, (fill.occupied key).mpr old]
    · simp [old, mt (fill.occupied key).mp old]

/-- The loop from a state keeping its invariant: it draws some `n` of the keys, keeps the
invariant with them drawn, never counts past `atoi(argv[2])`, and has either reached it or used up
the draws. -/
theorem prepopulate (target : Int) :
    ∀ {draws : List Nat} {w : World} {drawn : List Nat} {inserted : Nat},
      Filled t w drawn inserted → (∀ k ∈ draws, k < keyRange) →
      ∃ n ≤ draws.length,
        Filled t (Workload.prepopulate t target draws w inserted).1 (drawn ++ draws.take n)
          (Workload.prepopulate t target draws w inserted).2 ∧
        ((Workload.prepopulate t target draws w inserted).2 : Int) ≤ max target inserted ∧
        (target ≤ (Workload.prepopulate t target draws w inserted).2 ∨ n = draws.length)
  | [], _, _, _, fill, _ =>
      ⟨0, le_rfl, by rwa [List.take_zero, List.append_nil], le_max_right _ _, .inr rfl⟩
  | key :: draws, w, drawn, inserted, fill, inRange => by
      by_cases running : (inserted : Int) < target
      · rw [Workload.prepopulate, if_pos running, max_eq_left running.le]
        have counted_le :
            ((if (Workload.addAlone w t key).2 then inserted + 1 else inserted : Nat) : Int) ≤
              target := by
          split_ifs <;> omega
        obtain ⟨n, le, next, bound, stop⟩ :=
          (fill.addAlone (inRange key (List.mem_cons_self _ _))).prepopulate target
            fun k mem => inRange k (List.mem_cons_of_mem _ mem)
        rw [max_eq_left counted_le] at bound
        rw [List.append_assoc, List.singleton_append] at next
        exact ⟨n + 1, Nat.succ_le_succ le, by rwa [List.take_succ_cons], bound,
          stop.imp_right (congrArg Nat.succ)⟩
      · rw [Workload.prepopulate, if_neg running]
        exact ⟨0, Nat.zero_le _, by rwa [List.take_zero, List.append_nil], le_max_right _ _,
          .inl (not_lt.mp running)⟩

end Filled

/-- The table `main` hands to the worker threads. Whatever keys `rand() % atoi(argv[3])` draws
below `KEY_RANGE`, the loop has used some first `n` of them. The table is a state of an
interleaving of `add`, `remove_node` and `contains`, so every guarantee about reachable states holds
from the start of the benchmark; its set is exactly the keys drawn; `inserted` counts the distinct
ones, never passes `atoi(argv[2])` (or 0), and has reached `atoi(argv[2])` unless every draw was
used. -/
theorem prepopulate_table (t : Nat) (target : Int) (draws : List Nat)
    (inRange : ∀ k ∈ draws, k < keyRange) :
    ∃ n ≤ draws.length,
      Reachable (prepopulate t target draws initial 0).1 ∧
      (∀ k, (prepopulate t target draws initial 0).1.members k = true ↔ k ∈ draws.take n) ∧
      (prepopulate t target draws initial 0).2 = (draws.take n).toFinset.card ∧
      ((prepopulate t target draws initial 0).2 : Int) ≤ max target 0 ∧
      (target ≤ (prepopulate t target draws initial 0).2 ∨ n = draws.length) := by
  obtain ⟨n, le, fill, bound, stop⟩ := (Filled.initial t).prepopulate target inRange
  rw [List.nil_append] at fill
  exact ⟨n, le, fill.reachable, fill.occupied, fill.count, bound, stop⟩

theorem prepopulate_table_repeats :
    (∀ k ∈ [3, 3, 5, 8], k < keyRange) ∧
      ∃ n ≤ [3, 3, 5, 8].length,
        Reachable (prepopulate 0 2 [3, 3, 5, 8] initial 0).1 ∧
        (∀ k, (prepopulate 0 2 [3, 3, 5, 8] initial 0).1.members k = true ↔
          k ∈ [3, 3, 5, 8].take n) ∧
        (prepopulate 0 2 [3, 3, 5, 8] initial 0).2 = ([3, 3, 5, 8].take n).toFinset.card ∧
        ((prepopulate 0 2 [3, 3, 5, 8] initial 0).2 : Int) ≤ max (2 : Int) 0 ∧
        ((2 : Int) ≤ (prepopulate 0 2 [3, 3, 5, 8] initial 0).2 ∨ n = [3, 3, 5, 8].length) :=
  ⟨by decide, prepopulate_table 0 2 [3, 3, 5, 8] (by decide)⟩

/-- With `atoi(argv[2]) > |atoi(argv[3])|` the loop never exits: every value of
`rand() % atoi(argv[3])` is below `|atoi(argv[3])|`, whatever the sign of `atoi(argv[3])`, so
however many keys it draws, it has used all of them, holds each in the table, and counts at most
`|atoi(argv[3])|` of them, still below `atoi(argv[2])`; `main` never starts the worker threads.
`atoi(argv[3]) = 0` divides by zero and a key beyond `KEY_RANGE` indexes past `array`: both are
excluded. -/
theorem prepopulate_never_exits (t : Nat) (target range : Int) (rands : List Nat)
    (nonzero : range ≠ 0) (fits : range.natAbs ≤ keyRange)
    (tooMany : (range.natAbs : Int) < target) :
    (∀ k, (prepopulate t target (rands.map (drawKey range)) initial 0).1.members k = true ↔
        k ∈ rands.map (drawKey range)) ∧
      (prepopulate t target (rands.map (drawKey range)) initial 0).2 ≤ range.natAbs ∧
      ((prepopulate t target (rands.map (drawKey range)) initial 0).2 : Int) < target := by
  set draws := rands.map (drawKey range)
  have inRange : ∀ k ∈ draws, k < range.natAbs := by
    simp only [draws, List.mem_map]
    rintro _ ⟨r, -, rfl⟩
    rw [drawKey_eq]
    exact Nat.mod_lt _ (Int.natAbs_pos.mpr nonzero)
  obtain ⟨n, -, fill, -, stop⟩ :=
    (Filled.initial t).prepopulate target fun k mem => (inRange k mem).trans_le fits
  rw [List.nil_append] at fill
  have few : (draws.take n).toFinset.card ≤ range.natAbs :=
    calc (draws.take n).toFinset.card ≤ (Finset.range range.natAbs).card :=
          Finset.card_le_card fun k mem =>
            Finset.mem_range.mpr (inRange k (List.mem_of_mem_take (List.mem_toFinset.mp mem)))
      _ = range.natAbs := Finset.card_range _
  rw [← fill.count] at few
  have all : n = draws.length := stop.resolve_left (by omega)
  rw [all, List.take_length] at fill
  exact ⟨fill.occupied, few, by omega⟩

/-- `atoi(argv[3]) = -2` and `atoi(argv[2]) = 3`: only keys 0 and 1 are ever drawn. -/
theorem prepopulate_never_exits_negative :
    (-2 : Int) ≠ 0 ∧ (-2 : Int).natAbs ≤ keyRange ∧ (((-2 : Int).natAbs : Nat) : Int) < 3 ∧
      (∀ k, (prepopulate 0 3 ([5, 2, 8, 3].map (drawKey (-2))) initial 0).1.members k = true ↔
        k ∈ [5, 2, 8, 3].map (drawKey (-2))) ∧
      (prepopulate 0 3 ([5, 2, 8, 3].map (drawKey (-2))) initial 0).2 ≤ (-2 : Int).natAbs ∧
      ((prepopulate 0 3 ([5, 2, 8, 3].map (drawKey (-2))) initial 0).2 : Int) < 3 :=
  ⟨by decide, by decide, by decide,
    prepopulate_never_exits 0 3 (-2) [5, 2, 8, 3] (by decide) (by decide) (by decide)⟩

end ForkscanRegistry.Workload
