import Mathlib.Data.List.Sort

/-
Module: ForkscanRegistry.Avl.MarkMap
Layer: Specification
Purpose: What the ordered registry is for, independently of any tree: a finite map from retired
  addresses to one-shot mark flags, kept as its entries in strictly increasing key order. Inserting
  a new key adds it unmarked at its sorted position, inserting a present key changes nothing,
  marking sets the flag paired with a key and no other. The tree of `Avl.Tree` is shown to refine
  this map in `Avl.Refinement`.
Trusted boundary: none
Main exports: insertEntry, markEntry, MarkMap, MarkMap.insert, MarkMap.mark, MarkMap.contains
-/

namespace ForkscanRegistry.Avl

/-- Insert `(key, unmarked)` before the first entry with a larger key, unless `key` is met
first. On a strictly sorted list this is the insertion at the sorted position. -/
def insertEntry (key : Nat) : List (Nat × Bool) → List (Nat × Bool)
  | [] => [(key, false)]
  | (k, m) :: rest =>
      if key < k then (key, false) :: (k, m) :: rest
      else if key = k then (k, m) :: rest
      else (k, m) :: insertEntry key rest

/-- Set the flag paired with `key` and leave every other entry as it is. -/
def markEntry (key : Nat) (entries : List (Nat × Bool)) : List (Nat × Bool) :=
  entries.map fun entry => if entry.1 = key then (entry.1, true) else entry

/-- Inserting in front of a larger entry does not look past it. -/
theorem insertEntry_append_of_lt {key : Nat} {entry : Nat × Bool} (below : key < entry.1) :
    ∀ (front back : List (Nat × Bool)),
      insertEntry key (front ++ entry :: back) = insertEntry key front ++ entry :: back
  | [], back => by simp [insertEntry, below]
  | (k, m) :: front, back => by
      simp only [List.cons_append, insertEntry]
      split_ifs <;> simp [insertEntry_append_of_lt below front back]

/-- Inserting behind a prefix of smaller entries and a smaller entry skips all of them. -/
theorem insertEntry_append_of_gt {key : Nat} {entry : Nat × Bool} (above : entry.1 < key) :
    ∀ (front back : List (Nat × Bool)), (∀ e ∈ front, e.1 < key) →
      insertEntry key (front ++ entry :: back) = front ++ entry :: insertEntry key back
  | [], back, _ => by
      obtain ⟨k, m⟩ := entry
      simp only at above
      simp [insertEntry, Nat.not_lt.mpr above.le, Nat.ne_of_gt above]
  | (k, m) :: front, back, smaller => by
      have kLt : k < key := smaller (k, m) (by simp)
      have rest := insertEntry_append_of_gt above front back fun e mem => smaller e (by simp [mem])
      simp [insertEntry, Nat.not_lt.mpr kLt.le, Nat.ne_of_gt kLt, rest]

theorem mem_insertEntry_keys {key x : Nat} :
    ∀ {entries : List (Nat × Bool)},
      x ∈ (insertEntry key entries).map Prod.fst ↔ x = key ∨ x ∈ entries.map Prod.fst
  | [] => by simp [insertEntry]
  | (k, m) :: rest => by
      simp only [insertEntry]
      split_ifs with lt eq
      · simp
      · subst eq; simp
      · simp only [List.map_cons, List.mem_cons, mem_insertEntry_keys]
        tauto

/-- Insertion keeps the keys strictly increasing. -/
theorem sorted_insertEntry {key : Nat} :
    ∀ {entries : List (Nat × Bool)}, (entries.map Prod.fst).Sorted (· < ·) →
      ((insertEntry key entries).map Prod.fst).Sorted (· < ·)
  | [], _ => by simp [insertEntry]
  | (k, m) :: rest, sorted => by
      rw [List.map_cons, List.sorted_cons] at sorted
      simp only [insertEntry]
      split_ifs with lt eq
      · simp only [List.map_cons, List.sorted_cons, List.mem_cons]
        exact ⟨fun b mem => mem.elim (· ▸ lt) fun mem => lt.trans (sorted.1 b mem), sorted⟩
      · simpa [List.sorted_cons] using sorted
      · simp only [List.map_cons, List.sorted_cons, mem_insertEntry_keys]
        exact ⟨fun b mem => mem.elim (fun e => e ▸ by omega) (sorted.1 b),
          sorted_insertEntry sorted.2⟩

/-- On a strictly sorted list a present key is met before any larger one. -/
theorem insertEntry_eq_self {key : Nat} :
    ∀ {entries : List (Nat × Bool)}, (entries.map Prod.fst).Sorted (· < ·) →
      key ∈ entries.map Prod.fst → insertEntry key entries = entries
  | [], _, present => by simp at present
  | (k, m) :: rest, sorted, present => by
      rw [List.map_cons, List.sorted_cons] at sorted
      simp only [List.map_cons, List.mem_cons] at present
      simp only [insertEntry]
      rcases present with rfl | present
      · simp
      · have kLt := sorted.1 key present
        simp [Nat.not_lt.mpr kLt.le, Nat.ne_of_gt kLt, insertEntry_eq_self sorted.2 present]

@[simp] theorem markEntry_keys (key : Nat) (entries : List (Nat × Bool)) :
    (markEntry key entries).map Prod.fst = entries.map Prod.fst := by
  simp only [markEntry, List.map_map]
  congr 1
  funext entry
  simp only [Function.comp]
  split_ifs <;> rfl

theorem markEntry_append (key : Nat) (front back : List (Nat × Bool)) :
    markEntry key (front ++ back) = markEntry key front ++ markEntry key back :=
  List.map_append _ _ _

@[simp] theorem markEntry_cons_self (key : Nat) (m : Bool) (rest : List (Nat × Bool)) :
    markEntry key ((key, m) :: rest) = (key, true) :: markEntry key rest := by
  simp [markEntry]

/-- Marking an absent key changes no entry. -/
theorem markEntry_of_not_mem {key : Nat} {entries : List (Nat × Bool)}
    (absent : key ∉ entries.map Prod.fst) : markEntry key entries = entries := by
  conv_rhs => rw [← List.map_id entries]
  refine List.map_congr_left fun entry mem => if_neg fun same => absent ?_
  exact same ▸ List.mem_map_of_mem _ mem

/-- An inserted entry is the new unmarked one or an old one. -/
theorem mem_insertEntry {key : Nat} {entry : Nat × Bool} :
    ∀ {entries : List (Nat × Bool)}, entry ∈ insertEntry key entries →
      entry = (key, false) ∨ entry ∈ entries
  | [], mem => by simpa [insertEntry] using mem
  | (k, m) :: rest, mem => by
      simp only [insertEntry] at mem
      split_ifs at mem
      · simpa using mem
      · exact .inr mem
      · rcases List.mem_cons.mp mem with rfl | mem
        · exact .inr (List.mem_cons_self _ _)
        · exact (mem_insertEntry mem).imp_right (List.mem_cons_of_mem _)

/-- Inserting a key the list lacks adds exactly its unmarked entry. -/
theorem mem_insertEntry_iff {key : Nat} {entry : Nat × Bool} :
    ∀ {entries : List (Nat × Bool)}, key ∉ entries.map Prod.fst →
      (entry ∈ insertEntry key entries ↔ entry = (key, false) ∨ entry ∈ entries)
  | [], _ => by simp [insertEntry]
  | (k, m) :: rest, absent => by
      simp only [List.map_cons, List.mem_cons, not_or] at absent
      simp only [insertEntry, if_neg absent.1]
      split_ifs
      · simp
      · simp only [List.mem_cons, mem_insertEntry_iff absent.2]
        tauto

/-- The entries after marking `key`: the entries of `key`, now marked, and every other entry. -/
theorem mem_markEntry {key k : Nat} {b : Bool} {entries : List (Nat × Bool)} :
    (k, b) ∈ markEntry key entries ↔
      k = key ∧ b = true ∧ (∃ b', (k, b') ∈ entries) ∨ k ≠ key ∧ (k, b) ∈ entries := by
  simp only [markEntry, List.mem_map, Prod.exists]
  constructor
  · rintro ⟨k', b', mem, image⟩
    split_ifs at image with same
    · cases image
      exact .inl ⟨same, rfl, b', mem⟩
    · cases image
      exact .inr ⟨same, mem⟩
  · rintro (⟨rfl, rfl, b', mem⟩ | ⟨other, mem⟩)
    · exact ⟨k, b', mem, by simp⟩
    · exact ⟨k, b, mem, by simp [other]⟩

/-- The abstract ordered registry: its entries with strictly increasing keys. -/
@[ext] structure MarkMap where
  entries : List (Nat × Bool)
  sorted : (entries.map Prod.fst).Sorted (· < ·)

namespace MarkMap

/-- Whether `key` has an entry. -/
def contains (s : MarkMap) (key : Nat) : Bool := decide (key ∈ s.entries.map Prod.fst)

/-- Insert `key` unmarked if it is new; report whether it was. -/
def insert (s : MarkMap) (key : Nat) : MarkMap × Bool :=
  (⟨insertEntry key s.entries, sorted_insertEntry s.sorted⟩, !s.contains key)

/-- Set the flag of `key`; report whether `key` has an entry. -/
def mark (s : MarkMap) (key : Nat) : MarkMap × Bool :=
  (⟨markEntry key s.entries, (markEntry_keys key s.entries).symm ▸ s.sorted⟩, s.contains key)

end MarkMap

end ForkscanRegistry.Avl
