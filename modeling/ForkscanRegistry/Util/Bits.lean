import Mathlib.Data.BitVec

/-
Module: ForkscanRegistry.Util.Bits
Layer: Model and proofs
Purpose: The bit macros of `util.h` on 64-bit `size_t` words. A timestamp field packs a time in
  the bits of `_TIMESTAMP_MASK` and the active flag `_TIMESTAMP_FLAG` in the top bit. The abstract
  view is `Stamp`, a time below `2 ^ 63` with a flag: reading a field through `TIMESTAMP` and
  `TIMESTAMP_IS_ACTIVE` is a bijection onto stamps, whose inverse writes the time and applies
  `TIMESTAMP_RAISE_FLAG` for an active stamp; `TIMESTAMP_SET_ACTIVE` raises the flag of the stamp
  and `TIMESTAMP` lowers it, both keeping its time. `PTR_MASK` and `PAGEALIGN` clear low bits, so
  both round down to a multiple of a power of two (`toNat_and_not_low_bits`).
Trusted boundary: `size_t` is 64 bits wide.
Main exports: timestamp, timestampRaiseFlag, timestampIsActive, timestampSetActive, Stamp,
  Stamp.read, Stamp.field, ptrMask, pageAlign, toNat_and_not_low_bits
-/

namespace ForkscanRegistry.Util

/-- `_TIMESTAMP_MASK`. -/
def timestampMask : BitVec 64 := 0x7FFFFFFFFFFFFFFF#64

/-- `_TIMESTAMP_FLAG`. -/
def timestampFlag : BitVec 64 := 0x8000000000000000#64

/-- `TIMESTAMP(field)`. -/
def timestamp (field : BitVec 64) : BitVec 64 := field &&& timestampMask

/-- `TIMESTAMP_RAISE_FLAG(field)`. -/
def timestampRaiseFlag (field : BitVec 64) : BitVec 64 := field ||| timestampFlag

/-- `TIMESTAMP_IS_ACTIVE(field)`, a truth value in C: nonzero when the flag is raised. -/
def timestampIsActive (field : BitVec 64) : BitVec 64 := field &&& timestampFlag

/-- `TIMESTAMP_SET_ACTIVE(field)`. -/
def timestampSetActive (field : BitVec 64) : BitVec 64 := timestampRaiseFlag field

/-- `PTR_MASK(v)` on a `size_t`: `~3` is the `int` -4, which converts to all ones but the two low
bits. -/
def ptrMask (v : BitVec 64) : BitVec 64 := v &&& ~~~3#64

/-- `PAGESIZE`. -/
def pageSize : BitVec 64 := 0x1000#64

/-- `PAGEALIGN(addr)`. -/
def pageAlign (addr : BitVec 64) : BitVec 64 := addr &&& ~~~(pageSize - 1)

/-! ### The bits of each macro -/

@[simp] theorem getLsbD_timestampMask (i : Nat) : timestampMask.getLsbD i = decide (i < 63) := by
  rw [timestampMask, BitVec.getLsbD_ofNat,
    show (0x7FFFFFFFFFFFFFFF : Nat) = 2 ^ 63 - 1 by decide, Nat.testBit_two_pow_sub_one]
  by_cases below : i < 63
  · simp [below, show i < 64 by omega]
  · simp [below]

@[simp] theorem getLsbD_timestampFlag (i : Nat) : timestampFlag.getLsbD i = decide (i = 63) := by
  rw [timestampFlag, BitVec.getLsbD_ofNat, show (0x8000000000000000 : Nat) = 2 ^ 63 by decide,
    Nat.testBit_two_pow]
  by_cases top : i = 63 <;> simp [top, eq_comm]

@[simp] theorem getLsbD_timestamp (field : BitVec 64) (i : Nat) :
    (timestamp field).getLsbD i = (decide (i < 63) && field.getLsbD i) := by
  rw [timestamp, BitVec.getLsbD_and, getLsbD_timestampMask, Bool.and_comm]

@[simp] theorem getLsbD_timestampRaiseFlag (field : BitVec 64) (i : Nat) :
    (timestampRaiseFlag field).getLsbD i = (decide (i = 63) || field.getLsbD i) := by
  rw [timestampRaiseFlag, BitVec.getLsbD_or, getLsbD_timestampFlag, Bool.or_comm]

@[simp] theorem getLsbD_timestampIsActive (field : BitVec 64) (i : Nat) :
    (timestampIsActive field).getLsbD i = (decide (i = 63) && field.getLsbD i) := by
  rw [timestampIsActive, BitVec.getLsbD_and, getLsbD_timestampFlag, Bool.and_comm]

/-- `TIMESTAMP_IS_ACTIVE(field)` is nonzero exactly when the top bit of `field` is set. -/
theorem timestampIsActive_ne_zero (field : BitVec 64) :
    timestampIsActive field ≠ 0 ↔ field.getLsbD 63 = true := by
  constructor
  · intro active
    by_contra lowered
    exact active (BitVec.eq_of_getLsbD_eq fun i => by
      by_cases top : (i : Nat) = 63
      · simp [top, lowered]
      · simp [top])
  · intro raised zero
    simpa [raised] using congrArg (BitVec.getLsbD · 63) zero

/-- The time a field holds is its value below `2 ^ 63`. -/
theorem toNat_timestamp (field : BitVec 64) : (timestamp field).toNat = field.toNat % 2 ^ 63 :=
  Nat.eq_of_testBit_eq fun i => by
    rw [BitVec.testBit_toNat, getLsbD_timestamp, Nat.testBit_mod_two_pow, BitVec.testBit_toNat]

/-! ### Timestamp fields as stamps -/

/-- What a timestamp field stands for: a time below `2 ^ 63` and whether the flag is raised. -/
@[ext] structure Stamp where
  time : Nat
  active : Bool
  time_lt : time < 2 ^ 63

/-- The stamp a field holds, read through `TIMESTAMP` and `TIMESTAMP_IS_ACTIVE`. -/
def Stamp.read (field : BitVec 64) : Stamp where
  time := (timestamp field).toNat
  active := timestampIsActive field != 0
  time_lt := (toNat_timestamp field).symm ▸ Nat.mod_lt _ (Nat.two_pow_pos 63)

/-- The field holding a stamp: its time, with `TIMESTAMP_RAISE_FLAG` applied when it is active. -/
def Stamp.field (s : Stamp) : BitVec 64 :=
  if s.active then timestampRaiseFlag (BitVec.ofNat 64 s.time) else BitVec.ofNat 64 s.time

theorem Stamp.read_active (field : BitVec 64) : (Stamp.read field).active = field.getLsbD 63 := by
  show (timestampIsActive field != 0) = _
  rw [Bool.eq_iff_iff, bne_iff_ne]
  exact timestampIsActive_ne_zero field

theorem Stamp.time_read (field : BitVec 64) : (Stamp.read field).time = field.toNat % 2 ^ 63 :=
  toNat_timestamp field

/-- The bits of the field holding `s`: the time below bit 63, the flag at bit 63. -/
theorem Stamp.getLsbD_field (s : Stamp) (i : Nat) :
    s.field.getLsbD i = (decide (i < 64) && (decide (i = 63) && s.active || s.time.testBit i)) := by
  have high : s.time.testBit 63 = false := Nat.testBit_lt_two_pow s.time_lt
  unfold Stamp.field
  cases s.active <;> by_cases top : i = 63 <;> simp [BitVec.getLsbD_ofNat, top, high]

theorem Stamp.read_field (s : Stamp) : Stamp.read s.field = s := by
  have high : s.time.testBit 63 = false := Nat.testBit_lt_two_pow s.time_lt
  ext
  · rw [Stamp.time_read]
    refine Nat.eq_of_testBit_eq fun i => ?_
    rw [Nat.testBit_mod_two_pow, BitVec.testBit_toNat, Stamp.getLsbD_field]
    by_cases below : i < 63
    · simp [below, show i < 64 by omega, show i ≠ 63 by omega]
    · rw [Nat.testBit_lt_two_pow (s.time_lt.trans_le (Nat.pow_le_pow_right Nat.two_pos
        (by omega)))]
      simp [below]
  · rw [Stamp.read_active, Stamp.getLsbD_field]
    simp [high]

theorem Stamp.field_read (field : BitVec 64) : (Stamp.read field).field = field := by
  refine BitVec.eq_of_getLsbD_eq fun i => ?_
  rw [Stamp.getLsbD_field, Stamp.read_active, Stamp.time_read, Nat.testBit_mod_two_pow,
    BitVec.testBit_toNat]
  by_cases top : (i : Nat) = 63
  · simp [top]
  · simp [top, i.isLt, show (i : Nat) < 63 by omega]

theorem Stamp.read_timestampSetActive (field : BitVec 64) :
    Stamp.read (timestampSetActive field) = { Stamp.read field with active := true } := by
  ext
  · rw [Stamp.time_read, Stamp.time_read, timestampSetActive, ← toNat_timestamp,
      ← toNat_timestamp]
    congr 1
    exact BitVec.eq_of_getLsbD_eq fun i => by
      by_cases top : (i : Nat) = 63 <;> simp [top]
  · simp [Stamp.read_active, timestampSetActive]

example : timestamp (timestampSetActive 5#64) = 5#64 := by decide

theorem Stamp.read_timestamp (field : BitVec 64) :
    Stamp.read (timestamp field) = { Stamp.read field with active := false } := by
  ext
  · rw [Stamp.time_read, Stamp.time_read, ← toNat_timestamp, ← toNat_timestamp]
    congr 1
    exact BitVec.eq_of_getLsbD_eq fun i => by simp
  · simp [Stamp.read_active]

/-- A timestamp field and its stamp determine each other: reading the field written for a stamp
gives the stamp back, and every 64-bit field is the one written for the stamp it holds. On stamps,
`TIMESTAMP_SET_ACTIVE` raises the flag and `TIMESTAMP` lowers it, both keeping the time. -/
theorem timestamp_fields_are_stamps :
    (∀ s : Stamp, Stamp.read s.field = s) ∧
      (∀ field : BitVec 64, (Stamp.read field).field = field) ∧
      (∀ field : BitVec 64,
        Stamp.read (timestampSetActive field) = { Stamp.read field with active := true }) ∧
      ∀ field : BitVec 64,
        Stamp.read (timestamp field) = { Stamp.read field with active := false } :=
  ⟨Stamp.read_field, Stamp.field_read, Stamp.read_timestampSetActive, Stamp.read_timestamp⟩

/-! ### Clearing low bits -/

/-- Clearing the `k` low bits of a word rounds it down to a multiple of `2 ^ k`. -/
theorem toNat_and_not_low_bits (x : BitVec 64) (k : Nat) :
    (x &&& ~~~(BitVec.ofNat 64 (2 ^ k - 1))).toNat = x.toNat / 2 ^ k * 2 ^ k :=
  Nat.eq_of_testBit_eq fun i => by
    rw [BitVec.testBit_toNat, BitVec.getLsbD_and, BitVec.getLsbD_not, BitVec.getLsbD_ofNat,
      Nat.testBit_two_pow_sub_one, Nat.mul_comm, Nat.testBit_mul_pow_two,
      ← Nat.shiftRight_eq_div_pow, Nat.testBit_shiftRight, BitVec.testBit_toNat]
    by_cases low : i < k
    · simp [low]
    · have high : k + (i - k) = i := by omega
      by_cases inWord : i < 64
      · simp [low, inWord, high, Nat.le_of_not_lt low]
      · simp [low, inWord, high, BitVec.getLsbD_ge x i (by omega)]

theorem toNat_ptrMask (v : BitVec 64) : (ptrMask v).toNat = v.toNat / 4 * 4 :=
  toNat_and_not_low_bits v 2

theorem toNat_pageAlign (addr : BitVec 64) :
    (pageAlign addr).toNat = addr.toNat / pageSize.toNat * pageSize.toNat :=
  toNat_and_not_low_bits addr 12

/-- A pointer aligned to 4 with a two-bit tag or-ed into its low bits comes back under
`PTR_MASK`. -/
theorem ptrMask_or_tag (p : BitVec 64) (tag : Nat) (aligned : p.toNat % 4 = 0) (small : tag < 4) :
    ptrMask (p ||| BitVec.ofNat 64 tag) = p :=
  BitVec.eq_of_getLsbD_eq fun i => by
    rw [ptrMask, BitVec.getLsbD_and, BitVec.getLsbD_not, BitVec.getLsbD_or,
      BitVec.getLsbD_ofNat, BitVec.getLsbD_ofNat, show (3 : Nat) = 2 ^ 2 - 1 from rfl,
      Nat.testBit_two_pow_sub_one]
    by_cases low : (i : Nat) < 2
    · have clear : p.getLsbD i = false := by
        have low_bits := Nat.testBit_mod_two_pow p.toNat 2 i
        rw [show 2 ^ 2 = 4 from rfl, aligned, Nat.zero_testBit] at low_bits
        simpa [low] using low_bits.symm
      simp [low, clear]
    · have wide : 2 ^ 2 ≤ 2 ^ (i : Nat) := Nat.pow_le_pow_right Nat.two_pos (by omega)
      have untagged : tag.testBit i = false := Nat.testBit_lt_two_pow (small.trans_le wide)
      simp [low, untagged, i.isLt]

/-- `PTR_MASK(v)` is the largest multiple of 4 not above `v`, and a pointer aligned to 4 with a
two-bit tag or-ed into its low bits comes back under it. `PAGEALIGN(addr)` is the largest multiple
of `PAGESIZE` not above `addr`, the start of its page, and two addresses align to the same word
exactly when they lie in the same page. -/
theorem ptrMask_pageAlign_round_down :
    (∀ v : BitVec 64, (ptrMask v).toNat = v.toNat / 4 * 4) ∧
      (∀ (p : BitVec 64) (tag : Nat), p.toNat % 4 = 0 → tag < 4 →
        ptrMask (p ||| BitVec.ofNat 64 tag) = p) ∧
      (∀ addr : BitVec 64,
        (pageAlign addr).toNat = addr.toNat / pageSize.toNat * pageSize.toNat) ∧
      ∀ a b : BitVec 64,
        pageAlign a = pageAlign b ↔ a.toNat / pageSize.toNat = b.toNat / pageSize.toNat := by
  refine ⟨toNat_ptrMask, ptrMask_or_tag, toNat_pageAlign, fun a b => ?_⟩
  rw [BitVec.toNat_eq, toNat_pageAlign, toNat_pageAlign]
  exact Nat.mul_left_inj (by decide)

end ForkscanRegistry.Util
