import Mathlib

namespace FlushRing

/-- `usize` of a 64-bit target; arithmetic wraps as in a release build. -/
abbrev Usize := BitVec 64

/-- Set when the buffer is closed to new writers. -/
def SEALED_BIT : Usize := 1#64 <<< 0

/-- Set while a flush is in progress. -/
def FLUSH_IN_PROGRESS_BIT : Usize := 1#64 <<< 1

def WRITER_SHIFT : Nat := 8

/-- One additional active writer. -/
def WRITER_ONE : Usize := 1#64 <<< WRITER_SHIFT

/-- The writer-count field, bits 8..32. -/
def WRITER_MASK : Usize := 0x00FFFFFF00#64

def OFFSET_SHIFT : Nat := 32

/-- One byte of write offset. -/
def OFFSET_ONE : Usize := 1#64 <<< OFFSET_SHIFT

def ONE_MEGABYTE_BLOCK : Usize := 1024 * 1024

def FOUR_KB_BLOCK : Usize := 4096

def state_offset (state : Usize) : Usize := state >>> OFFSET_SHIFT

def state_writers (state : Usize) : Usize := (state &&& WRITER_MASK) >>> WRITER_SHIFT

def state_sealed (state : Usize) : Bool := state &&& SEALED_BIT != 0

def state_flush_in_progress (state : Usize) : Bool := state &&& FLUSH_IN_PROGRESS_BIT != 0

/-- `usize::next_multiple_of`. -/
def next_multiple_of (x m : Usize) : Usize :=
  if x % m = 0 then x else x + (m - x % m)

/-- Rounding up to whole blocks, where that does not wrap. -/
theorem next_multiple_of_block (x : Usize) (hx : x.toNat + 4096 ≤ 2 ^ 64) :
    (next_multiple_of x FOUR_KB_BLOCK).toNat = (x.toNat + 4095) / 4096 * 4096 := by
  have hblock : FOUR_KB_BLOCK.toNat = 4096 := rfl
  have hmod : (x % FOUR_KB_BLOCK).toNat = x.toNat % 4096 := by
    rw [BitVec.toNat_umod, hblock]
  unfold next_multiple_of
  split
  next hzero =>
    have hzero : x.toNat % 4096 = 0 := by
      rw [← hmod, hzero]
      rfl
    omega
  next hzero =>
    have hpos : x.toNat % 4096 ≠ 0 := by
      intro h
      apply hzero
      apply BitVec.eq_of_toNat_eq
      rw [hmod, h]
      rfl
    rw [BitVec.toNat_add, BitVec.toNat_sub, hblock, hmod]
    omega

/-- A counter that has not gone down has not wrapped. -/
theorem add_toNat_of_le {n c : Usize} (h : n.toNat ≤ (n + c).toNat) :
    (n + c).toNat = n.toNat + c.toNat := by
  rw [BitVec.toNat_add] at h ⊢
  omega

/-- Below a limit that the first summand keeps, a sum is accepted when it does not pass the limit, and also
whenever it wraps. -/
theorem add_le_iff {k : Nat} {a m : BitVec k} (n : BitVec k) (ha : a ≤ m) :
    a + n ≤ m ↔ a.toNat + n.toNat ≤ m.toNat ∨ 2 ^ k ≤ a.toNat + n.toNat := by
  have hm := m.isLt
  have hn := n.isLt
  rw [BitVec.le_def] at ha ⊢
  rw [BitVec.toNat_add]
  by_cases hwrap : a.toNat + n.toNat < 2 ^ k
  · rw [Nat.mod_eq_of_lt hwrap]
    omega
  · rw [Nat.mod_eq_sub_mod (by omega), Nat.mod_eq_of_lt (by omega)]
    omega

/-- The offset is the upper half of the word. -/
theorem state_offset_toNat (w : Usize) : (state_offset w).toNat = w.toNat / 2 ^ 32 := by
  rw [state_offset, OFFSET_SHIFT, BitVec.toNat_ushiftRight, Nat.shiftRight_eq_div_pow]

/-- The writers are the 24 bits below it. -/
theorem state_writers_toNat (w : Usize) : (state_writers w).toNat = w.toNat / 2 ^ 8 % 2 ^ 24 := by
  have hmask : state_writers w = (w >>> 8) &&& 0xFFFFFF#64 := by
    rw [state_writers, BitVec.ushiftRight_and_distrib]
    rfl
  rw [hmask, BitVec.toNat_and, BitVec.toNat_ushiftRight, Nat.shiftRight_eq_div_pow]
  exact Nat.and_two_pow_sub_one_eq_mod _ 24

theorem state_sealed_eq (w : Usize) : state_sealed w = w.getLsbD 0 := by
  have hbit : SEALED_BIT = BitVec.twoPow 64 0 := rfl
  rw [state_sealed, hbit, BitVec.and_twoPow]
  cases w.getLsbD 0 <;> rfl

theorem state_flush_in_progress_eq (w : Usize) : state_flush_in_progress w = w.getLsbD 1 := by
  have hbit : FLUSH_IN_PROGRESS_BIT = BitVec.twoPow 64 1 := rfl
  rw [state_flush_in_progress, hbit, BitVec.and_twoPow]
  cases w.getLsbD 1 <;> rfl

theorem state_sealed_iff (w : Usize) : state_sealed w = true ↔ w.toNat % 2 = 1 := by
  rw [state_sealed_eq, BitVec.getLsbD, Nat.testBit_zero]
  simp

theorem state_flush_in_progress_iff (w : Usize) :
    state_flush_in_progress w = true ↔ w.toNat / 2 % 2 = 1 := by
  rw [state_flush_in_progress_eq, BitVec.getLsbD, Nat.testBit_succ, Nat.testBit_zero]
  simp

/-- The guard of `is_available` and `reserve_space` tests both flag bits at once. -/
theorem flags_clear_iff (w : Usize) :
    w &&& (SEALED_BIT ||| FLUSH_IN_PROGRESS_BIT) = 0 ↔
      state_sealed w = false ∧ state_flush_in_progress w = false := by
  rw [BitVec.and_or_distrib_left]
  exact (BitVec.or_eq_zero_iff (w := 64)).trans (by simp [state_sealed, state_flush_in_progress])

section Zero

@[simp] theorem state_offset_zero : state_offset 0#64 = 0#64 := rfl
@[simp] theorem state_writers_zero : state_writers 0#64 = 0#64 := rfl
@[simp] theorem state_sealed_zero : state_sealed 0#64 = false := rfl
@[simp] theorem state_flush_in_progress_zero : state_flush_in_progress 0#64 = false := rfl

end Zero

/-! `fetch_or` of a flag bit changes that flag only. -/

section FetchOr
variable (w : Usize)

/-- Setting a bit sets that bit and leaves the other fields alone. -/
@[simp] theorem state_sealed_or_sealed : state_sealed (w ||| SEALED_BIT) = true := by
  simp [state_sealed_eq, SEALED_BIT]

@[simp] theorem state_flush_in_progress_or_sealed :
    state_flush_in_progress (w ||| SEALED_BIT) = state_flush_in_progress w := by
  simp [state_flush_in_progress_eq, SEALED_BIT]

@[simp] theorem state_offset_or_sealed : state_offset (w ||| SEALED_BIT) = state_offset w := by
  rw [state_offset, BitVec.ushiftRight_or_distrib]
  exact BitVec.or_zero

@[simp] theorem state_writers_or_sealed : state_writers (w ||| SEALED_BIT) = state_writers w := by
  have hmask : SEALED_BIT &&& WRITER_MASK = 0#64 := rfl
  rw [state_writers, BitVec.and_or_distrib_right, hmask, BitVec.or_zero, ← state_writers]

@[simp] theorem state_sealed_or_flush :
    state_sealed (w ||| FLUSH_IN_PROGRESS_BIT) = state_sealed w := by
  simp [state_sealed_eq, FLUSH_IN_PROGRESS_BIT]

@[simp] theorem state_flush_in_progress_or_flush :
    state_flush_in_progress (w ||| FLUSH_IN_PROGRESS_BIT) = true := by
  simp [state_flush_in_progress_eq, FLUSH_IN_PROGRESS_BIT]

@[simp] theorem state_offset_or_flush :
    state_offset (w ||| FLUSH_IN_PROGRESS_BIT) = state_offset w := by
  rw [state_offset, BitVec.ushiftRight_or_distrib]
  exact BitVec.or_zero

@[simp] theorem state_writers_or_flush :
    state_writers (w ||| FLUSH_IN_PROGRESS_BIT) = state_writers w := by
  have hmask : FLUSH_IN_PROGRESS_BIT &&& WRITER_MASK = 0#64 := rfl
  rw [state_writers, BitVec.and_or_distrib_right, hmask, BitVec.or_zero, ← state_writers]

/-- The word as a number, with the sealed bit set. -/
theorem or_sealed_toNat : (w ||| SEALED_BIT).toNat = w.toNat / 2 * 2 + 1 := by
  have hone : SEALED_BIT.toNat = 1 := rfl
  apply Nat.eq_of_testBit_eq
  intro i
  rw [BitVec.toNat_or, hone, Nat.testBit_or]
  cases i with
  | zero => simp
  | succ i =>
    have hhalf : (w.toNat / 2 * 2 + 1) / 2 = w.toNat / 2 := by omega
    simp [Nat.testBit_succ, hhalf]

theorem or_flush_toNat :
    (w ||| FLUSH_IN_PROGRESS_BIT).toNat = w.toNat / 4 * 4 + 2 + w.toNat % 2 := by
  have htwo : FLUSH_IN_PROGRESS_BIT.toNat = 2 := rfl
  apply Nat.eq_of_testBit_eq
  intro i
  rw [BitVec.toNat_or, htwo, Nat.testBit_or]
  match i with
  | 0 =>
    simp
    omega
  | 1 =>
    have hhalf : (w.toNat / 4 * 4 + 2 + w.toNat % 2) / 2 = w.toNat / 4 * 2 + 1 := by omega
    simp [Nat.testBit_succ, hhalf]
  | i + 2 =>
    have hquarter : (w.toNat / 4 * 4 + 2 + w.toNat % 2) / 2 / 2 = w.toNat / 2 / 2 := by omega
    simp [Nat.testBit_succ, hquarter]

/-- `fetch_or` of a flag that is set already changes nothing. -/
theorem or_sealed_of_sealed {w : Usize} (h : state_sealed w = true) : w ||| SEALED_BIT = w := by
  have hbit : SEALED_BIT = BitVec.twoPow 64 0 := rfl
  rw [state_sealed_eq] at h
  apply BitVec.eq_of_getLsbD_eq
  intro i _
  rw [hbit, BitVec.getLsbD_or, BitVec.getLsbD_twoPow]
  by_cases hi : 0 = i
  · subst i
    simp [h]
  · simp [hi]

/-- Setting the flush bit twice is setting it once. -/
theorem or_flush_of_flushing {w : Usize} (h : state_flush_in_progress w = true) :
    w ||| FLUSH_IN_PROGRESS_BIT = w := by
  have hbit : FLUSH_IN_PROGRESS_BIT = BitVec.twoPow 64 1 := rfl
  rw [state_flush_in_progress_eq] at h
  apply BitVec.eq_of_getLsbD_eq
  intro i _
  rw [hbit, BitVec.getLsbD_or, BitVec.getLsbD_twoPow]
  by_cases hi : 1 = i
  · subst i
    simp [h]
  · simp [hi]

end FetchOr

/-! `fetch_and` with the complement of a flag bit clears that flag only, and a mask of the lower half
clears the offset only. -/

section FetchAnd
variable (w : Usize)

theorem and_not_sealed_toNat : (w &&& ~~~SEALED_BIT).toNat = w.toNat / 2 * 2 := by
  have hbit : SEALED_BIT = BitVec.twoPow 64 0 := rfl
  apply Nat.eq_of_testBit_eq
  intro i
  have hi : (w &&& ~~~SEALED_BIT).getLsbD i = (w.getLsbD i && !decide (i = 0)) := by
    rw [hbit, BitVec.getLsbD_and, BitVec.getLsbD_not, BitVec.getLsbD_twoPow]
    by_cases hlt : i < 64
    · cases i <;> simp [hlt]
    · simp [BitVec.getLsbD_of_ge w i (by omega)]
  rw [BitVec.getLsbD, BitVec.getLsbD] at hi
  rw [hi]
  cases i with
  | zero => simp
  | succ i => simp [Nat.testBit_succ]

theorem and_not_flush_toNat :
    (w &&& ~~~FLUSH_IN_PROGRESS_BIT).toNat = w.toNat / 4 * 4 + w.toNat % 2 := by
  have hbit : FLUSH_IN_PROGRESS_BIT = BitVec.twoPow 64 1 := rfl
  have hsplit : w.toNat / 4 * 4 + w.toNat % 2 = 2 ^ 1 * (w.toNat / 4 * 2) + w.toNat % 2 := by omega
  apply Nat.eq_of_testBit_eq
  intro i
  have hi : (w &&& ~~~FLUSH_IN_PROGRESS_BIT).getLsbD i = (w.getLsbD i && !decide (i = 1)) := by
    rw [hbit, BitVec.getLsbD_and, BitVec.getLsbD_not, BitVec.getLsbD_twoPow]
    by_cases hlt : i < 64
    · by_cases hone : 1 = i
      · simp [← hone]
      · simp [hlt, hone, Ne.symm hone]
    · simp [BitVec.getLsbD_of_ge w i (by omega)]
  rw [BitVec.getLsbD, BitVec.getLsbD] at hi
  rw [hi, hsplit, Nat.testBit_two_pow_mul_add _ (by omega)]
  match i with
  | 0 => simp
  | 1 => simp
  | i + 2 =>
    have hquarter : w.toNat / 4 = w.toNat / 2 / 2 := by omega
    simp [Nat.testBit_succ, hquarter]

theorem and_low_toNat : (w &&& 0x00000000FFFFFFFF#64).toNat = w.toNat % 2 ^ 32 := by
  rw [BitVec.toNat_and]
  exact Nat.and_two_pow_sub_one_eq_mod _ 32

@[simp] theorem state_offset_and_not_sealed :
    state_offset (w &&& ~~~SEALED_BIT) = state_offset w := by
  apply BitVec.eq_of_toNat_eq
  rw [state_offset_toNat, state_offset_toNat, and_not_sealed_toNat]
  omega

@[simp] theorem state_writers_and_not_sealed :
    state_writers (w &&& ~~~SEALED_BIT) = state_writers w := by
  apply BitVec.eq_of_toNat_eq
  rw [state_writers_toNat, state_writers_toNat, and_not_sealed_toNat]
  omega

@[simp] theorem state_offset_and_not_flush :
    state_offset (w &&& ~~~FLUSH_IN_PROGRESS_BIT) = state_offset w := by
  apply BitVec.eq_of_toNat_eq
  rw [state_offset_toNat, state_offset_toNat, and_not_flush_toNat]
  omega

@[simp] theorem state_writers_and_not_flush :
    state_writers (w &&& ~~~FLUSH_IN_PROGRESS_BIT) = state_writers w := by
  apply BitVec.eq_of_toNat_eq
  rw [state_writers_toNat, state_writers_toNat, and_not_flush_toNat]
  omega

end FetchAnd

/-! A granted reservation adds its size to the offset and one to the writer count; a finished one
takes one writer off. Neither touches the flags, whatever the counts are. -/

/-- The word `reserve_space` installs. -/
def reserved_word (state payload_size : Usize) : Usize :=
  state + payload_size * OFFSET_ONE + WRITER_ONE

section Reserve
variable (w n : Usize)

/-- The word a reservation stores, as a number. -/
theorem reserved_word_toNat :
    (reserved_word w n).toNat = (w.toNat + n.toNat * 2 ^ 32 + 2 ^ 8) % 2 ^ 64 := by
  have hoffset : OFFSET_ONE.toNat = 2 ^ 32 := rfl
  have hwriter : WRITER_ONE.toNat = 2 ^ 8 := rfl
  rw [reserved_word, BitVec.toNat_add, BitVec.toNat_add, BitVec.toNat_mul, hoffset, hwriter]
  omega

/-- A reservation leaves the bits alone, even when a field overflows. -/
@[simp] theorem state_sealed_reserved : state_sealed (reserved_word w n) = state_sealed w := by
  rw [Bool.eq_iff_iff, state_sealed_iff, state_sealed_iff, reserved_word_toNat]
  omega

@[simp] theorem state_flush_in_progress_reserved :
    state_flush_in_progress (reserved_word w n) = state_flush_in_progress w := by
  rw [Bool.eq_iff_iff, state_flush_in_progress_iff, state_flush_in_progress_iff,
    reserved_word_toNat]
  omega

/-- While the writer count has room the reservation moves the offset by exactly its size. -/
theorem state_offset_reserved (hoffset : (state_offset w).toNat + n.toNat < 2 ^ 32)
    (hwriters : (state_writers w).toNat + 1 < 2 ^ 24) :
    (state_offset (reserved_word w n)).toNat = (state_offset w).toNat + n.toNat := by
  rw [state_offset_toNat] at hoffset ⊢
  rw [state_writers_toNat] at hwriters
  rw [state_offset_toNat, reserved_word_toNat]
  omega

/-- A reservation adds one writer. -/
theorem state_writers_reserved (hwriters : (state_writers w).toNat + 1 < 2 ^ 24) :
    (state_writers (reserved_word w n)).toNat = (state_writers w).toNat + 1 := by
  rw [state_writers_toNat] at hwriters ⊢
  rw [state_writers_toNat, reserved_word_toNat]
  omega

/-- The word as a number, after a writer has left. -/
theorem sub_writer_toNat :
    (w - WRITER_ONE).toNat = (w.toNat + (2 ^ 64 - 2 ^ 8)) % 2 ^ 64 := by
  have hwriter : WRITER_ONE.toNat = 2 ^ 8 := rfl
  rw [BitVec.toNat_sub, hwriter]
  omega

@[simp] theorem state_sealed_sub_writer : state_sealed (w - WRITER_ONE) = state_sealed w := by
  rw [Bool.eq_iff_iff, state_sealed_iff, state_sealed_iff, sub_writer_toNat]
  omega

@[simp] theorem state_flush_in_progress_sub_writer :
    state_flush_in_progress (w - WRITER_ONE) = state_flush_in_progress w := by
  rw [Bool.eq_iff_iff, state_flush_in_progress_iff, state_flush_in_progress_iff, sub_writer_toNat]
  omega

/-- With a writer to take off, `fetch_sub` does not borrow into the offset field. -/
theorem state_offset_sub_writer (hwriters : 0 < (state_writers w).toNat) :
    state_offset (w - WRITER_ONE) = state_offset w := by
  apply BitVec.eq_of_toNat_eq
  rw [state_writers_toNat] at hwriters
  rw [state_offset_toNat, state_offset_toNat, sub_writer_toNat]
  omega

/-- A writer that leaves is counted off. -/
theorem state_writers_sub_writer (hwriters : 0 < (state_writers w).toNat) :
    (state_writers (w - WRITER_ONE)).toNat + 1 = (state_writers w).toNat := by
  rw [state_writers_toNat] at hwriters ⊢
  rw [state_writers_toNat, sub_writer_toNat]
  omega

/-- `increment_offset` adds to the offset alone. -/
theorem add_offset_toNat :
    (w + n * OFFSET_ONE).toNat = (w.toNat + n.toNat * 2 ^ 32) % 2 ^ 64 := by
  have hoffset : OFFSET_ONE.toNat = 2 ^ 32 := rfl
  rw [BitVec.toNat_add, BitVec.toNat_mul, hoffset]
  omega

/-- Taking the writer of a reservation off again leaves what `increment_offset` stores. -/
theorem reserved_word_sub_writer : reserved_word w n - WRITER_ONE = w + n * OFFSET_ONE :=
  BitVec.add_sub_cancel _ _

/-- Taking space without a writer leaves the writers alone. -/
theorem state_writers_add_offset : state_writers (w + n * OFFSET_ONE) = state_writers w := by
  apply BitVec.eq_of_toNat_eq
  rw [state_writers_toNat, state_writers_toNat, add_offset_toNat]
  omega

/-- It moves the offset, as far as that has room. -/
theorem state_offset_add_offset (hoffset : (state_offset w).toNat + n.toNat < 2 ^ 32) :
    (state_offset (w + n * OFFSET_ONE)).toNat = (state_offset w).toNat + n.toNat := by
  rw [state_offset_toNat] at hoffset ⊢
  rw [state_offset_toNat, add_offset_toNat]
  omega

end Reserve

end FlushRing
