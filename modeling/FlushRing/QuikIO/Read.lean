import FlushRing.Client.Machine

namespace FlushRing

inductive IoError where
  -- io::Error::other
  | other (message : String)
  -- io::Error::from_raw_os_error
  | from_raw_os_error (code : Int)
  -- the error of a failed submit
  | submit
  deriving DecidableEq

/-- `Layout::from_size_align(size, FOUR_KB_PAGE)` is `Ok`: rounded up to the alignment, the size does not
pass `isize::MAX`. -/
def layout_ok (size : Usize) : Bool := size.toNat ≤ 2 ^ 63 - FOUR_KB_BLOCK.toNat

namespace QuikIO

def aligned_offset (offset : Usize) : Usize := offset &&& ~~~(FOUR_KB_BLOCK - 1)

def delta (offset : Usize) : Usize := offset - aligned_offset offset

def aligned_len (len offset : Usize) : Usize := next_multiple_of (len + delta offset) FOUR_KB_BLOCK

/-- The entry of `read` asks for the window; its length is cut to the `u32` the entry carries. -/
theorem read_entry {L : Nat} (len offset : Usize) : (Sqe.read len offset : Sqe L) =
    { opcode := .Read ((aligned_len len offset).setWidth 32), offset := aligned_offset offset,
      flags := .empty, user_data := none, filling := 0 } := rfl

/-- The zeroed scratch block once the kernel has put `result` bytes of the file in it. -/
def scratch (file : Nat → UInt8) (offset : Usize) (result : Int) : Nat → UInt8 := fun i =>
  if i < result.toNat then file ((aligned_offset offset).toNat + i) else 0

/-- The result of `read` once it has taken a completion. -/
def read_result (result : Int) : Except IoError Unit :=
  if result < 0 then .error (.from_raw_os_error (-result)) else .ok ()

/-- The rest of `read`, from the completion it has taken: its result decides, and the caller's memory gets
`len` bytes of the scratch block from `delta` on. -/
def read_finish (file ptr : Nat → UInt8) (len offset : Usize) (result : Int) :
    Except IoError Unit × (Nat → UInt8) :=
  if result < 0 then (.error (.from_raw_os_error (-result)), ptr)
  else
    (.ok (), fun i =>
      if i < len.toNat then scratch file offset result ((delta offset).toNat + i) else ptr i)

theorem read_finish_result (file ptr : Nat → UInt8) (len offset : Usize) (result : Int) :
    (read_finish file ptr len offset result).1 = read_result result := by
  unfold read_finish read_result
  split <;> rfl

/-- `read` when its own completion carries `result`; without a layout for the block it panics. -/
def read (file ptr : Nat → UInt8) (len offset : Usize) (result : Int) :
    Option (Except IoError Unit × (Nat → UInt8)) :=
  if layout_ok (aligned_len len offset) then some (read_finish file ptr len offset result) else none

theorem block_mask_bit (i : Nat) : (FOUR_KB_BLOCK - 1).getLsbD i = decide (i < 12) := by
  have hones : FOUR_KB_BLOCK - 1 = BitVec.ofNat 64 (2 ^ 12 - 1) := rfl
  rw [hones, BitVec.getLsbD_ofNat, Nat.testBit_two_pow_sub_one]
  by_cases hlow : i < 12
  · have hlt : i < 64 := by omega
    simp [hlow, hlt]
  · simp [hlow]

/-- The offset is rounded down to a block. -/
theorem aligned_offset_toNat (offset : Usize) :
    (aligned_offset offset).toNat = offset.toNat / 4096 * 4096 := by
  have hshift : aligned_offset offset = (offset >>> 12) <<< 12 := by
    apply BitVec.eq_of_getLsbD_eq
    intro i hi
    rw [aligned_offset, BitVec.getLsbD_and, BitVec.getLsbD_not, block_mask_bit, BitVec.getLsbD_shiftLeft,
      BitVec.getLsbD_ushiftRight]
    by_cases hlow : i < 12
    · simp [hlow]
    · have hback : 12 + (i - 12) = i := by omega
      simp [hlow, hi, hback]
  rw [hshift, BitVec.toNat_shiftLeft, BitVec.toNat_ushiftRight, Nat.shiftRight_eq_div_pow, Nat.shiftLeft_eq]
  have hoffset := offset.isLt
  omega

/-- What was rounded off. -/
theorem delta_toNat (offset : Usize) : (delta offset).toNat = offset.toNat % 4096 := by
  have haligned := aligned_offset_toNat offset
  have hle : aligned_offset offset ≤ offset := by
    rw [BitVec.le_def, haligned]
    omega
  rw [delta, BitVec.toNat_sub_of_le hle, haligned]
  omega

/-- Where rounding up does not wrap, the window is as long as the whole pages the range reaches into. -/
theorem aligned_len_toNat {len offset : Usize}
    (hfit : offset.toNat % 4096 + len.toNat + 4096 ≤ 2 ^ 64) :
    (aligned_len len offset).toNat = (offset.toNat % 4096 + len.toNat + 4095) / 4096 * 4096 := by
  have hsum : (len + delta offset).toNat = offset.toNat % 4096 + len.toNat := by
    rw [BitVec.toNat_add, delta_toNat]
    omega
  rw [aligned_len, next_multiple_of_block _ (by omega), hsum]

/-- For every file and every buffer, `read` either reports an error and leaves the buffer as it was, or the
kernel has delivered the whole range and the buffer holds it. -/
def ReportsRead (len offset : Usize) (result : Int) : Prop :=
  ∀ file ptr outcome, read file ptr len offset result = some outcome →
    match outcome with
    | (.error _, after) => after = ptr
    | (.ok _, after) =>
      ((delta offset).toNat + len.toNat : Nat) ≤ result ∧
        ∀ i < len.toNat, after i = file (offset.toNat + i)

/-- The bytes of the file a read of the window gets when nothing but the file's end and the entry's 32-bit
length limits it. -/
def delivered (file_len : Nat) (len offset : Usize) : Int :=
  (min ((aligned_len len offset).toNat % 2 ^ 32) (file_len - (aligned_offset offset).toNat) : Nat)

/-- When `read` tells the truth about what it read. -/
theorem reportsRead_iff (len offset : Usize) (result : Int) :
    ReportsRead len offset result ↔
      layout_ok (aligned_len len offset) = false ∨ result < 0 ∨
        (offset.toNat % 4096 + len.toNat : Nat) ≤ result := by
  constructor
  · intro h
    cases hlayout : layout_ok (aligned_len len offset) with
    | false => exact .inl rfl
    | true =>
      by_cases hfailed : result < 0
      · exact .inr (.inl hfailed)
      · have hread := h (fun _ => 0) (fun _ => 0) (read_finish (fun _ => 0) (fun _ => 0) len offset result) (by
          rw [read, if_pos hlayout])
        rw [read_finish, if_neg hfailed] at hread
        rw [← delta_toNat]
        exact .inr (.inr hread.1)
  · intro h file ptr outcome houtcome
    unfold read at houtcome
    split at houtcome
    next hlayout =>
      obtain rfl := Option.some.inj houtcome
      rw [hlayout] at h
      by_cases hfailed : result < 0
      · rw [read_finish, if_pos hfailed]
      · have hcovers : (offset.toNat % 4096 + len.toNat : Nat) ≤ result := by
          rcases h with h | h | h
          · cases h
          · exact absurd h hfailed
          · exact h
        rw [read_finish, if_neg hfailed]
        have hdelta := delta_toNat offset
        have haligned := aligned_offset_toNat offset
        refine ⟨by rwa [hdelta], fun i hi => ?_⟩
        have hin : (delta offset).toNat + i < result.toNat := by omega
        have hplace : (aligned_offset offset).toNat + ((delta offset).toNat + i) = offset.toNat + i := by omega
        simp only [if_pos hi, scratch, if_pos hin, hplace]
    next => cases houtcome

/-- What the window can deliver covers the range exactly when the range ends inside the file and the
rounded window fits in 32 bits. -/
theorem delivered_covers_iff {len : Usize} (hlen : 0 < len.toNat) (offset : Usize) (file_len : Nat) :
    (offset.toNat % 4096 + len.toNat : Nat) ≤ delivered file_len len offset ↔
      offset.toNat + len.toNat ≤ file_len ∧
        (offset.toNat % 4096 + len.toNat + 4095) / 4096 * 4096 < 2 ^ 32 := by
  rw [delivered, Int.ofNat_le, Nat.le_min, aligned_offset_toNat, and_comm]
  refine and_congr (by omega) ?_
  by_cases hfit : offset.toNat % 4096 + len.toNat + 4096 ≤ 2 ^ 64
  · rw [aligned_len_toNat hfit]
    omega
  · omega

/-- `read` reports nothing it has not read exactly when the completion is an error or covers the range; and
a delivery that only the file's end and the entry's length limit covers it exactly when the range ends
inside the file and the rounded window fits in 32 bits. -/
theorem read_reports_iff {len : Usize} (hlen : 0 < len.toNat) (offset : Usize) (file_len : Nat) :
    (∀ result, ReportsRead len offset result ↔
      layout_ok (aligned_len len offset) = false ∨ result < 0 ∨
        (offset.toNat % 4096 + len.toNat : Nat) ≤ result) ∧
    (ReportsRead len offset (delivered file_len len offset) ↔
      layout_ok (aligned_len len offset) = false ∨
        (offset.toNat + len.toNat ≤ file_len ∧
          (offset.toNat % 4096 + len.toNat + 4095) / 4096 * 4096 < 2 ^ 32)) := by
  refine ⟨reportsRead_iff len offset, ?_⟩
  have hsucceeds : ¬ delivered file_len len offset < 0 := Int.not_lt.mpr (Int.natCast_nonneg _)
  rw [reportsRead_iff, delivered_covers_iff hlen]
  simp only [hsucceeds, false_or]

theorem read_reports_five :
    0 < (5 : Usize).toNat ∧
      (ReportsRead 5 7 (delivered 36 5 7) ↔
        layout_ok (aligned_len 5 7) = false ∨ (12 ≤ 36 ∧ (7 % 4096 + 5 + 4095) / 4096 * 4096 < 2 ^ 32)) :=
  ⟨by decide, (read_reports_iff (by decide) 7 36).2⟩

/-- A file of ten bytes is read for ten bytes from its sixth on: the kernel delivers what there is, and
`read` returns `Ok` with a zero behind the end of the file. -/
theorem read_past_end :
    delivered 10 10 5 = 10 ∧
      (∃ after, read (fun _ => 7) (fun _ => 9) 10 5 10 = some (.ok (), after) ∧ after 5 = 0) ∧
      ¬ ReportsRead 10 5 10 := by
  refine ⟨by decide, ⟨_, rfl, by decide⟩, ?_⟩
  rw [reportsRead_iff]
  decide

end QuikIO

end FlushRing
