import FlushRing.Client.Regions
import FlushRing.QuikIO.Read

open Extents

namespace FlushRing

namespace QuikIO

/-- The bytes of the file a caller of `read` asks for. -/
def range (len offset : Usize) : Extent := { start := offset.toNat, len := len.toNat }

/-- The bytes of the file `read` asks the kernel for. -/
def window (len offset : Usize) : Extent :=
  { start := (aligned_offset offset).toNat, len := (aligned_len len offset).toNat }

/-- Where the range lies in the scratch block. -/
def wanted (len offset : Usize) : Extent := { start := (delta offset).toNat, len := len.toNat }

/-- `alloc_zeroed` of a block of whole pages, and the panic of a size that has no layout. -/
def alloc_zeroed (size : Usize) : Option (Block UInt8) :=
  if layout_ok size then some { mem := fun _ => 0, size := size.toNat } else none

/-- `read` with its scratch block: the kernel puts `delivered` bytes of the file at the start of it and the
completion carries `result`. There is no outcome without a layout for the block, or when the kernel or the
copy leaves it. -/
def read_block (file ptr : Nat → UInt8) (len offset : Usize) (delivered : Nat) (result : Int) :
    Option (Except IoError Unit × (Nat → UInt8)) := do
  let aligned_ptr ← alloc_zeroed (aligned_len len offset)
  let aligned_ptr ← aligned_ptr.write (fun i => file ((aligned_offset offset).toNat + i))
    { start := 0, len := delivered }
  if result < 0 then
    return (.error (.from_raw_os_error (-result)), ptr)
  let ptr ← aligned_ptr.copyTo ptr (wanted len offset)
  return (.ok (), ptr)

/-- The accesses of `read` decide only whether there is an outcome: with a completion that reports what the
kernel delivered, it is the one of `read`. -/
theorem read_of_block {file ptr : Nat → UInt8} {len offset : Usize} {result : Int}
    {outcome : Except IoError Unit × (Nat → UInt8)}
    (h : read_block file ptr len offset result.toNat result = some outcome) :
    read file ptr len offset result = some outcome := by
  simp only [read_block, Option.bind_eq_bind, Option.bind_eq_some_iff] at h
  obtain ⟨block, halloc, written, hwrite, h⟩ := h
  unfold alloc_zeroed at halloc
  split at halloc
  next hlayout =>
    obtain rfl := Option.some.inj halloc
    obtain ⟨_, rfl⟩ := Block.write_eq_some hwrite
    rw [read, if_pos hlayout, read_finish]
    split at h
    next hfailed =>
      rw [if_pos hfailed]
      exact h
    next hfailed =>
      obtain ⟨after, hcopy, h⟩ := Option.bind_eq_some_iff.mp h
      obtain ⟨_, rfl⟩ := Block.copyTo_eq_some hcopy
      rw [if_neg hfailed, ← h, fill_prefix, fill_prefix]
      rfl
  next => cases halloc

section Window
variable {len offset : Usize}

/-- Where rounding up does not wrap, the window is the pages the range reaches into. -/
theorem window_eq_pages (hfit : offset.toNat % 4096 + len.toNat + 4096 ≤ 2 ^ 64) :
    window len offset = (range len offset).pages 4096 := by
  unfold window range Extent.pages
  rw [aligned_offset_toNat, aligned_len_toNat hfit]

/-- The entry asks for the window, when its length fits in the `u32` the entry carries. -/
theorem read_region {L : Nat} (hlen : (window len offset).len < 2 ^ 32) :
    (Sqe.read len offset : Sqe L).region = window len offset := by
  rw [read_entry]
  unfold Sqe.region Sqe.len
  ext
  · rfl
  · exact (BitVec.toNat_setWidth _ _).trans (Nat.mod_eq_of_lt hlen)

/-- A window that fits in 32 bits has a layout. -/
theorem alloc_zeroed_window (hlen : (window len offset).len < 2 ^ 32) :
    alloc_zeroed (aligned_len len offset) =
      some { mem := fun _ => 0, size := (window len offset).len } := by
  have hlayout : layout_ok (aligned_len len offset) = true := by
    have hblock : FOUR_KB_BLOCK.toNat = 4096 := rfl
    rw [layout_ok, decide_eq_true_iff, hblock]
    have hsize : (aligned_len len offset).toNat < 2 ^ 32 := hlen
    omega
  rw [alloc_zeroed, if_pos hlayout]
  rfl

/-- A block the kernel has filled past the range hands the range to the caller. -/
theorem copyTo_wanted (ptr : Nat → UInt8) {block written : Block UInt8} {file : Nat → UInt8}
    {delivered : Nat} (hwrite : block.write (fun i => file ((aligned_offset offset).toNat + i))
      { start := 0, len := delivered } = some written)
    (hcovers : (wanted len offset).stop ≤ delivered) :
    written.copyTo ptr (wanted len offset) =
      some (fill ptr (fun i => file (offset.toNat + i)) { start := 0, len := len.toNat }) := by
  rw [← Extent.stop_prefix delivered] at hcovers
  rw [Block.copyTo_of_write ptr hwrite (Nat.zero_le _) hcovers]
  congr 1
  apply fill_congr
  intro i _
  have hplace : (aligned_offset offset).toNat + ((delta offset).toNat + i) = offset.toNat + i := by
    rw [aligned_offset_toNat, delta_toNat]
    omega
  exact congrArg file hplace

/-- Where rounding up does not wrap and the window fits in 32 bits, the window is the smallest one of whole
pages around the range and the entry asks for it; and when the kernel delivers as far as the range of what
the entry asks for, every access of `read` stays in its block and the caller gets that range of the file. -/
theorem read_returns_range {L : Nat} (hlen : 0 < len.toNat)
    (hfit : offset.toNat + len.toNat + 4096 < 2 ^ 64) (hwindow : (window len offset).len < 2 ^ 32) :
    IsLeast {w | w.Paged 4096 ∧ range len offset ≤ w} (window len offset) ∧
      (Sqe.read len offset : Sqe L).region = window len offset ∧
      ∀ (file ptr : Nat → UInt8) (delivered : Nat) (result : Int),
        (delta offset).toNat + len.toNat ≤ delivered → delivered ≤ (Sqe.read len offset : Sqe L).len →
          read_block file ptr len offset delivered result =
            some (read_result result,
              if result < 0 then ptr
              else fill ptr (fun i => file (offset.toNat + i)) { start := 0, len := len.toNat }) := by
  have hpages : window len offset = (range len offset).pages 4096 := window_eq_pages (by omega)
  have hregion : (Sqe.read len offset : Sqe L).region = window len offset := read_region hwindow
  refine ⟨?_, hregion, fun file ptr delivered result hcovers hasked => ?_⟩
  · rw [hpages]
    exact Extent.pages_isLeast (by decide) hlen
  · have hblock := alloc_zeroed_window hwindow
    have hasked : ({ start := 0, len := delivered } : Extent).stop ≤ (window len offset).len := by
      rw [Extent.stop_prefix, ← hregion]
      exact hasked
    obtain ⟨written, hwrite⟩ : ∃ written, ({ mem := fun _ => 0, size := (window len offset).len } :
        Block UInt8).write (fun i => file ((aligned_offset offset).toNat + i))
          { start := 0, len := delivered } = some written := ⟨_, if_pos hasked⟩
    have hcopy := copyTo_wanted ptr hwrite hcovers
    simp only [read_block, hblock, hwrite, Option.bind_eq_bind, Option.bind_some, read_result]
    by_cases hfailed : result < 0
    · simp only [if_pos hfailed, Option.pure_def]
    · simp only [if_neg hfailed, hcopy, Option.bind_some, Option.pure_def]

end Window

/-- Ten bytes from 4090 on lie in two pages; the kernel has delivered both. -/
theorem read_returns_two_pages :
    window 10 4090 = { start := 0, len := 8192 } ∧
      IsLeast {w | w.Paged 4096 ∧ range 10 4090 ≤ w} (window 10 4090) ∧
      ∀ file ptr : Nat → UInt8, read_block file ptr 10 4090 8192 8192 =
        some (.ok (), fill ptr (fun i => file (4090 + i)) { start := 0, len := 10 }) := by
  obtain ⟨hleast, _, hread⟩ := @read_returns_range 10 4090 1 (by decide) (by decide) (by decide)
  exact ⟨by decide, hleast, fun file ptr => hread file ptr 8192 8192 (by decide) (by decide)⟩

end QuikIO

end FlushRing
