import FlushRing.Buffer
import FlushRing.Extents

open Extents

namespace FlushRing

variable {L : Nat}

/-- The bytes of a range a reservation was granted. -/
def extent (range : Usize × Usize) : Extent := { start := range.1.toNat, len := range.2.toNat }

/-- The range a payload was copied to. -/
def range (copy : Usize × Slice) : Usize × Usize := (copy.1, copy.2.len)

/-- Every payload copied to the buffer since its last reset is still there. -/
def Copied (x : FlushBuffer L) : Prop :=
  ∀ copy ∈ x.filling.copied, load x.buf.bytes (extent (range copy)) = copy.2.toList

theorem copyAt_eq_fill (bytes : Nat → UInt8) (offset : Usize) (payload : Slice) :
    FlushBuffer.copyAt bytes offset payload = fill bytes payload.byte (extent (offset, payload.len)) :=
  rfl

namespace Copied
variable {x y : FlushBuffer L}

theorem of_empty (hcopied : x.filling.copied = []) : Copied x := by
  intro copy hcopy
  rw [hcopied] at hcopy
  cases hcopy

/-- A step that changes neither the memory nor the record of copies. -/
theorem congr (h : Copied x) (hbuf : y.buf = x.buf) (hcopied : y.filling.copied = x.filling.copied) :
    Copied y := by
  intro copy hcopy
  rw [hcopied] at hcopy
  rw [hbuf]
  exact h copy hcopy

/-- Copying to a granted range leaves what was copied to the others. -/
theorem write {offset : Usize} {payload : Slice} (h : Copied x)
    (hapart : ∀ copy ∈ x.filling.copied, (extent (range copy)).Apart (extent (offset, payload.len))) :
    Copied (x.write offset payload) := by
  have hfill : (x.write offset payload).buf.bytes = fill x.buf.bytes payload.byte (extent (offset, payload.len)) :=
    copyAt_eq_fill x.buf.bytes offset payload
  intro copy hcopy
  rw [FlushBuffer.write_filling_copied, List.mem_append, List.mem_singleton] at hcopy
  rw [hfill]
  obtain hold | rfl := hcopy
  · rw [load_fill_apart _ _ (hapart copy hold)]
    exact h copy hold
  · exact load_fill_self _ _

end Copied

/-- The buffer is sealed, has no writers and holds the payload of every range granted since its last reset. -/
structure Drained (x : FlushBuffer L) : Prop where
  sealed : state_sealed x.state = true
  writers : state_writers x.state = 0
  granted : x.filling.granted.Perm (x.filling.copied.map range)
  copied : Copied x

/-- The ranges granted since the last reset follow one another from 0 to the offset in the word, within
one megabyte. -/
structure Tiled (x : FlushBuffer L) : Prop where
  tiles : Tiles 0 (x.filling.granted.map extent) x.size.toNat
  fits : x.size.toNat ≤ 2 ^ 20

/-- A reservation that is prepared fits behind those granted before. -/
theorem FlushBuffer.reserve_decision_fits {state n offset new : Usize}
    (hsize : (state_offset state).toNat ≤ 2 ^ 20) (hlen : n ≤ ONE_MEGABYTE_BLOCK)
    (hdecision : reserve_decision state n = .ok (offset, new)) :
    offset = state_offset state ∧ offset.toNat + n.toNat ≤ 2 ^ 20 := by
  obtain ⟨_, _, rfl, hfit, _⟩ := reserve_decision_ok hdecision
  have hblock : ONE_MEGABYTE_BLOCK.toNat = 1048576 := rfl
  rw [BitVec.le_def, hblock] at hlen
  rw [BitVec.le_def, BitVec.toNat_add, hblock] at hfit
  exact ⟨rfl, by omega⟩

namespace Tiled
variable {x y : FlushBuffer L}

theorem of_empty (hstate : x.state = 0) (hgranted : x.filling.granted = []) : Tiled x where
  tiles := by
    rw [FlushBuffer.size, hstate, hgranted]
    exact .nil
  fits := by
    rw [FlushBuffer.size, hstate]
    exact Nat.zero_le _

/-- A step that moves neither the offset nor the granted ranges. -/
theorem congr (h : Tiled x) (hsize : y.size = x.size) (hgranted : y.filling.granted = x.filling.granted) :
    Tiled y where
  tiles := by
    rw [hsize, hgranted]
    exact h.tiles
  fits := by
    rw [hsize]
    exact h.fits

/-- A new reservation takes the next bytes. -/
theorem grant {n offset new : Usize} (h : Tiled x) (hlen : n ≤ ONE_MEGABYTE_BLOCK)
    (hdecision : FlushBuffer.reserve_decision x.state n = .ok (offset, new))
    (hroom : (state_writers x.state).toNat + 1 < 2 ^ 24) : Tiled (x.grant new offset n) := by
  obtain ⟨rfl, hsum⟩ := FlushBuffer.reserve_decision_fits h.fits hlen hdecision
  obtain ⟨_, _, _, _, hnew⟩ := FlushBuffer.reserve_decision_ok hdecision
  have hsize : (x.grant new (state_offset x.state) n).size.toNat = x.size.toNat + n.toNat := by
    rw [FlushBuffer.size, FlushBuffer.grant_state, hnew]
    exact state_offset_reserved _ _ (by omega) hroom
  constructor
  · rw [hsize, FlushBuffer.grant_filling_granted, List.map_append]
    exact h.tiles.concat n.toNat
  · rw [hsize]
    exact hsum

/-- Ranges granted to different reservations do not overlap. -/
theorem pairwise (h : Tiled x) : x.filling.granted.Pairwise fun r r' => (extent r).Apart (extent r') :=
  List.pairwise_map.mp h.tiles.pairwise

/-- A granted range does not overlap any other granted one. -/
theorem apart (h : Tiled x) {r r' : Usize × Usize} (hr : r ∈ x.filling.granted)
    (hr' : r' ∈ x.filling.granted.erase r) : (extent r).Apart (extent r') := by
  have hperm := List.perm_cons_erase hr
  have hpairwise := (hperm.pairwise_iff Extent.Apart.symm).mp h.pairwise
  exact List.rel_of_pairwise_cons hpairwise hr'

/-- A granted range ends below the offset. -/
theorem stop_le (h : Tiled x) {r : Usize × Usize} (hr : r ∈ x.filling.granted) :
    r.1.toNat + r.2.toNat ≤ x.size.toNat :=
  (h.tiles.bounds (List.mem_map_of_mem hr)).2

/-- The granted ranges are exactly the bytes below the offset. -/
theorem iUnion (h : Tiled x) :
    (⋃ r ∈ x.filling.granted, (extent r).asSet) = Set.Ico 0 x.size.toNat := by
  rw [← h.tiles.iUnion_asSet]
  ext i
  simp

end Tiled

end FlushRing
