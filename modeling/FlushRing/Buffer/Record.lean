import FlushRing.Buffer.Ops
import FlushRing.Transition

open Transition

namespace FlushRing

variable {L : Nat}

/-- What a buffer's word stands for. -/
structure Record where
  offset : Nat
  writers : Nat
  sealed : Bool
  flushing : Bool
  offset_le : offset ≤ 2 ^ 20
  writers_lt : writers < 2 ^ 24

/-- The operations on the word. -/
inductive Op where
  | reserve_space (payload_size : Usize)
  | decrement_writers
  | increment_writers
  | seal_
  | un_sealed
  | set_flush_in_progress
  | clear_flush_in_progress
  | reset_offset
  | reset_buffer

/-- What an operation returns: the offset granted, a plain result, the previous state, or nothing. -/
inductive Response (N P : Type) where
  | reserved (result : Except BufferError N)
  | status (result : Except BufferError Unit)
  | previous (state : P)
  | done

def Response.failed {N P : Type} : Response N P → Bool
  | .reserved (.error _) => true
  | .status (.error _) => true
  | _ => false

/-- An operation of the code, run to its end; `none` is the failed assertion on the payload size. -/
def FlushBuffer.call (self : FlushBuffer L) : Op → Option (Response Usize Usize × FlushBuffer L)
  | .reserve_space payload_size =>
    (self.reserve_space payload_size).map fun r => (.reserved r.1, r.2)
  | .decrement_writers => some (.previous self.state, self.decrement_writers)
  | .increment_writers => some (.previous self.state, self.increment_writers)
  | .seal_ => some (.status self.seal_.1, self.seal_.2)
  | .un_sealed => some (.status self.un_sealed.1, self.un_sealed.2)
  | .set_flush_in_progress => some (.previous self.state, self.set_flush_in_progress)
  | .clear_flush_in_progress => some (.previous self.state, self.clear_flush_in_progress)
  | .reset_offset => some (.done, self.reset_offset)
  | .reset_buffer => some (.done, self.clear_state.store_address 0)

namespace Record

def empty : Record :=
  { offset := 0, writers := 0, sealed := false, flushing := false,
    offset_le := Nat.zero_le _, writers_lt := Nat.two_pow_pos 24 }

section Updates
variable (r : Record)

def setSealed (sealed : Bool) : Record := { r with sealed }

def setFlushing (flushing : Bool) : Record := { r with flushing }

def setOffset (offset : Nat) (h : offset ≤ 2 ^ 20) : Record := { r with offset, offset_le := h }

def setWriters (writers : Nat) (h : writers < 2 ^ 24) : Record := { r with writers, writers_lt := h }

end Updates

/-- The same operation on the record; `none` where it may not be called: a payload of more than a
megabyte, one writer too many, or none to take off. -/
def call (r : Record) : Op → Option (Response Nat Record × Record)
  | .reserve_space payload_size =>
    if hroom : payload_size ≤ ONE_MEGABYTE_BLOCK ∧ r.writers + 1 < 2 ^ 24 then
      if r.sealed || r.flushing then some (.reserved (.error .EncounteredSealedBuffer), r)
      else if hfits : r.offset + payload_size.toNat ≤ 2 ^ 20 then
        some (.reserved (.ok r.offset),
          (r.setOffset (r.offset + payload_size.toNat) hfits).setWriters (r.writers + 1) hroom.2)
      else some (.reserved (.error .InsufficientSpace), r)
    else none
  | .decrement_writers =>
    if 0 < r.writers then
      some (.previous r, r.setWriters (r.writers - 1) (by have := r.writers_lt; omega))
    else none
  | .increment_writers =>
    if hroom : r.writers + 1 < 2 ^ 24 then some (.previous r, r.setWriters (r.writers + 1) hroom)
    else none
  | .seal_ =>
    if r.sealed then some (.status (.error .EncounteredSealedBufferDuringCOMPEX), r)
    else some (.status (.ok ()), r.setSealed true)
  | .un_sealed =>
    if r.writers ≠ 0 ∨ r.flushing then some (.status (.error .ActiveUsers), r)
    else if r.sealed then some (.status (.ok ()), r.setSealed false)
    else some (.status (.error .EncounteredUnSealedBufferDuringCOMPEX), r)
  | .set_flush_in_progress => some (.previous r, r.setFlushing true)
  | .clear_flush_in_progress => some (.previous r, r.setFlushing false)
  | .reset_offset => some (.done, r.setOffset 0 (Nat.zero_le _))
  | .reset_buffer => some (.done, empty)

end Record

/-- The word's fields are those of the record, and its reserved bits are zero. -/
structure Decodes (w : Usize) (r : Record) : Prop where
  offset : (state_offset w).toNat = r.offset
  writers : (state_writers w).toNat = r.writers
  sealed : state_sealed w = r.sealed
  flushing : state_flush_in_progress w = r.flushing
  reserved : w.toNat / 4 % 64 = 0

/-- The word that holds a record. -/
def Record.encode (r : Record) : Nat :=
  r.offset * 2 ^ 32 + r.writers * 2 ^ 8 + r.flushing.toNat * 2 + r.sealed.toNat

/-- A word decodes to the record it encodes. -/
theorem Decodes.iff {w : Usize} {r : Record} : Decodes w r ↔ w.toNat = r.encode := by
  have hwriters := r.writers_lt
  have hoffset := r.offset_le
  have hsealed : state_sealed w = r.sealed ↔ w.toNat % 2 = r.sealed.toNat := by
    rw [Bool.eq_iff_iff, state_sealed_iff]
    cases r.sealed <;> simp
  have hflushing : state_flush_in_progress w = r.flushing ↔ w.toNat / 2 % 2 = r.flushing.toNat := by
    rw [Bool.eq_iff_iff, state_flush_in_progress_iff]
    cases r.flushing <;> simp
  have hs := r.sealed.toNat_le
  have hf := r.flushing.toNat_le
  unfold Record.encode
  constructor
  · intro h
    have ho := h.offset
    have hw := h.writers
    have hr := h.reserved
    rw [state_offset_toNat] at ho
    rw [state_writers_toNat] at hw
    have hs := hsealed.mp h.sealed
    have hf := hflushing.mp h.flushing
    omega
  · intro h
    refine ⟨?_, ?_, hsealed.mpr ?_, hflushing.mpr ?_, ?_⟩
    · rw [state_offset_toNat]
      omega
    · rw [state_writers_toNat]
      omega
    all_goals omega

/-- An answer of the code against one of the record. -/
def Response.Agrees : Response Usize Usize → Response Nat Record → Prop
  | .reserved (.ok offset), .reserved (.ok offset') => offset.toNat = offset'
  | .reserved (.error e), .reserved (.error e') => e = e'
  | .status result, .status result' => result = result'
  | .previous w, .previous r => Decodes w r
  | .done, .done => True
  | _, _ => False

theorem decodes_zero : Decodes 0#64 .empty := Decodes.iff.mpr rfl

namespace Decodes
variable {w : Usize} {r : Record}

/-- Setting the sealed bit seals the record. -/
theorem setSealed (h : Decodes w r) : Decodes (w ||| SEALED_BIT) (r.setSealed true) := by
  rw [Decodes.iff, Record.encode] at h ⊢
  rw [or_sealed_toNat]
  have hs := r.sealed.toNat_le
  simp only [Record.setSealed, Bool.toNat_true]
  omega

theorem setFlushing (h : Decodes w r) : Decodes (w ||| FLUSH_IN_PROGRESS_BIT) (r.setFlushing true) := by
  rw [Decodes.iff, Record.encode] at h ⊢
  rw [or_flush_toNat]
  have hs := r.sealed.toNat_le
  have hf := r.flushing.toNat_le
  simp only [Record.setFlushing, Bool.toNat_true]
  omega

/-- Clearing the sealed bit opens the record. -/
theorem clearSealed (h : Decodes w r) : Decodes (w &&& ~~~SEALED_BIT) (r.setSealed false) := by
  rw [Decodes.iff, Record.encode] at h ⊢
  rw [and_not_sealed_toNat]
  have hs := r.sealed.toNat_le
  simp only [Record.setSealed, Bool.toNat_false]
  omega

theorem clearFlushing (h : Decodes w r) :
    Decodes (w &&& ~~~FLUSH_IN_PROGRESS_BIT) (r.setFlushing false) := by
  rw [Decodes.iff, Record.encode] at h ⊢
  rw [and_not_flush_toNat]
  have hs := r.sealed.toNat_le
  have hf := r.flushing.toNat_le
  simp only [Record.setFlushing, Bool.toNat_false]
  omega

/-- Clearing the offset empties the record. -/
theorem setOffset_zero (h : Decodes w r) :
    Decodes (w &&& 0x00000000FFFFFFFF#64) (r.setOffset 0 (Nat.zero_le _)) := by
  rw [Decodes.iff, Record.encode] at h ⊢
  rw [and_low_toNat]
  have hs := r.sealed.toNat_le
  have hf := r.flushing.toNat_le
  have hw := r.writers_lt
  simp only [Record.setOffset]
  omega

/-- Adding to the writer field adds a writer, if there is room for one. -/
theorem addWriter (h : Decodes w r) (hroom : r.writers + 1 < 2 ^ 24) :
    Decodes (w + WRITER_ONE) (r.setWriters (r.writers + 1) hroom) := by
  have hone : WRITER_ONE.toNat = 2 ^ 8 := rfl
  rw [Decodes.iff, Record.encode] at h ⊢
  rw [BitVec.toNat_add, hone]
  have hs := r.sealed.toNat_le
  have hf := r.flushing.toNat_le
  have ho := r.offset_le
  simp only [Record.setWriters]
  omega

/-- Subtracting from the writer field takes a writer away, if there is one. -/
theorem takeWriter (h : Decodes w r) (hpos : 0 < r.writers) (hlt : r.writers - 1 < 2 ^ 24) :
    Decodes (w - WRITER_ONE) (r.setWriters (r.writers - 1) hlt) := by
  rw [Decodes.iff, Record.encode] at h ⊢
  rw [sub_writer_toNat]
  have hs := r.sealed.toNat_le
  have hf := r.flushing.toNat_le
  have ho := r.offset_le
  have hw := r.writers_lt
  simp only [Record.setWriters]
  omega

/-- A reservation moves the offset and adds a writer. -/
theorem reserve {n : Usize} (h : Decodes w r) (hfits : r.offset + n.toNat ≤ 2 ^ 20)
    (hroom : r.writers + 1 < 2 ^ 24) : Decodes (reserved_word w n)
      ((r.setOffset (r.offset + n.toNat) hfits).setWriters (r.writers + 1) hroom) := by
  rw [Decodes.iff, Record.encode] at h ⊢
  rw [reserved_word_toNat]
  have hs := r.sealed.toNat_le
  have hf := r.flushing.toNat_le
  simp only [Record.setOffset, Record.setWriters]
  omega

/-- What `reserve_space` decides, in terms of the record. -/
theorem reserve_decision (h : Decodes w r) {n : Usize} (hlen : n ≤ ONE_MEGABYTE_BLOCK) :
    FlushBuffer.reserve_decision w n =
      if r.sealed || r.flushing then .error .EncounteredSealedBuffer
      else if r.offset + n.toNat ≤ 2 ^ 20 then .ok (state_offset w, reserved_word w n)
      else .error .InsufficientSpace := by
  have hblock : ONE_MEGABYTE_BLOCK.toNat = 1048576 := rfl
  have hflags : w &&& (SEALED_BIT ||| FLUSH_IN_PROGRESS_BIT) ≠ 0 ↔ (r.sealed || r.flushing) = true := by
    rw [ne_eq, flags_clear_iff, h.sealed, h.flushing]
    cases r.sealed <;> cases r.flushing <;> simp
  have hoffset := h.offset
  have ho := r.offset_le
  rw [BitVec.le_def, hblock] at hlen
  have hfits : state_offset w + n > ONE_MEGABYTE_BLOCK ↔ ¬ r.offset + n.toNat ≤ 2 ^ 20 := by
    rw [gt_iff_lt, BitVec.lt_def, BitVec.toNat_add, hblock]
    omega
  unfold FlushBuffer.reserve_decision
  simp only [hflags, hfits, ite_not]

/-- The decision of `un_sealed` is made on the record. -/
theorem un_sealed_decision (h : Decodes w r) :
    FlushBuffer.un_sealed_decision w =
      if r.writers ≠ 0 ∨ r.flushing then .error .ActiveUsers
      else if r.sealed then .ok (w &&& ~~~SEALED_BIT)
      else .error .EncounteredUnSealedBufferDuringCOMPEX := by
  have hwriters : state_writers w ≠ 0 ↔ r.writers ≠ 0 := by
    rw [← h.writers, ne_eq, ne_eq, not_iff_not, ← BitVec.toNat_inj]
    rfl
  unfold FlushBuffer.un_sealed_decision
  simp only [hwriters, h.flushing, h.sealed]

end Decodes

/-- Every operation that may be called on the record does the same to the word. -/
theorem Record.call_refines {x : FlushBuffer L} {r r' : Record} {op : Op} {o : Response Nat Record}
    (hd : Decodes x.state r) (h : r.call op = some (o, r')) :
    ∃ o' x', x.call op = some (o', x') ∧ o'.Agrees o ∧ Decodes x'.state r' := by
  cases op <;> simp only [call] at h
  case reserve_space n =>
    split at h
    next hroom =>
      have hdecision := hd.reserve_decision hroom.1
      simp only [FlushBuffer.call, FlushBuffer.reserve_space, if_pos hroom.1, hdecision]
      split at h
      next hflags =>
        cases h
        simp only [if_pos hflags]
        exact ⟨_, x, rfl, rfl, hd⟩
      next hflags =>
        simp only [if_neg hflags]
        split at h
        next hfits =>
          cases h
          simp only [if_pos hfits]
          exact ⟨_, _, rfl, hd.offset, hd.reserve hfits hroom.2⟩
        next hfits =>
          cases h
          simp only [if_neg hfits]
          exact ⟨_, x, rfl, rfl, hd⟩
    next => cases h
  case decrement_writers =>
    split at h
    next hpos =>
      cases h
      exact ⟨_, _, rfl, hd, hd.takeWriter hpos _⟩
    next => cases h
  case increment_writers =>
    split at h
    next hroom =>
      cases h
      exact ⟨_, _, rfl, hd, hd.addWriter hroom⟩
    next => cases h
  case seal_ =>
    split at h
    next hsealed =>
      cases h
      have hword : state_sealed x.state = true := hd.sealed.trans hsealed
      refine ⟨_, _, rfl, ?_, ?_⟩
      · simp [FlushBuffer.seal_, hword, Response.Agrees]
      · rw [FlushBuffer.seal_, FlushBuffer.set_sealed_state, or_sealed_of_sealed hword]
        exact hd
    next hopen =>
      cases h
      have hword : state_sealed x.state = false := hd.sealed.trans (Bool.eq_false_iff.mpr hopen)
      refine ⟨_, _, rfl, ?_, hd.setSealed⟩
      simp [FlushBuffer.seal_, hword, Response.Agrees]
  case un_sealed =>
    have hdecision := hd.un_sealed_decision
    simp only [FlushBuffer.call, FlushBuffer.un_sealed, hdecision]
    split at h
    next hbusy =>
      cases h
      simp only [if_pos hbusy]
      exact ⟨_, x, rfl, rfl, hd⟩
    next hbusy =>
      simp only [if_neg hbusy]
      split at h
      next hsealed =>
        cases h
        simp only [if_pos hsealed]
        exact ⟨_, _, rfl, rfl, hd.clearSealed⟩
      next hsealed =>
        cases h
        simp only [if_neg hsealed]
        exact ⟨_, x, rfl, rfl, hd⟩
  case set_flush_in_progress =>
    cases h
    exact ⟨_, _, rfl, hd, hd.setFlushing⟩
  case clear_flush_in_progress =>
    cases h
    exact ⟨_, _, rfl, hd, hd.clearFlushing⟩
  case reset_offset =>
    cases h
    exact ⟨_, _, rfl, trivial, hd.setOffset_zero⟩
  case reset_buffer =>
    cases h
    exact ⟨_, _, rfl, trivial, decodes_zero⟩

/-- An operation that fails leaves the word as it was. -/
theorem FlushBuffer.failed_call {x x' : FlushBuffer L} {op : Op} {o : Response Usize Usize}
    (h : x.call op = some (o, x')) (hfailed : o.failed = true) : x'.state = x.state := by
  cases op
  case reserve_space n =>
    obtain ⟨⟨result, after⟩, hreserve, heq⟩ := Option.map_eq_some_iff.mp h
    cases heq
    unfold reserve_space at hreserve
    split at hreserve
    next =>
      split at hreserve
      next =>
        cases hreserve
        rfl
      next =>
        cases hreserve
        cases hfailed
    next => cases hreserve
  case seal_ =>
    cases h
    cases hsealed : state_sealed x.state with
    | true => exact or_sealed_of_sealed hsealed
    | false => simp [seal_, hsealed, Response.failed] at hfailed
  case un_sealed =>
    cases h
    unfold un_sealed at hfailed ⊢
    split at hfailed
    next => rfl
    next => cases hfailed
  all_goals
    cases h
    cases hfailed

/-- From an empty buffer the word refines the record, as long as `increment_writers` finds room as well:
the answers agree, the word reached stands for the record reached, failed operations leave it as it was,
and the accessors of `State` read the same fields. -/
theorem word_refines_record {size : Usize} {ops : List Op} {answered : List (Response Nat Record)}
    {r : Record} (h : answers Record.call ops .empty = some (answered, r)) :
    ∃ returned, ∃ x : FlushBuffer L,
      answers FlushBuffer.call ops (.new_buffer size) = some (returned, x) ∧
      List.Forall₂ Response.Agrees returned answered ∧ Decodes x.state r ∧
      (∀ op o x', x.call op = some (o, x') → o.failed = true → x'.state = x.state) ∧
      x.snapshot.offset = state_offset x.state ∧ x.snapshot.n_writers = state_writers x.state ∧
      x.snapshot.sealed = state_sealed x.state ∧
      x.snapshot.flushing = state_flush_in_progress x.state := by
  have hcall (r : Record) (x : FlushBuffer L) (op : Op) (o : Response Nat Record) (r' : Record)
      (hd : Decodes x.state r) (h : Record.call r op = some (o, r')) :
      ∃ o' x', FlushBuffer.call x op = some (o', x') ∧ o'.Agrees o ∧ Decodes x'.state r' :=
    Record.call_refines hd h
  have hzero : Decodes (FlushBuffer.new_buffer size : FlushBuffer L).state .empty := decodes_zero
  obtain ⟨returned, x, hcalls, hagrees, hdecodes⟩ :=
    answers_simulate (R := fun r (x : FlushBuffer L) => Decodes x.state r) (Q := fun o o' => Response.Agrees o' o) hcall
      hzero h
  exact ⟨returned, x, hcalls, hagrees.flip, hdecodes, fun _ _ _ h => FlushBuffer.failed_call h, rfl, rfl,
    rfl, rfl⟩

/-- A reservation is granted, the buffer sealed, the writer released and the buffer opened again. -/
def openAgain : List Op := [.reserve_space 10, .seal_, .decrement_writers, .un_sealed]

theorem word_refines_record_openAgain :
    ∃ answered r, answers Record.call openAgain .empty = some (answered, r) ∧
      ∃ returned, ∃ x : FlushBuffer 1,
        answers FlushBuffer.call openAgain (.new_buffer ONE_MEGABYTE_BLOCK) = some (returned, x) ∧
        List.Forall₂ Response.Agrees returned answered ∧ Decodes x.state r := by
  have hrun : (answers Record.call openAgain .empty).isSome = true := by decide +kernel
  obtain ⟨⟨answered, r⟩, h⟩ := Option.isSome_iff_exists.mp hrun
  obtain ⟨returned, x, hcalls, hagrees, hdecodes, _⟩ :=
    @word_refines_record 1 ONE_MEGABYTE_BLOCK openAgain answered r h
  exact ⟨answered, r, h, returned, x, hcalls, hagrees, hdecodes⟩

/-- The word after `n` calls of `increment_writers` and nothing else. -/
theorem increments (x : FlushBuffer L) (n : Nat) :
    ∃ returned y, answers FlushBuffer.call (List.replicate n .increment_writers) x = some (returned, y) ∧
      y.state.toNat = (x.state.toNat + n * 2 ^ 8) % 2 ^ 64 := by
  induction n generalizing x with
  | zero =>
    have hlt := x.state.isLt
    exact ⟨[], x, rfl, by omega⟩
  | succ n ih =>
    obtain ⟨returned, y, hcalls, hstate⟩ := ih x.increment_writers
    refine ⟨.previous x.state :: returned, y, ?_, ?_⟩
    · simp only [List.replicate_succ, answers, FlushBuffer.call, hcalls, Option.map_some]
    · have hone : WRITER_ONE.toNat = 2 ^ 8 := rfl
      rw [hstate, FlushBuffer.increment_writers_state, BitVec.toNat_add, hone]
      omega

/-- 2^24 calls of `increment_writers` on an empty buffer carry into the offset. -/
theorem increments_reach_offset :
    ∃ returned, ∃ x : FlushBuffer 1,
      answers FlushBuffer.call (List.replicate (2 ^ 24) .increment_writers) (.new_buffer ONE_MEGABYTE_BLOCK) =
        some (returned, x) ∧
      state_offset x.state = 1 ∧ state_writers x.state = 0 := by
  obtain ⟨returned, x, hcalls, hstate⟩ := increments (.new_buffer ONE_MEGABYTE_BLOCK : FlushBuffer 1) (2 ^ 24)
  have hzero : (FlushBuffer.new_buffer ONE_MEGABYTE_BLOCK : FlushBuffer 1).state.toNat = 0 := rfl
  rw [hzero] at hstate
  refine ⟨returned, x, hcalls, BitVec.eq_of_toNat_eq ?_, BitVec.eq_of_toNat_eq ?_⟩
  · rw [state_offset_toNat, hstate]
    rfl
  · rw [state_writers_toNat, hstate]
    rfl

end FlushRing
