import FlushRing.Uring

namespace FlushRing

inductive BufferError where
  | InsufficientSpace
  | EncounteredSealedBuffer
  | EncounteredSealedBufferDuringCOMPEX
  | EncounteredUnSealedBufferDuringCOMPEX
  | ActiveUsers
  | InvalidState
  | RingExhausted
  | FailedReservation
  | FailedUnsealed
  deriving DecidableEq, Repr

inductive BufferMsg where
  | SuccessfullWrite
  | SuccessfullWriteFlush
  deriving DecidableEq, Repr

/-- A `&[u8]`: its length and the bytes behind the pointer. -/
structure Slice where
  len : Usize
  byte : Nat → UInt8

def Slice.toList (s : Slice) : List UInt8 := (List.range s.len.toNat).map s.byte

/-- History of a buffer since its last reset: how many resets came before, the ranges granted by
`reserve_space` and the payloads copied by `write`, each at its offset. No function reads it. -/
structure Filling where
  number : Nat
  granted : List (Usize × Usize)
  copied : List (Usize × Slice)

/-- The aligned allocation: its bytes and its size. -/
structure Buffer where
  bytes : Nat → UInt8
  size : Usize

/-- A buffer is identified with its position, so `pos` is the index it is stored under. -/
structure FlushBuffer (L : Nat) where
  state : Usize
  buf : Buffer
  local_address : Usize
  sqe : Option (Sqe L)
  filling : Filling

namespace FlushBuffer
variable {L : Nat}

def new_buffer (size : Usize) : FlushBuffer L :=
  { state := 0, buf := { bytes := fun _ => 0, size }, local_address := 0, sqe := none,
    filling := { number := 0, granted := [], copied := [] } }

def is_available (self : FlushBuffer L) : Bool :=
  self.state &&& (SEALED_BIT ||| FLUSH_IN_PROGRESS_BIT) == 0 && state_offset self.state == 0

/-- What `reserve_space` decides from the word it loaded: an error, or the offset to grant together
with the word its `compare_exchange` tries to install. -/
def reserve_decision (state payload_size : Usize) : Except BufferError (Usize × Usize) :=
  if state &&& (SEALED_BIT ||| FLUSH_IN_PROGRESS_BIT) ≠ 0 then
    .error .EncounteredSealedBuffer
  else
    let offset := state_offset state
    if offset + payload_size > ONE_MEGABYTE_BLOCK then
      .error .InsufficientSpace
    else
      .ok (offset, reserved_word state payload_size)

/-- A reservation is only prepared from a word with both flags clear and room for the payload. -/
theorem reserve_decision_ok {state n offset new : Usize}
    (h : reserve_decision state n = .ok (offset, new)) :
    state_sealed state = false ∧ state_flush_in_progress state = false ∧
      offset = state_offset state ∧ state_offset state + n ≤ ONE_MEGABYTE_BLOCK ∧
      new = reserved_word state n := by
  unfold reserve_decision at h
  split at h
  next => cases h
  next hflags =>
    rw [not_not, flags_clear_iff] at hflags
    simp only at h
    split at h
    next => cases h
    next hfit =>
      simp only [Except.ok.injEq, Prod.mk.injEq] at h
      exact ⟨hflags.1, hflags.2, h.1.symm, BitVec.not_lt.mp hfit, h.2.symm⟩

/-- The effect of a `compare_exchange` of `reserve_space` that succeeds. -/
@[simps]
def grant (self : FlushBuffer L) (new offset payload_size : Usize) : FlushBuffer L :=
  { self with
    state := new
    filling := { self.filling with granted := self.filling.granted ++ [(offset, payload_size)] } }

/-- `reserve_space` with no other thread between its load and its `compare_exchange`; `none` is the
failed assertion on the payload size. -/
def reserve_space (self : FlushBuffer L) (payload_size : Usize) :
    Option (Except BufferError Usize × FlushBuffer L) :=
  if payload_size ≤ ONE_MEGABYTE_BLOCK then
    match reserve_decision self.state payload_size with
    | .error e => some (.error e, self)
    | .ok (offset, new) => some (.ok offset, self.grant new offset payload_size)
  else none

@[simps]
def decrement_writers (self : FlushBuffer L) : FlushBuffer L :=
  { self with state := self.state - WRITER_ONE }

@[simps]
def set_flush_in_progress (self : FlushBuffer L) : FlushBuffer L :=
  { self with state := self.state ||| FLUSH_IN_PROGRESS_BIT }

/-- The `fetch_or` of `put` and of `seal`. -/
@[simps]
def set_sealed (self : FlushBuffer L) : FlushBuffer L :=
  { self with state := self.state ||| SEALED_BIT }

def seal_ (self : FlushBuffer L) : Except BufferError Unit × FlushBuffer L :=
  (if state_sealed self.state then .error .EncounteredSealedBufferDuringCOMPEX else .ok (),
    self.set_sealed)

/-- Memory with `payload` copied over it at `offset`. -/
def copyAt (bytes : Nat → UInt8) (offset : Usize) (payload : Slice) : Nat → UInt8 := fun i =>
  if offset.toNat ≤ i ∧ i < offset.toNat + payload.len.toNat then payload.byte (i - offset.toNat)
  else bytes i

@[simps]
def write (self : FlushBuffer L) (offset : Usize) (payload : Slice) : FlushBuffer L :=
  { self with
    buf := { self.buf with bytes := copyAt self.buf.bytes offset payload }
    filling := { self.filling with copied := self.filling.copied ++ [(offset, payload)] } }

def size (self : FlushBuffer L) : Usize := state_offset self.state

/-- Length of the slice `buffer_data` returns. -/
def data_len (self : FlushBuffer L) : Usize := next_multiple_of self.size FOUR_KB_BLOCK

theorem size_lt (self : FlushBuffer L) : self.size.toNat < 2 ^ 32 := by
  have hstate := self.state.isLt
  rw [size, state_offset_toNat]
  omega

theorem data_len_toNat (self : FlushBuffer L) :
    self.data_len.toNat = (self.size.toNat + 4095) / 4096 * 4096 := by
  have hsize := self.size_lt
  exact next_multiple_of_block _ (by omega)

/-- The first store of `reset_buffer`; it ends the filling. -/
@[simps]
def clear_state (self : FlushBuffer L) : FlushBuffer L :=
  { self with
    state := 0
    filling := { number := self.filling.number + 1, granted := [], copied := [] } }

/-- The second store of `reset_buffer`, and the one of `put` and `flush_current`. -/
@[simps]
def store_address (self : FlushBuffer L) (slot : Usize) : FlushBuffer L :=
  { self with local_address := slot }

end FlushBuffer

end FlushRing
