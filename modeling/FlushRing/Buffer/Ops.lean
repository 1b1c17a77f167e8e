import FlushRing.Buffer

namespace FlushRing

variable {L : Nat}

/-- The wrapper `state` returns around the word. -/
structure State where
  inner : Usize

namespace State

def offset (self : State) : Usize := self.inner >>> OFFSET_SHIFT

def n_writers (self : State) : Usize := (self.inner &&& WRITER_MASK) >>> WRITER_SHIFT

def sealed (self : State) : Bool := self.inner &&& SEALED_BIT != 0

def flushing (self : State) : Bool := self.inner &&& FLUSH_IN_PROGRESS_BIT != 0

end State

namespace FlushBuffer

/-- `state`: a snapshot of the word. -/
def snapshot (self : FlushBuffer L) : State := { inner := self.state }

@[simps]
def increment_writers (self : FlushBuffer L) : FlushBuffer L :=
  { self with state := self.state + WRITER_ONE }

@[simps]
def clear_flush_in_progress (self : FlushBuffer L) : FlushBuffer L :=
  { self with state := self.state &&& ~~~FLUSH_IN_PROGRESS_BIT }

/-- What `un_sealed` decides from the word it loaded: an error, or the word its `compare_exchange` tries
to install. -/
def un_sealed_decision (current : Usize) : Except BufferError Usize :=
  if state_writers current ≠ 0 ∨ state_flush_in_progress current then .error .ActiveUsers
  else if state_sealed current then .ok (current &&& ~~~SEALED_BIT)
  else .error .EncounteredUnSealedBufferDuringCOMPEX

/-- A buffer that is unsealed was sealed, and loses the sealed bit only. -/
theorem un_sealed_decision_ok {current new : Usize} (h : un_sealed_decision current = .ok new) :
    state_sealed current = true ∧ new = current &&& ~~~SEALED_BIT := by
  unfold un_sealed_decision at h
  split at h
  next => cases h
  next =>
    split at h
    next hsealed =>
      cases h
      exact ⟨hsealed, rfl⟩
    next => cases h

/-- `un_sealed` with no other thread between its load and its `compare_exchange`. -/
def un_sealed (self : FlushBuffer L) : Except BufferError Unit × FlushBuffer L :=
  match un_sealed_decision self.state with
  | .error e => (.error e, self)
  | .ok new => (.ok (), { self with state := new })

/-- `reset_offset` with no other thread between its load and its `compare_exchange`. -/
def reset_offset (self : FlushBuffer L) : FlushBuffer L :=
  { self with state := self.state &&& 0x00000000FFFFFFFF#64 }

/-- What `increment_offset` decides from the word it loaded: an error, or the offset it returns together
with the word it stores. -/
def increment_offset_decision (state payload_size : Usize) : Except BufferError (Usize × Usize) :=
  let offset := state_offset state
  if offset + payload_size > ONE_MEGABYTE_BLOCK then .error .InsufficientSpace
  else .ok (offset, state + payload_size * OFFSET_ONE)

/-- What an increment of the offset found and stores. -/
theorem increment_offset_decision_ok {state payload_size offset new : Usize}
    (h : increment_offset_decision state payload_size = .ok (offset, new)) :
    offset = state_offset state ∧ state_offset state + payload_size ≤ ONE_MEGABYTE_BLOCK ∧
      new = state + payload_size * OFFSET_ONE := by
  unfold increment_offset_decision at h
  simp only at h
  split at h
  next => cases h
  next hfits =>
    cases h
    exact ⟨rfl, BitVec.not_lt.mp hfits, rfl⟩

/-- The store of `increment_offset`. -/
@[simps]
def store_state (self : FlushBuffer L) (new : Usize) : FlushBuffer L := { self with state := new }

/-- `increment_offset` with no other thread between its load and its store. -/
def increment_offset (self : FlushBuffer L) (payload_size : Usize) :
    Except BufferError Usize × FlushBuffer L :=
  match increment_offset_decision self.state payload_size with
  | .error e => (.error e, self)
  | .ok (offset, new) => (.ok offset, self.store_state new)

theorem increment_offset_buf (self : FlushBuffer L) (payload_size : Usize) :
    (self.increment_offset payload_size).2.buf = self.buf := by
  unfold increment_offset
  split <;> rfl

end FlushBuffer

end FlushRing
