import FlushRing.Buffer

namespace FlushRing

/-- The settings `with_options` copies into the ring; the capacity is the type's `L`. -/
structure BufferRingOptions where
  buffer_size : Usize
  io_instance : Option QuikIO
  auto_flush : Bool
  auto_rotate : Bool
  cq_tx : Bool

/-- `BufferRingOptions::new`. -/
def BufferRingOptions.new : BufferRingOptions :=
  { buffer_size := 0, io_instance := none, auto_flush := true, auto_rotate := true, cq_tx := false }

/-- A message on the completion channel. `buffer` and `filling` are history: whose completion it
was, with the filling as it stood when the message was sent. -/
structure Sent (L : Nat) where
  file_offset : Usize
  byte_count : Usize
  buffer : Fin L
  filling : Filling

/-- The arguments of a `put`. -/
structure PutCall (L : Nat) where
  current : Fin L
  reserve_result : Except BufferError Usize
  payload : Slice

/-- The mutable state of a ring of `L` buffers, with the store's shared `IoUring` and file. -/
structure BufferRing (L : Nat) where
  current_buffer : Fin L
  ring : Fin L → FlushBuffer L
  next_index : Usize
  next_address_range : Usize
  io : IoUring L
  file : Nat → UInt8
  sent : List (Sent L)

namespace BufferRing
variable {L : Nat}

/-- `with_options`; capacity 0 panics at `buffers[0]`, hence the `NeZero`. -/
def with_options [NeZero L] (options : BufferRingOptions) : BufferRing L :=
  { current_buffer := 0
    ring := fun _ => FlushBuffer.new_buffer options.buffer_size
    next_index := 1
    next_address_range := 0
    io := IoUring.new
    file := fun _ => 0
    sent := [] }

/-- Update of one buffer of the ring. -/
def modify (self : BufferRing L) (b : Fin L) (f : FlushBuffer L → FlushBuffer L) : BufferRing L :=
  { self with ring := Function.update self.ring b (f (self.ring b)) }

section Modify
variable (self : BufferRing L) (b c : Fin L) (f : FlushBuffer L → FlushBuffer L)

/-- A change to one buffer leaves the others alone. -/
theorem modify_ring :
    (self.modify b f).ring c = if b = c then f (self.ring c) else self.ring c := by
  by_cases h : b = c
  · subst c
    simp [modify]
  · rw [if_neg h]
    exact Function.update_of_ne (Ne.symm h) _ _

@[simp] theorem modify_ring_self : (self.modify b f).ring b = f (self.ring b) := by
  simp [modify]

@[simp] theorem modify_current : (self.modify b f).current_buffer = self.current_buffer := rfl
@[simp] theorem modify_next_index : (self.modify b f).next_index = self.next_index := rfl
@[simp] theorem modify_address :
    (self.modify b f).next_address_range = self.next_address_range := rfl
@[simp] theorem modify_io : (self.modify b f).io = self.io := rfl
@[simp] theorem modify_file : (self.modify b f).file = self.file := rfl
@[simp] theorem modify_sent : (self.modify b f).sent = self.sent := rfl

end Modify

/-- A field that `f` leaves alone is the same in every buffer. -/
theorem modify_field {α : Type} {self : BufferRing L} {b : Fin L}
    {f : FlushBuffer L → FlushBuffer L} (field : FlushBuffer L → α)
    (hf : ∀ buffer, field (f buffer) = field buffer) (c : Fin L) :
    field ((self.modify b f).ring c) = field (self.ring c) := by
  rw [modify_ring]
  split
  · exact hf _
  · rfl

/-- `incrment_address`: the previous value is the claimed slot. -/
def incrment_address (self : BufferRing L) (val : Usize) : Usize × BufferRing L :=
  (self.next_address_range, { self with next_address_range := self.next_address_range + val })

/-- The `compare_exchange(0, slot)` of `__reserve_buf_addr`. -/
@[simps]
def adopt_address (slot : Usize) (buffer : FlushBuffer L) : FlushBuffer L :=
  { buffer with local_address := if buffer.local_address = 0 then slot else buffer.local_address }

def reserve_buf_addr (self : BufferRing L) (buffer : Fin L) (size : Usize) : BufferRing L :=
  let (slot, self) := self.incrment_address size
  self.modify buffer (adopt_address slot)

/-- The buffer a value of the cursor selects, `raw % ring_len`. -/
def candidate (self : BufferRing L) (raw : Usize) : Fin L :=
  ⟨raw.toNat % L, Nat.mod_lt _ (Fin.pos self.current_buffer)⟩

/-- `compare_exchange` on the current-buffer pointer. -/
def swap_current (self : BufferRing L) (current new : Fin L) : BufferRing L :=
  if self.current_buffer = current then { self with current_buffer := new } else self

section SwapCurrent
variable (self : BufferRing L) (current new : Fin L)

/-- A rotation's exchange changes the current buffer only. -/
@[simp] theorem swap_current_ring : (self.swap_current current new).ring = self.ring := by
  unfold swap_current
  split <;> rfl

@[simp] theorem swap_current_io : (self.swap_current current new).io = self.io := by
  unfold swap_current
  split <;> rfl

@[simp] theorem swap_current_file : (self.swap_current current new).file = self.file := by
  unfold swap_current
  split <;> rfl

@[simp] theorem swap_current_sent : (self.swap_current current new).sent = self.sent := by
  unfold swap_current
  split <;> rfl

@[simp] theorem swap_current_address :
    (self.swap_current current new).next_address_range = self.next_address_range := by
  unfold swap_current
  split <;> rfl

end SwapCurrent

/-- The `for` loop of `rotate_after_seal`, with the iterations still to run. -/
def rotate_scan (current : Fin L) (current_size : Usize) :
    Nat → BufferRing L → Except BufferError Unit × BufferRing L
  | 0, self => (.error .RingExhausted, self)
  | n + 1, self =>
    let raw := self.next_index
    let self := { self with next_index := raw + 1 }
    let new_buffer := self.candidate raw
    if (self.ring new_buffer).is_available then
      (.ok (), (self.swap_current current new_buffer).reserve_buf_addr new_buffer current_size)
    else rotate_scan current current_size n self

def rotate_after_seal (self : BufferRing L) (sealed_pos : Fin L) :
    Except BufferError Unit × BufferRing L :=
  let current := self.current_buffer
  let current_size := (self.ring current).size
  if current ≠ sealed_pos then (.ok (), self)
  else rotate_scan current current_size L self

def reset_buffer (self : BufferRing L) (buffer : Fin L) : BufferRing L :=
  (self.modify buffer FlushBuffer.clear_state).modify buffer (·.store_address 0)

/-- The locked section of `BackingStore::submit` on behalf of a buffer. -/
def submit_raw (self : BufferRing L) (store : QuikIO) (ok : Bool) (b : Fin L)
    (data_len at_ : Usize) : BufferRing L :=
  let r := store.get_backing_store.submit ok self.io (self.ring b).sqe data_len at_ b
    (self.ring b).filling.number
  { self.modify b ({ · with sqe := r.2 }) with io := r.1 }

/-- The entry a submission of `b` builds. -/
def writeEntry (self : BufferRing L) (store : QuikIO) (b : Fin L) (data_len at_ : Usize) : Sqe L :=
  { opcode := .Write b (data_len.setWidth 32), offset := at_,
    flags := store.get_backing_store.mode.flags, user_data := some b,
    filling := (self.ring b).filling.number }

/-- A submission is refused by a full queue and then changes nothing, or its entry is queued and
stored in the buffer. -/
theorem submit_raw_cases (self : BufferRing L) (store : QuikIO) (ok : Bool) (b : Fin L)
    (data_len at_ : Usize) :
    (self.io.push (self.writeEntry store b data_len at_) = none ∧
      self.submit_raw store ok b data_len at_ = self) ∨
    ∃ io, self.io.push (self.writeEntry store b data_len at_) = some io ∧
      (self.submit_raw store ok b data_len at_).io = io.submit ok ∧
      ((self.submit_raw store ok b data_len at_).ring b).sqe =
        some (self.writeEntry store b data_len at_) ∧
      ∀ c ≠ b, (self.submit_raw store ok b data_len at_).ring c = self.ring c := by
  cases hpush : self.io.push (self.writeEntry store b data_len at_) with
  | none =>
    have hraw : store.get_backing_store.submit ok self.io (self.ring b).sqe data_len at_ b
        (self.ring b).filling.number = (self.io, (self.ring b).sqe) := by
      simp only [BackingStore.submit]
      unfold writeEntry at hpush
      rw [hpush]
    refine .inl ⟨rfl, ?_⟩
    simp [submit_raw, hraw, modify]
  | some io =>
    have hraw : store.get_backing_store.submit ok self.io (self.ring b).sqe data_len at_ b
        (self.ring b).filling.number = (io.submit ok, some (self.writeEntry store b data_len at_)) := by
      simp only [BackingStore.submit]
      unfold writeEntry at hpush ⊢
      rw [hpush]
    refine .inr ⟨io, rfl, ?_, ?_, ?_⟩
    · simp [submit_raw, hraw]
    · simp [submit_raw, hraw]
    · intro c hc
      simp [submit_raw, modify_ring, Ne.symm hc]

/-- `QuikIO::submit_buffer`; the result of `submit` is dropped. -/
def submit_buffer (self : BufferRing L) (store : QuikIO) (ok : Bool) (b : Fin L) :
    BufferRing L :=
  self.submit_raw store ok b (self.ring b).data_len (self.ring b).local_address

def flush (options : BufferRingOptions) (ok : Bool) (self : BufferRing L) (buffer : Fin L) :
    BufferRing L :=
  let self := self.modify buffer FlushBuffer.set_flush_in_progress
  match options.io_instance with
  | some store => self.submit_buffer store ok buffer
  | none => self.reset_buffer buffer

/-- What both branches of `put` do once they own the flush. -/
def dispatch (options : BufferRingOptions) (ok : Bool) (self : BufferRing L) (current : Fin L) :
    BufferRing L :=
  match options.io_instance with
  | some _ => if options.auto_flush then flush options ok self current else self.reset_buffer current
  | none => self.reset_buffer current

/-- `put` with no other thread stepping during the call. -/
def put (options : BufferRingOptions) (ok : Bool) (self : BufferRing L) (current : Fin L)
    (reserve_result : Except BufferError Usize) (payload : Slice) :
    Except BufferError BufferMsg × BufferRing L :=
  match reserve_result with
  | .error .InsufficientSpace =>
    let prev := (self.ring current).state
    let self := self.modify current FlushBuffer.set_sealed
    if state_sealed prev then (.error .EncounteredSealedBuffer, self)
    else
      let padded := next_multiple_of (self.ring current).size FOUR_KB_BLOCK
      let (slot, self) := self.incrment_address padded
      let self := self.modify current (·.store_address slot)
      let self := if options.auto_rotate then (self.rotate_after_seal current).2 else self
      let state_now := (self.ring current).state
      if state_writers state_now = 0 then
        let before := (self.ring current).state
        let self := self.modify current FlushBuffer.set_flush_in_progress
        if state_flush_in_progress before then (.error .EncounteredSealedBuffer, self)
        else (.ok .SuccessfullWriteFlush, dispatch options ok self current)
      else (.error .EncounteredSealedBuffer, self)
  | .error e => (.error e, self)
  | .ok offset =>
    let self := self.modify current (·.write offset payload)
    let prev := (self.ring current).state
    let self := self.modify current FlushBuffer.decrement_writers
    if state_writers prev = 1 ∧ state_sealed prev then
      let prev := (self.ring current).state
      let self := self.modify current FlushBuffer.set_flush_in_progress
      if state_flush_in_progress prev then (.ok .SuccessfullWrite, self)
      else (.ok .SuccessfullWriteFlush, dispatch options ok self current)
    else (.ok .SuccessfullWrite, self)

def flush_current (options : BufferRingOptions) (ok : Bool) (self : BufferRing L) :
    Except BufferError Unit × BufferRing L :=
  let current := self.current_buffer
  if (self.ring current).size = 0 then (.ok (), self)
  else
    let self := self.modify current FlushBuffer.set_sealed
    let actual_len := (self.ring current).size
    let (slot, self) := self.incrment_address actual_len
    let self := self.modify current (·.store_address slot)
    let self := flush options ok self current
    let self := (self.rotate_after_seal current).2
    (.ok (), self)

/-- Retry of a failed write: pushes the stored entry again and submits. -/
def retry (self : BufferRing L) (ok : Bool) (b : Fin L) : BufferRing L :=
  match (self.ring b).sqe with
  | some sqe => { self with io := ((self.io.push sqe).getD self.io).submit ok }
  | none => self

/-- The retry queues the entry: one is stored and the queue has room for it. -/
def resubmits (self : BufferRing L) (b : Fin L) : Bool :=
  (self.ring b).sqe.any fun sqe => (self.io.push sqe).isSome

/-- A retry touches the queues only. -/
@[simp] theorem retry_ring (self : BufferRing L) (ok : Bool) (b : Fin L) :
    (self.retry ok b).ring = self.ring := by
  unfold retry
  split <;> rfl

@[simp] theorem retry_current (self : BufferRing L) (ok : Bool) (b : Fin L) :
    (self.retry ok b).current_buffer = self.current_buffer := by
  unfold retry
  split <;> rfl

@[simp] theorem retry_address (self : BufferRing L) (ok : Bool) (b : Fin L) :
    (self.retry ok b).next_address_range = self.next_address_range := by
  unfold retry
  split <;> rfl

/-- The message a successful completion puts on the channel. -/
def send (self : BufferRing L) (b : Fin L) (file_offset byte_count : Usize) : BufferRing L :=
  { self with
    sent := self.sent ++ [{ file_offset, byte_count, buffer := b, filling := (self.ring b).filling }] }

/-- The body of the inner `for` loop of `check_cque`. -/
def handle_cqe (options : BufferRingOptions) (ok : Bool) (self : BufferRing L) (cqe : Cqe L) :
    BufferRing L :=
  match cqe.user_data with
  | none => self
  | some buffer =>
    if cqe.result < 0 then self.retry ok buffer
    else
      let self :=
        if options.cq_tx then
          self.send buffer (self.ring buffer).local_address (self.ring buffer).size
        else self
      self.reset_buffer buffer

/-- The memory an entry is served from. -/
def source (self : BufferRing L) (e : Sqe L) : Nat → UInt8 :=
  match e.opcode with
  | .Write b _ => (self.ring b).buf.bytes
  | _ => fun _ => 0

/-- The file after an entry has ended with `result`: a write has put that many bytes in it. -/
def fileAfter (self : BufferRing L) (e : Sqe L) (result : Int) : Nat → UInt8 :=
  match e.opcode with
  | .Write _ _ => fun k =>
    if e.offset.toNat ≤ k ∧ k < e.offset.toNat + result.toNat then
      self.source e (k - e.offset.toNat)
    else self.file k
  | _ => self.file

/-- The kernel finishes the `i`-th entry it holds with `result`: an error, or at most the bytes asked
for. A failed write leaves the file as it was. -/
def complete (self : BufferRing L) (i : Nat) (result : Int) : Option (BufferRing L) :=
  match self.io.kernel[i]? with
  | none => none
  | some e =>
    if result ≤ e.len then
      some { self with
        file := self.fileAfter e result
        io := self.io.finish i { cqe := { entry := e, result }, file := self.fileAfter e result } }
    else none

/-- A completion belongs to an entry the kernel holds and writes at most what that asks for. -/
theorem complete_cases {self mem : BufferRing L} {i : Nat} {result : Int}
    (h : self.complete i result = some mem) :
    ∃ e, self.io.kernel[i]? = some e ∧ result ≤ e.len ∧
      mem = { self with
        file := self.fileAfter e result
        io := self.io.finish i { cqe := { entry := e, result }, file := self.fileAfter e result } } := by
  unfold complete at h
  split at h
  next => cases h
  next e he =>
    split at h
    next hle => exact ⟨e, he, hle, (Option.some.inj h).symm⟩
    next => cases h

end BufferRing

/-- A payload of `len` zero bytes. -/
def zeros (len : Usize) : Slice := { len, byte := fun _ => 0 }

/-- A ring with 1 MB buffers and a tail-localised store, everything else at its default. -/
def storeOptions : BufferRingOptions :=
  { BufferRingOptions.new with buffer_size := ONE_MEGABYTE_BLOCK, io_instance := some QuikIO.new }

end FlushRing
