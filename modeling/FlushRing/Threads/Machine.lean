import FlushRing.Ring

namespace FlushRing

/-- Who called `rotate_after_seal`. -/
inductive RotateCaller (L : Nat) where
  | put (call : PutCall L)
  | flush_current

/-- Who called `flush`. -/
inductive FlushCaller (L : Nat) where
  | put (call : PutCall L)
  | flush_current
  | client

/-- Who called `reset_buffer`; `check_cque` with the completion at hand and those still to handle. -/
inductive ResetCaller (L : Nat) where
  | put (call : PutCall L)
  | flush (caller : FlushCaller L)
  | check_cque (cqe : Cqe L) (rest : List (Cqe L))

/-- Program points. Each names the shared access a thread makes next, with the local values it has
read so far. -/
inductive Pc (L : Nat) where
  | idle
  -- FlushBuffer::reserve_space
  | reserveLoad (b : Fin L) (payload : Slice)
  | reserveExchange (b : Fin L) (payload : Slice) (state offset new : Usize)
  | reserved (b : Fin L) (payload : Slice) (result : Except BufferError Usize)
  -- BufferRing::put
  | putSeal (call : PutCall L)
  | putSize (call : PutCall L)
  | putClaim (call : PutCall L) (padded : Usize)
  | putStore (call : PutCall L) (slot : Usize)
  | putReload (call : PutCall L)
  | putWrite (call : PutCall L) (offset : Usize)
  | putDecrement (call : PutCall L)
  | putSetFlush (call : PutCall L)
  | returned (call : PutCall L) (result : Except BufferError BufferMsg)
  -- BufferRing::rotate_after_seal
  | rotateLoad (caller : RotateCaller L) (sealed_pos : Fin L)
  | rotateSize (caller : RotateCaller L) (sealed_pos current : Fin L)
  | rotateNext (caller : RotateCaller L) (current : Fin L) (size : Usize) (left : Nat)
  | rotateCheck (caller : RotateCaller L) (current : Fin L) (size : Usize) (left : Nat) (new : Fin L)
  | rotateSwap (caller : RotateCaller L) (current : Fin L) (size : Usize) (new : Fin L)
  | rotateClaim (caller : RotateCaller L) (size : Usize) (new : Fin L)
  | rotateStore (caller : RotateCaller L) (slot : Usize) (new : Fin L)
  -- BufferRing::flush and QuikIO::submit_buffer
  | flushSet (caller : FlushCaller L) (b : Fin L)
  | submitData (caller : FlushCaller L) (b : Fin L)
  | submitOffset (caller : FlushCaller L) (b : Fin L) (data_len : Usize)
  | submitPush (caller : FlushCaller L) (b : Fin L) (data_len offset : Usize)
  -- BufferRing::reset_buffer
  | resetState (caller : ResetCaller L) (b : Fin L)
  | resetAddress (caller : ResetCaller L) (b : Fin L)
  -- BufferRing::flush_current
  | currentLoad
  | currentSize (b : Fin L)
  | currentSeal (b : Fin L)
  | currentLen (b : Fin L)
  | currentClaim (b : Fin L) (len : Usize)
  | currentStore (b : Fin L) (slot : Usize)
  -- BufferRing::check_cque
  | cqueDrain
  | cqueNext (cqes : List (Cqe L))
  | cqueRetry (cqe : Cqe L) (b : Fin L) (rest : List (Cqe L))
  | cqueAddress (cqe : Cqe L) (b : Fin L) (rest : List (Cqe L))
  | cqueSize (cqe : Cqe L) (b : Fin L) (rest : List (Cqe L)) (file_offset : Usize)
  | cqueSend (cqe : Cqe L) (b : Fin L) (rest : List (Cqe L)) (file_offset byte_count : Usize)

namespace Pc
variable {L : Nat}

/-- Where a finished `rotate_after_seal` continues. -/
def afterRotate : RotateCaller L → Pc L
  | .put call => .putReload call
  | .flush_current => .idle

/-- Where a finished `flush` of `b` continues. -/
def afterFlush (b : Fin L) : FlushCaller L → Pc L
  | .put call => .returned call (.ok .SuccessfullWriteFlush)
  | .flush_current => .rotateLoad .flush_current b
  | .client => .idle

/-- Where a finished `reset_buffer` of `b` continues. -/
def afterReset (b : Fin L) : ResetCaller L → Pc L
  | .put call => .returned call (.ok .SuccessfullWriteFlush)
  | .flush caller => afterFlush b caller
  | .check_cque _ rest => .cqueNext rest

/-- What `put` returns when it finds the flush bit already set. -/
def flushLost (call : PutCall L) : Except BufferError BufferMsg :=
  match call.reserve_result with
  | .ok _ => .ok .SuccessfullWrite
  | .error _ => .error .EncounteredSealedBuffer

/-- Where `put` continues once it owns the flush. -/
def afterOwning (options : BufferRingOptions) (call : PutCall L) : Pc L :=
  match options.io_instance with
  | some _ =>
    if options.auto_flush then .flushSet (.put call) call.current
    else .resetState (.put call) call.current
  | none => .resetState (.put call) call.current

/-- The dispatch of `put` on its reservation result. -/
def putEntry (call : PutCall L) : Pc L :=
  match call.reserve_result with
  | .error .InsufficientSpace => .putSeal call
  | .error e => .returned call (.error e)
  | .ok offset => .putWrite call offset

/-- The dispatch of `check_cque` on the next completion it drained. -/
def cqueEntry (options : BufferRingOptions) (cqe : Cqe L) (rest : List (Cqe L)) : Pc L :=
  match cqe.user_data with
  | none => .cqueNext rest
  | some b =>
    if cqe.result < 0 then .cqueRetry cqe b rest
    else if options.cq_tx then .cqueAddress cqe b rest
    else .resetState (.check_cque cqe rest) b

end Pc

open Pc in
/-- One atomic step of a thread at the given program point; `ok` is the outcome of a `submit` it may
make. A thread between calls takes no step of its own. -/
def next {L : Nat} (options : BufferRingOptions) (ok : Bool) (self : BufferRing L) :
    Pc L → Option (Pc L × BufferRing L)
  | .idle => none
  | .reserveLoad b payload =>
    let state := (self.ring b).state
    match FlushBuffer.reserve_decision state payload.len with
    | .error e => some (.reserved b payload (.error e), self)
    | .ok (offset, new) => some (.reserveExchange b payload state offset new, self)
  | .reserveExchange b payload state offset new =>
    if (self.ring b).state = state then
      some (.reserved b payload (.ok offset), self.modify b (·.grant new offset payload.len))
    else some (.reserved b payload (.error .FailedReservation), self)
  | .reserved _ _ _ => none
  | .putSeal call =>
    let prev := (self.ring call.current).state
    let self := self.modify call.current FlushBuffer.set_sealed
    if state_sealed prev then some (.returned call (.error .EncounteredSealedBuffer), self)
    else some (.putSize call, self)
  | .putSize call =>
    some (.putClaim call (next_multiple_of (self.ring call.current).size FOUR_KB_BLOCK), self)
  | .putClaim call padded =>
    let (slot, self) := self.incrment_address padded
    some (.putStore call slot, self)
  | .putStore call slot =>
    let self := self.modify call.current (·.store_address slot)
    if options.auto_rotate then some (.rotateLoad (.put call) call.current, self)
    else some (.putReload call, self)
  | .putReload call =>
    if state_writers (self.ring call.current).state = 0 then some (.putSetFlush call, self)
    else some (.returned call (.error .EncounteredSealedBuffer), self)
  | .putWrite call offset =>
    some (.putDecrement call, self.modify call.current (·.write offset call.payload))
  | .putDecrement call =>
    let prev := (self.ring call.current).state
    let self := self.modify call.current FlushBuffer.decrement_writers
    if state_writers prev = 1 ∧ state_sealed prev then some (.putSetFlush call, self)
    else some (.returned call (.ok .SuccessfullWrite), self)
  | .putSetFlush call =>
    let prev := (self.ring call.current).state
    let self := self.modify call.current FlushBuffer.set_flush_in_progress
    if state_flush_in_progress prev then some (.returned call (flushLost call), self)
    else some (afterOwning options call, self)
  | .returned _ _ => none
  | .rotateLoad caller sealed_pos => some (.rotateSize caller sealed_pos self.current_buffer, self)
  | .rotateSize caller sealed_pos current =>
    let size := (self.ring current).size
    if current ≠ sealed_pos then some (afterRotate caller, self)
    else some (.rotateNext caller current size L, self)
  | .rotateNext caller _ _ 0 => some (afterRotate caller, self)
  | .rotateNext caller current size (left + 1) =>
    let raw := self.next_index
    some (.rotateCheck caller current size left (self.candidate raw),
      { self with next_index := raw + 1 })
  | .rotateCheck caller current size left new =>
    if (self.ring new).is_available then some (.rotateSwap caller current size new, self)
    else some (.rotateNext caller current size left, self)
  | .rotateSwap caller current size new =>
    some (.rotateClaim caller size new, self.swap_current current new)
  | .rotateClaim caller size new =>
    let (slot, self) := self.incrment_address size
    some (.rotateStore caller slot new, self)
  | .rotateStore caller slot new =>
    some (afterRotate caller, self.modify new (BufferRing.adopt_address slot))
  | .flushSet caller b =>
    let self := self.modify b FlushBuffer.set_flush_in_progress
    match options.io_instance with
    | some _ => some (.submitData caller b, self)
    | none => some (.resetState (.flush caller) b, self)
  | .submitData caller b => some (.submitOffset caller b (self.ring b).data_len, self)
  | .submitOffset caller b data_len =>
    some (.submitPush caller b data_len (self.ring b).local_address, self)
  | .submitPush caller b data_len offset =>
    match options.io_instance with
    | some store => some (afterFlush b caller, self.submit_raw store ok b data_len offset)
    | none => none
  | .resetState caller b => some (.resetAddress caller b, self.modify b FlushBuffer.clear_state)
  | .resetAddress caller b => some (afterReset b caller, self.modify b (·.store_address 0))
  | .currentLoad => some (.currentSize self.current_buffer, self)
  | .currentSize b =>
    if (self.ring b).size = 0 then some (.idle, self) else some (.currentSeal b, self)
  | .currentSeal b => some (.currentLen b, self.modify b FlushBuffer.set_sealed)
  | .currentLen b => some (.currentClaim b (self.ring b).size, self)
  | .currentClaim b len =>
    let (slot, self) := self.incrment_address len
    some (.currentStore b slot, self)
  | .currentStore b slot =>
    some (.flushSet .flush_current b, self.modify b (·.store_address slot))
  | .cqueDrain =>
    let (cqes, io) := self.io.drain
    if cqes.isEmpty then some (.idle, { self with io }) else some (.cqueNext cqes, { self with io })
  | .cqueNext [] => some (.cqueDrain, self)
  | .cqueNext (cqe :: rest) => some (cqueEntry options cqe rest, self)
  | .cqueRetry _ b rest => some (.cqueNext rest, self.retry ok b)
  | .cqueAddress cqe b rest => some (.cqueSize cqe b rest (self.ring b).local_address, self)
  | .cqueSize cqe b rest file_offset =>
    some (.cqueSend cqe b rest file_offset (self.ring b).size, self)
  | .cqueSend cqe b rest file_offset byte_count =>
    some (.resetState (.check_cque cqe rest) b, self.send b file_offset byte_count)

/-- Calls a client makes from its own code. `take` takes up the next payload to log, `finish` returns
from a call that has ended. -/
inductive Call where
  | take (payload : Slice)
  | current_buffer
  | reserve_space
  | put
  | flush_current
  | flush
  | check_cque
  | finish

/-- The program point a call leads to, from the buffer the thread holds a reference to and the
payload it has taken up. A granted reservation can only be handed to `put`. -/
def entry {L : Nat} (options : BufferRingOptions) (held : Option (Fin L)) (msg : Option Slice) :
    Call → Pc L → Option (Pc L)
  | .take _, .idle => some .idle
  | .current_buffer, .idle => some .idle
  | .reserve_space, .idle =>
    match held, msg with
    | some b, some payload =>
      if payload.len ≤ ONE_MEGABYTE_BLOCK then some (.reserveLoad b payload) else none
    | _, _ => none
  | .put, .reserved b payload result =>
    some (Pc.putEntry { current := b, reserve_result := result, payload })
  | .flush_current, .idle => some .currentLoad
  | .flush, .idle => held.map (.flushSet .client)
  | .check_cque, .idle => options.io_instance.map fun _ => .cqueDrain
  | .finish, .reserved _ _ (.error _) => some .idle
  | .finish, .returned _ _ => some .idle
  | _, _ => none

/-- A call of `BackingStore::submit`. -/
structure Submission (L : Nat) where
  buffer : Fin L
  offset : Usize
  data_len : Usize
  deriving DecidableEq

/-- The ring and its threads. `slot` and `submissions` are history: the address claimed by the thread that
sealed a buffer's present filling, and the arguments of the submissions made so far. -/
structure Threads (T : Type) (L : Nat) where
  mem : BufferRing L
  pc : T → Pc L
  held : T → Option (Fin L)
  msg : T → Option Slice
  slot : Fin L → Option Usize
  submissions : List (Submission L)

inductive Action (T : Type) where
  | call (t : T) (c : Call)
  | run (t : T) (ok : Bool)
  | complete (i : Nat) (result : Int)

namespace Threads
variable {T : Type} [DecidableEq T] {L : Nat}

def init (mem : BufferRing L) : Threads T L :=
  { mem, pc := fun _ => .idle, held := fun _ => none, msg := fun _ => none, slot := fun _ => none,
    submissions := [] }

/-- The history after a step of a thread from `pc` to `pc'`. -/
def record (s : Threads T L) : Pc L → Pc L → Threads T L
  | .putClaim call _, .putStore _ slot =>
    { s with slot := Function.update s.slot call.current (some slot) }
  | .currentClaim b _, .currentStore _ slot =>
    { s with slot := Function.update s.slot b (some slot) }
  | .resetState _ b, _ => { s with slot := Function.update s.slot b none }
  | .submitPush _ buffer data_len offset, _ =>
    { s with submissions := s.submissions ++ [{ buffer, offset, data_len }] }
  | _, _ => s

/-- What a call changes of the caller's own variables. -/
def note (s : Threads T L) (t : T) : Call → Threads T L
  | .take payload =>
    { s with msg := Function.update s.msg t (some payload) }
  | .current_buffer => { s with held := Function.update s.held t (some s.mem.current_buffer) }
  | .finish =>
    match s.pc t with
    | .returned _ (.ok _) => { s with msg := Function.update s.msg t none }
    | _ => s
  | _ => s

def step (options : BufferRingOptions) (s : Threads T L) : Action T → Option (Threads T L)
  | .call t c =>
    match entry options (s.held t) (s.msg t) c (s.pc t) with
    | some pc => some { s.note t c with pc := Function.update s.pc t pc }
    | none => none
  | .run t ok =>
    match next options ok s.mem (s.pc t) with
    | some (pc, mem) =>
      some { s.record (s.pc t) pc with mem, pc := Function.update s.pc t pc }
    | none => none
  | .complete i result =>
    match s.mem.complete i result with
    | some mem => some { s with mem }
    | none => none

end Threads

end FlushRing
