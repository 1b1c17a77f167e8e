import FlushRing.Buffer
import FlushRing.Extents
import FlushRing.Submission

open Extents Submission

namespace FlushRing

def BATCH_SIZE : Usize := 1048576#64

def RING_LEN : Nat := 4

instance : NeZero RING_LEN := ⟨by decide⟩

/-- `IoUring::new(256)`. -/
def WRITER_ENTRIES : Nat := 256

inductive SlotState where
  | Open
  | InFlight
  deriving DecidableEq

structure Slot where
  buf : Nat → UInt8
  state : SlotState
  disk_offset : Usize
  sealed_len : Usize

def Slot.new : Slot := { buf := fun _ => 0, state := .Open, disk_offset := 0, sealed_len := 0 }

structure CompletedRange where
  disk_offset : Usize
  sealed_len : Usize
  deriving DecidableEq

/-- An entry of `opcode::Write`; `buf` is the slot its pointer points to. -/
structure WriteEntry where
  buf : Fin RING_LEN
  len : BitVec 32
  offset : Usize
  user_data : Usize
  deriving DecidableEq

/-- The slot index in the high 32 bits, the length in the low ones. -/
def pack (idx : Fin RING_LEN) (valid_len : Usize) : Usize := (BitVec.ofNat 64 idx.val <<< 32) ||| valid_len

/-- The entry `submit_slot` builds. -/
def write_e (disk_off : Usize) (idx : Fin RING_LEN) (valid_len : Usize) : WriteEntry :=
  { buf := idx, len := valid_len.setWidth 32, offset := disk_off, user_data := pack idx valid_len }

structure RingWriter where
  slots : Fin RING_LEN → Slot
  head : Fin RING_LEN
  cursor : Usize
  ring : Queues WriteEntry
  pending : Usize
  completed : List CompletedRange

namespace RingWriter

def new : RingWriter :=
  { slots := fun _ => .new, head := 0, cursor := 0, ring := .new, pending := 0, completed := [] }

/-- `Buffer::write` on the slot at the head. -/
def write (self : RingWriter) (offset : Usize) (payload : Slice) : RingWriter :=
  { self with
    slots := Function.update self.slots self.head
      { self.slots self.head with buf := FlushBuffer.copyAt (self.slots self.head).buf offset payload } }

/-- A claim of the cursor, `fetch_add`. -/
def claim (self : RingWriter) (len : Usize) : Usize × RingWriter :=
  (self.cursor, { self with cursor := self.cursor + len })

/-- The part of `submit_and_wait` before it waits. -/
def submit (self : RingWriter) : RingWriter := { self with ring := self.ring.submit }

/-- The slot at `idx` once it is sealed. -/
def take_slot (self : RingWriter) (disk_off : Usize) (idx : Fin RING_LEN) (valid_len : Usize) : RingWriter :=
  let slot := { self.slots idx with disk_offset := disk_off, sealed_len := valid_len, state := .InFlight }
  { self with slots := Function.update self.slots idx slot }

/-- `submit_slot` with the file offset it has claimed. A full queue is submitted, with the outcome `submits`, and
the entry pushed again; that submit may fail, and the queue may still be full. -/
def submit_slot (submits : Bool) (self : RingWriter) (disk_off : Usize) (idx : Fin RING_LEN) (valid_len : Usize) :
    Except RingWriter RingWriter :=
  let self := self.take_slot disk_off idx valid_len
  let write_e := write_e disk_off idx valid_len
  match self.ring.push WRITER_ENTRIES write_e with
  | some ring => .ok { self with ring, pending := self.pending + 1 }
  | none =>
    if submits then
      match self.ring.submit.push WRITER_ENTRIES write_e with
      | some ring => .ok { self with ring, pending := self.pending + 1 }
      | none => .error self.submit
    else .error self

/-- The body of the loop of `reap_all`; an index outside of the slots panics. -/
def reap (self : RingWriter) (cqe : Submission.Completion WriteEntry) : Option RingWriter :=
  let ud := cqe.entry.user_data
  let idx := (ud >>> 32).toNat
  let len := ud &&& 0xFFFFFFFF#64
  if h : idx < RING_LEN then
    let slot := self.slots ⟨idx, h⟩
    some { self with
      completed := self.completed ++ [{ disk_offset := slot.disk_offset, sealed_len := len }]
      slots := Function.update self.slots ⟨idx, h⟩ { slot with state := .Open, sealed_len := 0 }
      pending := self.pending - 1 }
  else none

def reap_all (self : RingWriter) : Option RingWriter :=
  self.ring.cq.foldlM reap { self with ring := self.ring.drain.2 }

/-- The slot after the one at the head. -/
def next (self : RingWriter) : Fin RING_LEN := self.head + 1

/-- Where `seal_and_advance` ends. -/
def advance (self : RingWriter) : RingWriter := { self with head := self.next, cursor := 0 }

end RingWriter

/-- Who called `seal_and_advance`. -/
inductive SealCaller where
  | append (payload : Slice)
  | flush
  | finish

/-- Where a writer stands: between calls, the last one a `finish` or one that failed, or in `submit_and_wait`. -/
inductive WriterStage where
  | idle
  | finished
  | failed
  -- seal_and_advance waits for its next slot
  | waits (caller : SealCaller)
  -- finish waits for everything
  | drains

def WriterStage.ready : WriterStage → Bool
  | .idle => true
  | .finished => true
  | _ => false

/-- A slot that was sealed: who claimed which part of the file for which payloads. -/
structure Batch (T : Type) where
  writer : T
  offset : Usize
  len : Usize
  payloads : List Slice

/-- Writers that share a file and the counter of its claimed bytes. `file_len` is the length of the file and
`returned` what the calls of `finish` have returned; `batches`, `filling` and `appended` are history: what was
claimed so far, the payloads in the slot each writer fills, and all payloads its appends were called with. -/
structure Writers (T : Type) where
  writer : T → RingWriter
  stage : T → WriterStage
  file_offset : Usize
  file : Nat → UInt8
  file_len : Nat
  returned : T → List CompletedRange
  batches : List (Batch T)
  filling : T → List Slice
  appended : T → List Slice

namespace Writers
variable {T : Type} [DecidableEq T]

inductive Action (T : Type) where
  | append (t : T) (payload : Slice) (submits : Bool)
  | flush (t : T) (submits : Bool)
  | finish (t : T) (submits : Bool)
  -- submit_and_wait returns
  | resume (t : T) (ok : Bool)
  | serve (t : T) (a : Serve)

def init : Writers T :=
  { writer := fun _ => .new, stage := fun _ => .idle, file_offset := 0, file := fun _ => 0, file_len := 0,
    returned := fun _ => [], batches := [], filling := fun _ => [], appended := fun _ => [] }

def set (s : Writers T) (t : T) (w : RingWriter) (stage : WriterStage) : Writers T :=
  { s with writer := Function.update s.writer t w, stage := Function.update s.stage t stage }

/-- A payload is copied to what the cursor has claimed for it. -/
def place (s : Writers T) (t : T) (w : RingWriter) (offset : Usize) (payload : Slice) : Writers T :=
  { s with filling := Function.update s.filling t (s.filling t ++ [payload]) }.set t (w.write offset payload) .idle

/-- `finish` returns the ranges completed so far. -/
def ends (s : Writers T) (t : T) (w : RingWriter) : Writers T :=
  { s with returned := Function.update s.returned t (s.returned t ++ w.completed) }.set t { w with completed := [] }
    .finished

/-- `finish` once the slot at the head is sealed. -/
def drain (s : Writers T) (t : T) (w : RingWriter) : Writers T :=
  if 0 < w.pending then s.set t w.submit .drains else s.ends t w

/-- What the caller of `seal_and_advance` does when it has returned. -/
def sealed (s : Writers T) (t : T) (w : RingWriter) : SealCaller → Writers T
  | .append payload =>
    let (new_offset, w) := w.claim payload.len
    s.place t w new_offset payload
  | .flush => s.set t w .idle
  | .finish => s.drain t w

/-- The loop of `seal_and_advance`. -/
def wait (s : Writers T) (t : T) (w : RingWriter) (caller : SealCaller) : Writers T :=
  if (w.slots w.next).state = .InFlight then s.set t w.submit (.waits caller)
  else s.sealed t w.advance caller

/-- The shared counter is advanced, `fetch_add`, for the slot a writer seals. -/
def claim (s : Writers T) (t : T) (valid_len : Usize) : Writers T :=
  { s with
    file_offset := s.file_offset + valid_len
    batches := s.batches ++ [{ writer := t, offset := s.file_offset, len := valid_len, payloads := s.filling t }]
    filling := Function.update s.filling t [] }

/-- `seal_and_advance`; the counter stays advanced whatever becomes of the entry. -/
def seal_and_advance (s : Writers T) (t : T) (submits : Bool) (w : RingWriter) (valid_len : Usize)
    (caller : SealCaller) : Writers T :=
  if valid_len > 0 then
    match w.submit_slot submits s.file_offset w.head valid_len with
    | .ok w => (s.claim t valid_len).wait t w caller
    | .error w => (s.claim t valid_len).set t w .failed
  else s.wait t w caller

def append (s : Writers T) (t : T) (submits : Bool) (payload : Slice) : Writers T :=
  let (offset, w) := (s.writer t).claim payload.len
  if offset + payload.len > BATCH_SIZE then s.seal_and_advance t submits w offset (.append payload)
  else s.place t w offset payload

def flush (s : Writers T) (t : T) (submits : Bool) : Writers T :=
  let filled := (s.writer t).cursor
  if filled > 0 then s.seal_and_advance t submits (s.writer t) filled .flush
  else s.set t (s.writer t) .idle

def finish (s : Writers T) (t : T) (submits : Bool) : Writers T :=
  let remaining := (s.writer t).cursor
  if remaining > 0 then s.seal_and_advance t submits (s.writer t) remaining .finish
  else s.drain t (s.writer t)

/-- `submit_and_wait` returns: with an error, or once the completions it waits for are there. -/
def resume (s : Writers T) (t : T) (ok : Bool) : Option (Writers T) :=
  let w := s.writer t
  match s.stage t with
  | .waits caller =>
    if ok then
      if w.ring.cq.isEmpty then none else w.reap_all.map fun w => s.wait t w caller
    else some (s.set t w .failed)
  | .drains =>
    if ok then
      if w.pending.toNat ≤ w.ring.cq.length then
        w.reap_all.map fun w => s.ends t w
      else none
    else some (s.set t w .failed)
  | _ => none

/-- No entry links or drains. -/
def order : Submission.Ordering WriteEntry := { links := fun _ => false, drains := fun _ => false }

/-- The kernel starts a write, or has transferred `result` bytes of it. -/
def serve (s : Writers T) (t : T) (a : Serve) : Option (Writers T) :=
  let w := s.writer t
  match a with
  | .start i =>
    (w.ring.serve order (.start i)).map fun ring => { s with writer := Function.update s.writer t { w with ring } }
  | .complete i result =>
    match w.ring.log[i]? with
    | some p =>
      if result ≤ p.entry.len.toNat then
        (w.ring.serve order (.complete i result)).map fun ring =>
          let range : Extent := { start := p.entry.offset.toNat, len := result.toNat }
          { s with
            writer := Function.update s.writer t { w with ring }
            file := fill s.file (w.slots p.entry.buf).buf range
            file_len := if 0 < result then max s.file_len range.stop else s.file_len }
      else none
    | none => none

def step (s : Writers T) : Action T → Option (Writers T)
  | .append t payload submits =>
    if (s.stage t).ready then
      some ({ s with appended := Function.update s.appended t (s.appended t ++ [payload]) }.append t submits payload)
    else none
  | .flush t submits => if (s.stage t).ready then some (s.flush t submits) else none
  | .finish t submits => if (s.stage t).ready then some (s.finish t submits) else none
  | .resume t ok => s.resume t ok
  | .serve t a => s.serve t a

end Writers

end FlushRing
