import FlushRing.Ring
import FlushRing.Transition

namespace FlushRing

/-- The `fdatasync` entry of `sync_data`. -/
def Sqe.fsync {L : Nat} : Sqe L :=
  { opcode := .Fsync, offset := 0, flags := .IO_DRAIN, user_data := none, filling := 0 }

/-- The entry of `QuikIO::read`: the range widened to whole pages, with no user data. -/
def Sqe.read {L : Nat} (len offset : Usize) : Sqe L :=
  let aligned_offset := offset &&& ~~~(FOUR_KB_BLOCK - 1)
  let delta := offset - aligned_offset
  { opcode := .Read ((next_multiple_of (len + delta) FOUR_KB_BLOCK).setWidth 32),
    offset := aligned_offset, flags := .empty, user_data := none, filling := 0 }

/-- Where the client's only thread stands: between calls, or in one that works through completions or
waits for the kernel. A wait is part of `f_sync` on a buffer, or a call of its own. -/
inductive Stage (L : Nat) where
  | between
  -- BufferRing::check_cque, with the completions it has drained and still has to handle
  | polling (cqes : List (Cqe L))
  -- QuikIO::wait_for_all, before it drains and before it looks at the queues
  | waiting (caller : Option (Fin L))
  | testing (caller : Option (Fin L))
  -- QuikIO::sync_data, before it pushes its entry and while submit_and_wait(1) blocks
  | syncing (caller : Option (Fin L))
  | synced (caller : Option (Fin L))
  -- QuikIO::read, while submit_and_wait(1) blocks
  | reading
  -- the expect of f_sync has failed
  | panicked

/-- Where a finished `wait_for_all` leaves: `f_sync` goes on with `sync_data`, whatever the result. -/
def Stage.waited {L : Nat} : Option (Fin L) → Stage L
  | some b => .syncing (some b)
  | none => .between

/-- Where a failed `sync_data` leaves: `f_sync` expects it to succeed. -/
def Stage.failed {L : Nat} : Option (Fin L) → Stage L
  | some _ => .panicked
  | none => .between

/-- History of the completions taken off the queue: all of them, those of a buffer some `f_sync` on it
has taken so far, and those that led to a reset of their buffer or to a resubmission of its write. -/
structure Fates (L : Nat) where
  taken : List (Cqe L)
  awaiting : List (Cqe L)
  reset : List (Cqe L)
  resubmitted : List (Cqe L)

/-- A ring used from one thread. `calls` are the reservations whose results the client still has to
hand to `put`. -/
structure Client (L : Nat) where
  mem : BufferRing L
  calls : List (PutCall L)
  stage : Stage L
  fates : Fates L

namespace Client
variable {L : Nat}

/-- What the client does next, or the kernel. `reserve_space` takes whatever reference `current_buffer`
has ever returned; `resume` lets the running call go on; `ok` is the outcome of a `submit`. -/
inductive Action (L : Nat) where
  | reserve_space (buffer : Fin L) (payload : Slice)
  | put (i : Nat) (ok : Bool)
  | flush (buffer : Fin L) (ok : Bool)
  | flush_current (ok : Bool)
  | check_cque
  | f_sync (buffer : Fin L) (ok : Bool)
  | wait_for_all
  | sync_data
  | read (len offset : Usize) (ok : Bool)
  | resume (ok : Bool)
  | complete (i : Nat) (result : Int)

def init (mem : BufferRing L) : Client L :=
  { mem, calls := [], stage := .between,
    fates := { taken := [], awaiting := [], reset := [], resubmitted := [] } }

/-- `reserve_space` on a buffer of the ring; a payload of more than one megabyte panics. -/
def reserve_space (s : Client L) (buffer : Fin L) (payload : Slice) : Option (Client L) :=
  match (s.mem.ring buffer).reserve_space payload.len with
  | some (reserve_result, after) =>
    some { s with
      mem := s.mem.modify buffer fun _ => after
      calls := s.calls ++ [{ current := buffer, reserve_result, payload }] }
  | none => none

/-- `put` with the `i`-th reservation result the client holds. -/
def put (options : BufferRingOptions) (ok : Bool) (s : Client L) (i : Nat) : Option (Client L) :=
  match s.calls[i]? with
  | some call =>
    some { s with
      mem := (s.mem.put options ok call.current call.reserve_result call.payload).2
      calls := s.calls.eraseIdx i }
  | none => none

/-- `f_sync` up to `wait_for_all`: it sets the flush bit and submits as `flush` does. -/
def f_sync (options : BufferRingOptions) (ok : Bool) (s : Client L) (buffer : Fin L) : Client L :=
  { s with
    mem := s.mem.flush options ok buffer
    stage := if options.io_instance.isSome then .waiting (some buffer) else .between }

/-- `read` up to its wait; a full queue or a failed submit returns an error. -/
def read (ok : Bool) (s : Client L) (len offset : Usize) : Client L :=
  match s.mem.io.push (Sqe.read len offset) with
  | some io =>
    { s with mem := { s.mem with io := io.submit ok }, stage := if ok then .reading else .between }
  | none => s

/-- `cqe`, on behalf of a call that goes on from `stage`. -/
def drain (s : Client L) (stage : List (Cqe L) → Stage L) : Client L :=
  { s with
    mem := { s.mem with io := s.mem.io.drain.2 }
    stage := stage s.mem.io.drain.1
    fates := { s.fates with taken := s.fates.taken ++ s.mem.io.drain.1 } }

/-- The body of the loop of `check_cque`, with its history. -/
def handle (options : BufferRingOptions) (ok : Bool) (s : Client L) (cqe : Cqe L)
    (rest : List (Cqe L)) : Client L :=
  { s with
    mem := s.mem.handle_cqe options ok cqe
    stage := .polling rest
    fates :=
      match cqe.user_data with
      | none => s.fates
      | some buffer =>
        if cqe.result < 0 then
          if s.mem.resubmits buffer then
            { s.fates with resubmitted := s.fates.resubmitted ++ [cqe] }
          else s.fates
        else { s.fates with reset := s.fates.reset ++ [cqe] } }

/-- The first half of an iteration of `wait_for_all`. -/
def wait (s : Client L) (caller : Option (Fin L)) : Client L :=
  let after := s.drain fun cqes =>
    if cqes.any (·.result < 0) then .waited caller else .testing caller
  { after with
    fates := { after.fates with
      awaiting := s.fates.awaiting ++
        s.mem.io.cq.filter fun cqe => cqe.user_data.isSome && cqe.user_data == caller } }

/-- The running call goes on. -/
def resume (options : BufferRingOptions) (ok : Bool) (s : Client L) : Option (Client L) :=
  match s.stage with
  | .between => none
  | .polling [] => some (s.drain fun cqes => if cqes.isEmpty then .between else .polling cqes)
  | .polling (cqe :: rest) => some (s.handle options ok cqe rest)
  | .waiting caller => some (s.wait caller)
  | .testing caller =>
    some { s with
      stage :=
        if s.mem.io.sq.isEmpty && s.mem.io.cq.isEmpty then .waited caller else .waiting caller }
  | .syncing caller =>
    match s.mem.io.push Sqe.fsync with
    | some io =>
      some { s with
        mem := { s.mem with io := io.submit ok }
        stage := if ok then .synced caller else .failed caller }
    | none => some { s with stage := .failed caller }
  | .synced caller =>
    if s.mem.io.cq.isEmpty then none
    else
      match caller with
      | some b =>
        some { s with
          mem := s.mem.reset_buffer b
          stage := .between
          fates := { s.fates with awaiting := [], reset := s.fates.reset ++ s.fates.awaiting } }
      | none => some { s with stage := .between }
  | .reading =>
    match s.mem.io.cq with
    | [] => none
    | cqe :: rest =>
      some { s with
        mem := { s.mem with io := { s.mem.io with cq := rest } }
        stage := .between
        fates := { s.fates with taken := s.fates.taken ++ [cqe] } }
  | .panicked => none

def step (options : BufferRingOptions) (s : Client L) : Action L → Option (Client L)
  | .complete i result => (s.mem.complete i result).map fun mem => { s with mem }
  | .resume ok => s.resume options ok
  | action =>
    match s.stage, action with
    | .between, .reserve_space buffer payload => s.reserve_space buffer payload
    | .between, .put i ok => s.put options ok i
    | .between, .flush buffer ok => some { s with mem := s.mem.flush options ok buffer }
    | .between, .flush_current ok => some { s with mem := (s.mem.flush_current options ok).2 }
    | .between, .check_cque => options.io_instance.map fun _ => { s with stage := .polling [] }
    | .between, .f_sync buffer ok => some (s.f_sync options ok buffer)
    | .between, .wait_for_all => options.io_instance.map fun _ => { s with stage := .waiting none }
    | .between, .sync_data => options.io_instance.map fun _ => { s with stage := .syncing none }
    | .between, .read len offset ok => options.io_instance.map fun _ => s.read ok len offset
    | _, _ => none

end Client

end FlushRing
