import FlushRing.Word

namespace FlushRing

/-! The buffers of a small ring, and the threads of a small group, are written as numerals. -/

instance one_neZero : NeZero 1 := ⟨Nat.one_ne_zero⟩

instance two_neZero : NeZero 2 := ⟨Nat.succ_ne_zero 1⟩

instance three_neZero : NeZero 3 := ⟨Nat.succ_ne_zero 2⟩

instance nine_neZero : NeZero 9 := ⟨Nat.succ_ne_zero 8⟩

/-- `io_uring` operations this crate builds. `Write` names the buffer whose memory the kernel reads;
lengths are the `u32` the entry carries. -/
inductive Opcode (L : Nat) where
  | Write (buffer : Fin L) (len : BitVec 32)
  | Read (len : BitVec 32)
  | Fsync
  deriving DecidableEq

inductive Flags where
  | empty
  | IO_LINK
  | IO_DRAIN
  deriving DecidableEq

/-- A submission-queue entry. `user_data` is the buffer's address, `none` for the value 0.
`filling` is history: the filling of the buffer the entry was built for. -/
structure Sqe (L : Nat) where
  opcode : Opcode L
  offset : Usize
  flags : Flags
  user_data : Option (Fin L)
  filling : Nat
  deriving DecidableEq

/-- A completion-queue entry, with the submission it answers. -/
structure Cqe (L : Nat) where
  entry : Sqe L
  result : Int

def Cqe.user_data {L : Nat} (c : Cqe L) : Option (Fin L) := c.entry.user_data

/-- Number of bytes an entry asks for. -/
def Sqe.len {L : Nat} (e : Sqe L) : Nat :=
  match e.opcode with
  | .Write _ len => len.toNat
  | .Read len => len.toNat
  | .Fsync => 0

/-- History of a completion: the entry, its result and the file it left. -/
structure Completion (L : Nat) where
  cqe : Cqe L
  file : Nat → UInt8

/-- The shared `IoUring`: entries pushed but not submitted, entries the kernel holds, completions
nobody has read. `pushed` and `completed` are history. -/
structure IoUring (L : Nat) where
  sq : List (Sqe L)
  kernel : List (Sqe L)
  cq : List (Cqe L)
  pushed : List (Sqe L)
  completed : List (Completion L)

/-- `IoUring::new(8)`. -/
def SQ_ENTRIES : Nat := 8

namespace IoUring
variable {L : Nat}

def new : IoUring L := { sq := [], kernel := [], cq := [], pushed := [], completed := [] }

/-- `submission().push`, refused when the queue is full. -/
def push (io : IoUring L) (sqe : Sqe L) : Option (IoUring L) :=
  if io.sq.length < SQ_ENTRIES then
    some { io with sq := io.sq ++ [sqe], pushed := io.pushed ++ [sqe] }
  else none

/-- `submit`: hands every queued entry to the kernel, or fails and leaves them queued. -/
def submit (io : IoUring L) (ok : Bool) : IoUring L :=
  if ok then { io with sq := [], kernel := io.kernel ++ io.sq } else io

/-- `cqe`: takes every completion that is waiting. -/
def drain (io : IoUring L) : List (Cqe L) × IoUring L := (io.cq, { io with cq := [] })

/-- The kernel answers the `i`-th entry it holds. -/
def finish (io : IoUring L) (i : Nat) (completion : Completion L) : IoUring L :=
  { io with
    kernel := io.kernel.eraseIdx i
    cq := io.cq ++ [completion.cqe]
    completed := io.completed ++ [completion] }

/-- Entries that are queued, in the kernel, or completed and unread. -/
def entries (io : IoUring L) : List (Sqe L) := io.sq ++ io.kernel ++ io.cq.map Cqe.entry

/-- How many of them belong to one buffer. -/
def inFlight (io : IoUring L) (b : Fin L) : Nat := io.entries.countP (·.user_data = some b)

/-- A push that finds room appends the entry. -/
theorem push_eq_some {io io' : IoUring L} {sqe : Sqe L} (h : io.push sqe = some io') :
    io.sq.length < SQ_ENTRIES ∧
      io' = { io with sq := io.sq ++ [sqe], pushed := io.pushed ++ [sqe] } := by
  unfold push at h
  split at h
  next hroom => exact ⟨hroom, (Option.some.inj h).symm⟩
  next => cases h

/-- A push is refused by a full queue only. -/
theorem push_eq_none {io : IoUring L} {sqe : Sqe L} (h : io.push sqe = none) :
    SQ_ENTRIES ≤ io.sq.length := by
  unfold push at h
  split at h
  next => cases h
  next hfull => exact Nat.not_lt.mp hfull

section Submit
variable (io : IoUring L) (ok : Bool)

/-- A submit touches neither the completions nor the histories. -/
@[simp] theorem submit_cq : (io.submit ok).cq = io.cq := by
  cases ok <;> rfl

@[simp] theorem submit_pushed : (io.submit ok).pushed = io.pushed := by
  cases ok <;> rfl

@[simp] theorem submit_completed : (io.submit ok).completed = io.completed := by
  cases ok <;> rfl

end Submit

/-- A pushed entry is in flight from then on. -/
theorem entries_push {io io' : IoUring L} {sqe : Sqe L} (h : io.push sqe = some io') :
    io'.entries.Perm (sqe :: io.entries) := by
  obtain ⟨_, rfl⟩ := push_eq_some h
  simp only [entries, List.append_assoc, List.singleton_append]
  exact List.perm_middle

/-- Handing entries over keeps them in flight. -/
theorem entries_submit (io : IoUring L) (ok : Bool) : (io.submit ok).entries.Perm io.entries := by
  cases ok with
  | false => exact .refl _
  | true =>
    simp only [submit, entries, if_true, List.nil_append]
    exact List.perm_append_comm.append_right _

/-- The entries of the completions that are read are in flight no more. -/
theorem entries_drain (io : IoUring L) :
    (io.drain.1.map Cqe.entry ++ io.drain.2.entries).Perm io.entries := by
  simp only [drain, entries, List.map_nil, List.append_nil]
  exact List.perm_append_comm

/-- A completed entry is in flight until its completion is read. -/
theorem entries_finish {io : IoUring L} {i : Nat} {c : Completion L}
    (h : io.kernel[i]? = some c.cqe.entry) : (io.finish i c).entries.Perm io.entries := by
  obtain ⟨hi, hget⟩ := List.getElem?_eq_some_iff.mp h
  have hkernel : (c.cqe.entry :: io.kernel.eraseIdx i).Perm io.kernel := by
    rw [← hget]
    exact List.getElem_cons_eraseIdx_perm hi
  simp only [finish, entries, List.map_append, List.map_cons, List.map_nil]
  rw [← List.append_assoc]
  refine List.perm_append_comm.trans ?_
  rw [List.singleton_append, List.append_assoc, ← List.cons_append]
  refine List.Perm.trans List.perm_middle.symm ?_
  rw [← List.cons_append, List.append_assoc]
  exact (hkernel.append_right _).append_left _

end IoUring

inductive WriteMode where
  | TailLocalizedWrites
  | SerializedWrites

/-- The immutable part of `BackingStore`; its ring and its file are shared and live in the state. -/
structure BackingStore where
  mode : WriteMode

inductive QuikIO where
  | Searalized (store : BackingStore)
  | TailLocalized (store : BackingStore)

namespace QuikIO

def link : QuikIO := .Searalized { mode := .SerializedWrites }

def new : QuikIO := .TailLocalized { mode := .TailLocalizedWrites }

def get_backing_store : QuikIO → BackingStore
  | .Searalized store => store
  | .TailLocalized store => store

end QuikIO

def WriteMode.flags : WriteMode → Flags
  | .TailLocalizedWrites => .empty
  | .SerializedWrites => .IO_LINK

/-- `BackingStore::submit`: builds the write entry, pushes it and stores it in `submit_entry`, then
submits. A full queue returns before `submit_entry` is written. -/
def BackingStore.submit {L : Nat} (store : BackingStore) (ok : Bool) (io : IoUring L)
    (submit_entry : Option (Sqe L)) (data_len at_ : Usize) (buffer_ptr : Fin L) (filling : Nat) :
    IoUring L × Option (Sqe L) :=
  let sqe : Sqe L :=
    { opcode := .Write buffer_ptr (data_len.setWidth 32), offset := at_,
      flags := store.mode.flags, user_data := some buffer_ptr, filling }
  match io.push sqe with
  | none => (io, submit_entry)
  | some io => (io.submit ok, some sqe)

end FlushRing
