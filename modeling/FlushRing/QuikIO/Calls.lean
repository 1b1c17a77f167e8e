import FlushRing.QuikIO.Read
import FlushRing.Submission

open Submission

namespace FlushRing

variable {L : Nat}

/-- What the flags of an entry ask of the kernel. -/
def Sqe.order : Ordering (Sqe L) where
  links e := e.flags = .IO_LINK
  drains e := e.flags = .IO_DRAIN

def Sqe.isWrite (e : Sqe L) : Bool :=
  match e.opcode with
  | .Write _ _ => true
  | _ => false

namespace QuikIO

/-- Where a thread stands in a call that waits for the kernel. -/
inductive Call where
  -- sync_data, before it pushes its entry, and in submit_and_wait(1)
  | sync_data
  | syncing
  -- wait_for_all, before it drains, and before it looks at the two queues
  | wait_for_all
  | testing
  -- read, before it pushes its entry, and in submit_and_wait(1)
  | read (len offset : Usize)
  | reading (len offset : Usize)
  | returned (result : Except IoError Unit)

/-- The stage of a client in the same call; a `read` that has not pushed its entry has not begun. -/
def Call.stage : Call → Stage L
  | .sync_data => .syncing none
  | .syncing => .synced none
  | .wait_for_all => .waiting none
  | .testing => .testing none
  | .read _ _ => .between
  | .reading _ _ => .reading
  | .returned _ => .between

/-- The shared `IoUring` with the order its entries came in, and a thread in a call. `taken` are the
completions the call has taken off the queue. -/
structure Caller (L : Nat) where
  io : Queues (Sqe L)
  call : Call
  taken : List (Submission.Completion (Sqe L))

namespace Caller

/-- The kernel, or the call going on; `ok` is the outcome of a submit. -/
inductive Action where
  | serve (a : Serve)
  | resume (ok : Bool)

def start (io : Queues (Sqe L)) (call : Call) : Caller L := { io, call, taken := [] }

/-- `push` of an entry and `submit_and_wait(1)`, up to the wait. -/
def submit_and_wait (c : Caller L) (ok : Bool) (sqe : Sqe L) (full : String) (next : Call) : Caller L :=
  match c.io.push SQ_ENTRIES sqe with
  | none => { c with call := .returned (.error (.other full)) }
  | some io =>
    if ok then { c with io := io.submit, call := next }
    else { c with io, call := .returned (.error .submit) }

def resume (ok : Bool) (c : Caller L) : Option (Caller L) :=
  match c.call with
  | .sync_data => some (c.submit_and_wait ok Sqe.fsync "SQ full" .syncing)
  | .syncing => if c.io.cq.isEmpty then none else some { c with call := .returned (.ok ()) }
  | .wait_for_all =>
    let (cqes, io) := c.io.drain
    some { io
           call :=
             match cqes.find? (·.result < 0) with
             | some cqe => .returned (.error (.from_raw_os_error (-cqe.result)))
             | none => .testing
           taken := c.taken ++ cqes }
  | .testing =>
    some { c with
      call := if c.io.sq.isEmpty && c.io.cq.isEmpty then .returned (.ok ()) else .wait_for_all }
  | .read len offset =>
    if layout_ok (aligned_len len offset) then
      some (c.submit_and_wait ok (Sqe.read len offset) "submission queue full" (.reading len offset))
    else none
  | .reading _ _ =>
    match c.io.cq with
    | [] => none
    | cqe :: rest =>
      some { io := { c.io with cq := rest }
             call := .returned (read_result cqe.result)
             taken := c.taken ++ [cqe] }
  | .returned _ => none

def step (c : Caller L) : Action → Option (Caller L)
  | .serve a => (c.io.serve Sqe.order a).map fun io => { c with io }
  | .resume ok => c.resume ok

/-- What a call does when it goes on, by where it stands. -/
inductive Resumes (ok : Bool) (c : Caller L) : Call → Caller L → Prop where
  | syncs : Resumes ok c .sync_data (c.submit_and_wait ok Sqe.fsync "SQ full" .syncing)
  | synced (h : c.io.cq ≠ []) : Resumes ok c .syncing { c with call := .returned (.ok ()) }
  | drains_error {d : Submission.Completion (Sqe L)} (h : c.io.cq.find? (·.result < 0) = some d) :
      Resumes ok c .wait_for_all
        { io := { c.io with cq := [] }
          call := .returned (.error (.from_raw_os_error (-d.result)))
          taken := c.taken ++ c.io.cq }
  | drains (h : c.io.cq.find? (·.result < 0) = none) :
      Resumes ok c .wait_for_all
        { io := { c.io with cq := [] }, call := .testing, taken := c.taken ++ c.io.cq }
  | tests_empty (hsq : c.io.sq = []) (hcq : c.io.cq = []) :
      Resumes ok c .testing { c with call := .returned (.ok ()) }
  | tests_busy (h : ¬ (c.io.sq = [] ∧ c.io.cq = [])) :
      Resumes ok c .testing { c with call := .wait_for_all }
  | reads {len offset : Usize} (h : layout_ok (aligned_len len offset) = true) :
      Resumes ok c (.read len offset)
        (c.submit_and_wait ok (Sqe.read len offset) "submission queue full" (.reading len offset))
  | takes {len offset : Usize} {d : Submission.Completion (Sqe L)}
      {rest : List (Submission.Completion (Sqe L))} (h : c.io.cq = d :: rest) :
      Resumes ok c (.reading len offset)
        { io := { c.io with cq := rest }, call := .returned (read_result d.result)
          taken := c.taken ++ [d] }

theorem resume_resumes {ok : Bool} {c c' : Caller L} (h : c.resume ok = some c') :
    Resumes ok c c.call c' := by
  unfold resume at h
  split at h
  next hcall =>
    obtain rfl := Option.some.inj h
    rw [hcall]
    exact .syncs
  next hcall =>
    rw [hcall]
    split at h
    next => cases h
    next hready =>
      obtain rfl := Option.some.inj h
      rw [List.isEmpty_iff] at hready
      exact .synced hready
  next hcall =>
    obtain rfl := Option.some.inj h
    rw [hcall]
    cases hfind : c.io.cq.find? (·.result < 0) with
    | some d => exact .drains_error hfind
    | none => exact .drains hfind
  next hcall =>
    obtain rfl := Option.some.inj h
    rw [hcall]
    split
    next hempty =>
      rw [Bool.and_eq_true, List.isEmpty_iff, List.isEmpty_iff] at hempty
      exact .tests_empty hempty.1 hempty.2
    next hbusy =>
      rw [Bool.and_eq_true, List.isEmpty_iff, List.isEmpty_iff] at hbusy
      exact .tests_busy hbusy
  next hcall =>
    rw [hcall]
    split at h
    next hlayout =>
      obtain rfl := Option.some.inj h
      exact .reads hlayout
    next => cases h
  next hcall =>
    rw [hcall]
    split at h
    next => cases h
    next hcq =>
      obtain rfl := Option.some.inj h
      exact .takes hcq
  next => cases h

/-! The same calls as a client makes them, which does not see the order of the entries. -/

/-- An `IoUring` with the same entries queued, in the kernel and unread. -/
structure Forgets (q : Queues (Sqe L)) (io : IoUring L) : Prop where
  sq : io.sq = q.sq
  kernel : io.kernel = (q.log.filter (·.progress.result.isNone)).map Handed.entry
  cq : io.cq = q.cq.map fun c => { entry := c.entry, result := c.result }

namespace Forgets
variable {q q' : Queues (Sqe L)} {io : IoUring L}

/-- A push does the same on both kinds of queues. -/
theorem push (h : Forgets q io) (sqe : Sqe L) :
    (q.push SQ_ENTRIES sqe = none ∧ io.push sqe = none) ∨
      ∃ q' io', q.push SQ_ENTRIES sqe = some q' ∧ io.push sqe = some io' ∧ Forgets q' io' := by
  unfold Queues.push IoUring.push
  rw [h.sq]
  split
  next => exact .inr ⟨_, _, rfl, rfl, rfl, h.kernel, h.cq⟩
  next => exact .inl ⟨rfl, rfl⟩

theorem submit (h : Forgets q io) : Forgets q.submit (io.submit true) where
  sq := rfl
  kernel := by
    have hfresh : (q.sq.map fun entry => ({ entry, batch := q.log.length, progress := .waiting } : Handed (Sqe L))).filter
        (·.progress.result.isNone) =
        q.sq.map fun entry => { entry, batch := q.log.length, progress := .waiting } := by
      rw [List.filter_eq_self]
      intro p hp
      obtain ⟨e, _, rfl⟩ := List.mem_map.mp hp
      rfl
    simp only [IoUring.submit, Queues.submit, if_true, List.filter_append, hfresh, List.map_append, List.map_map, h.kernel, h.sq]
    congr 1
    exact (List.map_id _).symm
  cq := h.cq

theorem drain (h : Forgets q io) :
    io.drain.1 = q.drain.1.map (fun c => { entry := c.entry, result := c.result }) ∧
      Forgets q.drain.2 io.drain.2 := ⟨h.cq, h.sq, h.kernel, rfl⟩

theorem split_log {i : Nat} {p : Handed (Sqe L)} (hp : q.log[i]? = some p) :
    ∃ before after, q.log = before ++ p :: after ∧ before.length = i := by
  obtain ⟨hi, rfl⟩ := List.getElem?_eq_some_iff.mp hp
  refine ⟨q.log.take i, q.log.drop (i + 1), ?_, List.length_take_of_le (Nat.le_of_lt hi)⟩
  rw [← List.drop_eq_getElem_cons hi, List.take_append_drop]

/-- An entry that starts stays with the kernel. -/
theorem started (h : Forgets q io) {i : Nat} (hserve : q.serve Sqe.order (.start i) = some q') : Forgets q' io := by
  obtain ⟨p, hp, hwaiting, _, rfl⟩ := Queues.serve_start hserve
  refine ⟨h.sq, ?_, h.cq⟩
  obtain ⟨before, after, hlog, rfl⟩ := split_log hp
  rw [h.kernel, hlog]
  simp [hwaiting, Progress.result]

/-- An entry that completes leaves the kernel for the completion queue. -/
theorem completed (h : Forgets q io) {i : Nat} {r : Int}
    (hserve : q.serve Sqe.order (.complete i r) = some q') :
    ∃ p k, q.log[i]? = some p ∧ io.kernel[k]? = some p.entry ∧
      ∀ file, Forgets q' (io.finish k { cqe := { entry := p.entry, result := r }, file }) := by
  obtain ⟨p, hp, hrunning, rfl⟩ := Queues.serve_complete hserve
  obtain ⟨before, after, hlog, hbefore⟩ := split_log hp
  have hkernel : io.kernel = (before.filter (·.progress.result.isNone)).map Handed.entry ++
      p.entry :: (after.filter (·.progress.result.isNone)).map Handed.entry := by
    rw [h.kernel, hlog]
    simp [hrunning, Progress.result]
  refine ⟨p, ((before.filter (·.progress.result.isNone)).map Handed.entry).length, hp, ?_, fun file => ?_⟩
  · rw [hkernel, List.getElem?_append_right (Nat.le_refl _), Nat.sub_self]
    rfl
  · refine ⟨h.sq, ?_, ?_⟩
    · subst hbefore
      simp only [IoUring.finish, hkernel, hlog]
      rw [List.eraseIdx_append_of_length_le (Nat.le_refl _), Nat.sub_self]
      simp [Progress.result]
    · simp only [IoUring.finish, h.cq, List.map_append, List.map_cons, List.map_nil]

end Forgets

/-- A client in the same call over the same entries. -/
structure Refines (c : Caller L) (s : Client L) : Prop where
  io : Forgets c.io s.mem.io
  stage : s.stage = c.call.stage

/-- The client takes each step of the kernel, and does not see an entry start. -/
theorem Refines.serve {options : BufferRingOptions} {c c' : Caller L} {s : Client L} {a : Serve}
    (h : Refines c s) (hstep : c.step (.serve a) = some c')
    (hlen : ∀ i r p, a = .complete i r → c.io.log[i]? = some p → r ≤ p.entry.len) :
    Refines c' s ∨ ∃ k r s', s.step options (.complete k r) = some s' ∧ Refines c' s' := by
  obtain ⟨io, hserve, rfl⟩ := Option.map_eq_some_iff.mp hstep
  cases a with
  | start i => exact .inl ⟨h.io.started hserve, h.stage⟩
  | complete i r =>
    obtain ⟨p, k, hp, hk, hfinish⟩ := h.io.completed hserve
    have hcomplete : s.mem.complete k r = some { s.mem with
        file := s.mem.fileAfter p.entry r
        io := s.mem.io.finish k { cqe := { entry := p.entry, result := r }, file := s.mem.fileAfter p.entry r } } := by
      simp only [BufferRing.complete, hk, hlen i r p rfl hp, if_true]
    refine .inr ⟨k, r, _, congrArg (Option.map _) hcomplete, ?_⟩
    exact ⟨hfinish _, h.stage⟩

/-- The client takes each step of the call. -/
theorem Refines.resume {options : BufferRingOptions} {store : QuikIO} (hstore : options.io_instance = some store)
    {c c' : Caller L} {s : Client L} {ok : Bool} (h : Refines c s) (hstep : c.step (.resume ok) = some c') :
    ∃ a s', s.step options a = some s' ∧ Refines c' s' := by
  obtain ⟨hio, hstage⟩ := h
  have hresumes := resume_resumes hstep
  generalize c.call = call at hstage hresumes
  cases hresumes with
  | syncs =>
    refine ⟨.resume ok, ?_⟩
    simp only [Client.step, Client.resume, hstage, Call.stage, submit_and_wait]
    obtain ⟨hfull, hfull'⟩ | ⟨q, io, hpush, hpush', hforgets⟩ := hio.push Sqe.fsync
    · rw [hfull, hfull']
      exact ⟨_, rfl, hio, rfl⟩
    · rw [hpush, hpush']
      cases ok with
      | true => exact ⟨_, rfl, hforgets.submit, rfl⟩
      | false => exact ⟨_, rfl, hforgets, rfl⟩
  | synced hready =>
    refine ⟨.resume ok, { s with stage := .between }, ?_, hio, rfl⟩
    simp only [Client.step, Client.resume, hstage, Call.stage, hio.cq, List.isEmpty_map,
      List.isEmpty_iff, hready, if_false]
  | drains_error hfind | drains hfind =>
    obtain ⟨hcqes, hforgets⟩ := hio.drain
    have hany : s.mem.io.drain.1.any (·.result < 0) = (c.io.cq.find? (·.result < 0)).isSome := by
      rw [hcqes, List.any_map, List.isSome_find?]
      rfl
    refine ⟨.resume ok, s.wait none, ?_, hforgets, ?_⟩
    · simp only [Client.step, Client.resume, hstage, Call.stage]
    · simp only [Client.wait, Client.drain, hany, hfind]
      rfl
  | tests_empty hsq hcq =>
    refine ⟨.resume ok, ?_⟩
    simp only [Client.step, Client.resume, hstage, Call.stage, hio.sq, hio.cq, hsq, hcq, List.map_nil,
      List.isEmpty_nil, Bool.and_self, if_true]
    exact ⟨_, rfl, hio, rfl⟩
  | tests_busy hbusy =>
    rw [← List.isEmpty_iff, ← List.isEmpty_iff, ← Bool.and_eq_true] at hbusy
    refine ⟨.resume ok, ?_⟩
    simp only [Client.step, Client.resume, hstage, Call.stage, hio.sq, hio.cq, List.isEmpty_map, hbusy]
    exact ⟨_, rfl, hio, rfl⟩
  | @reads len offset hlayout =>
    refine ⟨.read len offset ok, ?_⟩
    simp only [Client.step, hstage, Call.stage, hstore, Option.map_some, Client.read, submit_and_wait]
    obtain ⟨hfull, hfull'⟩ | ⟨q, io, hpush, hpush', hforgets⟩ := hio.push (Sqe.read len offset)
    · rw [hfull, hfull']
      exact ⟨_, rfl, hio, hstage⟩
    · rw [hpush, hpush']
      cases ok with
      | true => exact ⟨_, rfl, hforgets.submit, rfl⟩
      | false => exact ⟨_, rfl, hforgets, rfl⟩
  | takes hcq =>
    refine ⟨.resume ok, ?_⟩
    have hcq' := hio.cq
    rw [hcq, List.map_cons] at hcq'
    simp only [Client.step, Client.resume, hstage, Call.stage, hcq']
    exact ⟨_, rfl, ⟨hio.sq, hio.kernel, rfl⟩, rfl⟩

end Caller

end QuikIO

end FlushRing
