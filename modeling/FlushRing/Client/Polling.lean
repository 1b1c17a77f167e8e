import FlushRing.Client.Completions

open Transition

namespace FlushRing

variable {L : Nat}

open BufferRing

/-- A step of the running call or of the kernel: no thread starts another call. -/
def Client.alone : Client.Action L → Bool
  | .resume _ => true
  | .complete _ _ => true
  | _ => false

def Client.resumes : Client.Action L → Bool
  | .resume _ => true
  | _ => false

/-- The kernel completes an entry with an error. -/
def Client.fails : Client.Action L → Bool
  | .complete _ result => result < 0
  | _ => false

@[simp] theorem Client.alone_resume (ok : Bool) : alone (.resume ok : Action L) = true := rfl

@[simp] theorem Client.alone_complete (i : Nat) (result : Int) : alone (.complete i result : Action L) = true := rfl

/-- How many of the completions carry an error. -/
def failed (cqes : List (Cqe L)) : Nat := cqes.countP (·.result < 0)

theorem failed_nil : failed ([] : List (Cqe L)) = 0 := rfl

theorem failed_cons (cqe : Cqe L) (rest : List (Cqe L)) :
    failed (cqe :: rest) = (if cqe.result < 0 then 1 else 0) + failed rest := by
  rw [failed, List.countP_cons, Nat.add_comm]
  simp only [decide_eq_true_eq]
  rfl

theorem failed_append (cqes rest : List (Cqe L)) : failed (cqes ++ rest) = failed cqes + failed rest :=
  List.countP_append

namespace BufferRing

/-- A retry queues one entry at most and reads no completion. -/
theorem retry_entries (mem : BufferRing L) (ok : Bool) (b : Fin L) :
    (mem.retry ok b).io.entries.length ≤ mem.io.entries.length + 1 := by
  unfold retry
  split
  next sqe _ =>
    rw [(IoUring.entries_submit _ ok).length_eq]
    cases hpush : mem.io.push sqe with
    | none => exact Nat.le_succ _
    | some io => exact Nat.le_of_eq (IoUring.entries_push hpush).length_eq
  next => exact Nat.le_succ _

/-- Handling a completion puts an entry in flight only if it failed. -/
theorem handle_cqe_entries (options : BufferRingOptions) (ok : Bool) (mem : BufferRing L) (cqe : Cqe L) :
    (mem.handle_cqe options ok cqe).io.entries.length ≤
        mem.io.entries.length + (if cqe.result < 0 then 1 else 0) ∧
      (mem.handle_cqe options ok cqe).io.cq = mem.io.cq := by
  unfold handle_cqe
  cases cqe.user_data with
  | none => exact ⟨Nat.le_add_right _ _, rfl⟩
  | some b =>
    simp only
    split
    next => exact ⟨retry_entries mem ok b, (Client.retry_grows mem ok b).2.2⟩
    next =>
      have hio : ((mem.report options b).reset_buffer b).io = mem.io := report_io options mem b
      refine ⟨?_, ?_⟩
      · exact Nat.le_of_eq (congrArg (fun io : IoUring L => io.entries.length) hio)
      · exact congrArg IoUring.cq hio

end BufferRing

namespace Client

/-- An iteration of the loop of `check_cque` starts: the call drains the completion queue. -/
def iterates (s : Client L) (a : Action L) : Bool :=
  match s.stage, a with
  | .polling [], .resume _ => true
  | _, _ => false

/-- What the call can still be given to do: the entries under way, and once more for each completion with
an error that it has not handled. -/
def pending (s : Client L) : Nat := s.mem.io.entries.length + failed s.mem.io.cq + failed s.stage.polled

/-- The call has not returned. -/
def running (s : Client L) : Nat :=
  match s.stage with
  | .between => 0
  | _ => 1

/-- The kernel completes an entry: nothing is handled, and the completion may carry an error. -/
theorem completes_pending {options : BufferRingOptions} {s t : Client L} {i : Nat} {result : Int}
    (h : s.step options (.complete i result) = some t) :
    t.stage = s.stage ∧ t.pending = s.pending + (if result < 0 then 1 else 0) := by
  obtain ⟨mem, hmem, rfl⟩ := Option.map_eq_some_iff.mp h
  obtain ⟨e, he, _, rfl⟩ := complete_cases hmem
  refine ⟨rfl, ?_⟩
  have hentries := (IoUring.entries_finish (c := { cqe := { entry := e, result }, file := s.mem.fileAfter e result })
    he).length_eq
  simp only [pending, IoUring.finish, failed_append, failed_cons, failed_nil] at hentries ⊢
  omega

/-- A drain moves the completions out of the queue; the call returns when there are none. -/
theorem drains_pending {options : BufferRingOptions} {ok : Bool} {s t : Client L}
    (hstage : s.stage = .polling []) (h : s.step options (.resume ok) = some t) :
    t.stage = (if s.mem.io.cq.isEmpty then .between else .polling s.mem.io.cq) ∧
      t.pending + s.mem.io.cq.length = s.pending := by
  have hresume : s.step options (.resume ok) =
      some (s.drain fun cqes => if cqes.isEmpty then .between else .polling cqes) := by
    simp only [step, resume, hstage]
  obtain rfl := Option.some.inj (hresume.symm.trans h)
  refine ⟨rfl, ?_⟩
  have hentries := (IoUring.entries_drain s.mem.io).length_eq
  have hnone : s.stage.polled = [] := congrArg Stage.polled hstage
  simp only [pending, drain, Stage.polled_drained, hnone]
  simp only [IoUring.drain, List.length_append, List.length_map, failed_nil] at hentries ⊢
  omega

/-- A handled completion is gone, and an error brings back one entry at most. -/
theorem handles_pending {options : BufferRingOptions} {ok : Bool} {s t : Client L} {cqe : Cqe L}
    {rest : List (Cqe L)} (hstage : s.stage = .polling (cqe :: rest))
    (h : s.step options (.resume ok) = some t) :
    t.stage = .polling rest ∧ t.pending ≤ s.pending := by
  have hresume : s.step options (.resume ok) = some (s.handle options ok cqe rest) := by
    simp only [step, resume, hstage]
  obtain rfl := Option.some.inj (hresume.symm.trans h)
  obtain ⟨hentries, hcq⟩ := handle_cqe_entries options ok s.mem cqe
  refine ⟨rfl, ?_⟩
  simp only [pending, handle, hcq, hstage, Stage.polled, failed_cons]
  omega

/-- A measure of what `check_cque` still has to do, in which an entry under way weighs `weight`. -/
def remaining (weight : Nat) (s : Client L) : Nat :=
  weight * s.pending + (weight - 1) * s.stage.polled.length + s.running

/-- One step of `check_cque`, or of the kernel while it runs, lowers both measures. -/
theorem poll_step {options : BufferRingOptions} {s t : Client L} {a : Action L} (hpolls : s.stage.polls = true)
    (halone : alone a = true) (h : s.step options a = some t) :
    t.stage.polls = true ∧
      t.remaining 1 + (if iterates s a then 1 else 0) ≤ s.remaining 1 + (if fails a then 1 else 0) ∧
      t.remaining 2 + (if resumes a then 1 else 0) ≤ s.remaining 2 + (if fails a then 2 else 0) := by
  cases a
  case complete i result =>
    obtain ⟨hstage, hpending⟩ := completes_pending h
    have hiterates : iterates s (.complete i result) = false := by
      unfold iterates
      split
      next => contradiction
      next => rfl
    have hrunning : t.running = s.running := by
      rw [running, running, hstage]
    refine ⟨hstage ▸ hpolls, ?_⟩
    simp only [remaining, hrunning, hstage, hpending, hiterates, fails, resumes, decide_eq_true_eq,
      Bool.false_eq_true, if_false]
    split <;> omega
  case resume ok =>
    cases hstage : s.stage with
    | polling cqes =>
      cases cqes with
      | nil =>
        obtain ⟨hnext, hpending⟩ := drains_pending hstage h
        cases hcq : s.mem.io.cq with
        | nil =>
          rw [hcq, List.length_nil] at hpending
          simp [remaining, running, iterates, fails, resumes, Stage.polls, Stage.polled, hstage, hnext, hcq]
          omega
        | cons cqe rest =>
          rw [hcq, List.length_cons] at hpending
          simp [remaining, running, iterates, fails, resumes, Stage.polls, Stage.polled, hstage, hnext, hcq]
          omega
      | cons cqe rest =>
        obtain ⟨hnext, hpending⟩ := handles_pending hstage h
        simp [remaining, running, iterates, fails, resumes, Stage.polls, Stage.polled, hstage, hnext]
        omega
    | between =>
      simp only [step, resume, hstage] at h
      cases h
    | _ =>
      rw [hstage] at hpolls
      cases hpolls
  all_goals cases halone

/-- The completions with an error that a call made now can meet: those that wait to be read, and those of
the schedule. -/
def errors (s : Client L) (schedule : List (Action L)) : Nat := failed s.mem.io.cq + schedule.countP fails

/-- The credits of a schedule: one weight for each completion with an error. -/
theorem credits (weight : Nat) (schedule : List (Action L)) :
    (schedule.map fun a => if fails a then weight else 0).sum = weight * schedule.countP fails := by
  induction schedule with
  | nil => rfl
  | cons a rest ih =>
    rw [List.map_cons, List.sum_cons, ih, List.countP_cons, Nat.mul_add, Nat.add_comm]
    split <;> simp

theorem step_check_cque {options : BufferRingOptions} {s called : Client L}
    (h : s.step options .check_cque = some called) : called = { s with stage := .polling [] } := by
  cases hstage : s.stage with
  | between =>
    simp only [step, hstage] at h
    obtain ⟨_, _, rfl⟩ := Option.map_eq_some_iff.mp h
    rfl
  | _ =>
    simp only [step, hstage] at h
    cases h

/-- A call that has not returned does not wait for anything. -/
theorem resume_enabled (options : BufferRingOptions) (ok : Bool) {s : Client L} {cqes : List (Cqe L)}
    (hstage : s.stage = .polling cqes) : (s.step options (.resume ok)).isSome = true := by
  cases cqes <;> simp [step, resume, hstage]

/-- However the kernel schedules completions, `check_cque` drains the queue once for each entry under way
and each error at most, and once more; and it returns, since it never has to wait and takes no more steps
than that allows. -/
theorem check_cque_returns {options : BufferRingOptions} {s called t : Client L} {schedule : List (Action L)}
    (hcall : s.step options .check_cque = some called)
    (hrun : exec (step options) (fun _ a => alone a = true) schedule called = some t) :
    occurrences (step options) iterates schedule called ≤
        s.mem.io.entries.length + s.errors schedule + 1 ∧
      occurrences (step options) (fun _ a => resumes a) schedule called ≤
        2 * (s.mem.io.entries.length + s.errors schedule) + 1 ∧
      (t.stage = .between ∨ ∀ ok, (t.step options (.resume ok)).isSome = true) := by
  obtain rfl := step_check_cque hcall
  have hpolls : ({ s with stage := .polling [] } : Client L).stage.polls = true := rfl
  refine ⟨?_, ?_, ?_⟩
  · have hbound : t.remaining 1 + occurrences (step options) iterates schedule _ ≤ _ :=
      occurrences_le (P := fun s => s.stage.polls = true)
        (fun s a t hpolls halone h => ⟨(poll_step hpolls halone h).1, (poll_step hpolls halone h).2.1⟩) hpolls hrun
    rw [credits] at hbound
    simp only [remaining, pending, running, Stage.polled, failed_nil, errors] at hbound ⊢
    omega
  · have hbound : t.remaining 2 + occurrences (step options) (fun _ a => resumes a) schedule _ ≤ _ :=
      occurrences_le (P := fun s => s.stage.polls = true)
        (fun s a t hpolls halone h => ⟨(poll_step hpolls halone h).1, (poll_step hpolls halone h).2.2⟩) hpolls hrun
    rw [credits] at hbound
    simp only [remaining, pending, running, Stage.polled, failed_nil, errors, List.length_nil] at hbound ⊢
    omega
  · have hlast : t.stage.polls = true :=
      (exec_reaches hrun).invariant (P := fun s => s.stage.polls = true)
        (fun _ _ _ hpolls halone h => (poll_step hpolls halone h).1) hpolls
    cases hstage : t.stage with
    | between => exact .inl rfl
    | polling cqes => exact .inr fun ok => resume_enabled options ok hstage
    | _ =>
      rw [hstage] at hlast
      cases hlast

/-- A flush whose write is on its way to the kernel. -/
def flushOnce : List (Action 1) := [.reserve_space 0 (zeros 3), .put 0 true, .flush_current true]

/-- Its write fails once, is submitted again and then succeeds. -/
def failOnce : List (Action 1) :=
  [.complete 0 (-5), .resume true, .resume true, .complete 0 4096, .resume true, .resume true, .resume true]

theorem check_cque_returns_failOnce :
    ∃ s called t : Client 1,
      s.step storeOptions .check_cque = some called ∧
      exec (Client.step storeOptions) (fun _ a => alone a = true) failOnce called = some t ∧
      t.stage = .between ∧
      occurrences (Client.step storeOptions) iterates failOnce called ≤
        s.mem.io.entries.length + s.errors failOnce + 1 := by
  have hrun : ((exec (Client.step storeOptions) (fun _ _ => True) flushOnce
      (init (with_options storeOptions))).any fun s => (s.step storeOptions .check_cque).any fun called =>
        (exec (Client.step storeOptions) (fun _ a => alone a = true) failOnce called).any
          fun t => t.stage.returned) = true := by
    decide +kernel
  obtain ⟨s, _, hs⟩ := (Option.any_eq_true _ _).mp hrun
  obtain ⟨called, hcall, hcalled⟩ := (Option.any_eq_true _ _).mp hs
  obtain ⟨t, ht, hreturned⟩ := (Option.any_eq_true _ _).mp hcalled
  exact ⟨s, called, t, hcall, ht, Stage.eq_between hreturned, (check_cque_returns hcall ht).1⟩

/-- `check_cque` runs over a queue it has just drained, and the kernel holds a write of `b` with the entry
stored in `b`. -/
structure Failing (s : Client L) (b : Fin L) (e : Sqe L) : Prop where
  stage : s.stage = .polling []
  sq : s.mem.io.sq = []
  kernel : s.mem.io.kernel = [e]
  cq : s.mem.io.cq = []
  stored : (s.mem.ring b).sqe = some e
  user_data : e.user_data = some b

/-- The write fails before each of the next `n` polls. -/
def failEachTime : Nat → List (Action L)
  | 0 => []
  | n + 1 => .complete 0 (-5) :: .resume true :: .resume true :: failEachTime n

/-- The call drains the error and submits the write again, which leaves it where it was. -/
theorem Failing.cycle (options : BufferRingOptions) {s : Client L} {b : Fin L} {e : Sqe L} (h : s.Failing b e) :
    ∃ failing drained again, s.step options (.complete 0 (-5)) = some failing ∧
      failing.stage = .polling [] ∧ failing.step options (.resume true) = some drained ∧
      drained.stage = .polling [{ entry := e, result := -5 }] ∧
      drained.step options (.resume true) = some again ∧ again.Failing b e := by
  have hfirst : s.mem.io.kernel[0]? = some e := by
    rw [h.kernel]
    rfl
  have hlen : (-5 : Int) ≤ e.len := by omega
  let failing : Client L :=
    { s with mem := { s.mem with
        file := s.mem.fileAfter e (-5)
        io := s.mem.io.finish 0 { cqe := { entry := e, result := -5 }, file := s.mem.fileAfter e (-5) } } }
  have hfail : s.step options (.complete 0 (-5)) = some failing := by
    simp only [step, complete, hfirst, hlen, if_true, Option.map_some, failing]
  have hcq : failing.mem.io.cq = [{ entry := e, result := -5 }] := by
    simp only [failing, IoUring.finish, h.cq, List.nil_append]
  let drained : Client L := failing.drain fun cqes => if cqes.isEmpty then .between else .polling cqes
  have hdrain : failing.step options (.resume true) = some drained := by
    have hstage : failing.stage = .polling [] := h.stage
    simp only [step, resume, hstage, drained]
  have hdrained : drained.stage = .polling [{ entry := e, result := -5 }] := by
    simp only [drained, drain, IoUring.drain, hcq]
    rfl
  have hretry : drained.step options (.resume true) =
      some (drained.handle options true { entry := e, result := -5 } []) := by
    simp only [step, resume, hdrained]
  have hpush : drained.mem.io.push e =
      some { drained.mem.io with sq := [e], pushed := drained.mem.io.pushed ++ [e] } := by
    have hsq : drained.mem.io.sq = [] := h.sq
    simp [IoUring.push, hsq, SQ_ENTRIES]
  have hio : (drained.handle options true { entry := e, result := -5 } []).mem.io =
      ({ drained.mem.io with sq := [e], pushed := drained.mem.io.pushed ++ [e] } : IoUring L).submit true := by
    have hstored : (drained.mem.ring b).sqe = some e := h.stored
    simp [handle, handle_cqe, Cqe.user_data, h.user_data, retry, hstored, hpush]
  have hkernel : drained.mem.io.kernel = [] := by
    simp only [drained, drain, IoUring.drain, failing, IoUring.finish, h.kernel]
    rfl
  refine ⟨failing, drained, _, hfail, h.stage, hdrain, hdrained, hretry, ?_⟩
  constructor
  case stage => rfl
  case sq => rw [hio]; rfl
  case kernel => rw [hio]; simp only [IoUring.submit, hkernel, if_true, List.nil_append]
  case cq => rw [hio]; rfl
  case stored =>
    have hring : (drained.handle options true { entry := e, result := -5 } []).mem.ring = s.mem.ring := by
      simp [handle, handle_cqe, Cqe.user_data, h.user_data]
      rfl
    rw [hring, h.stored]
  case user_data => exact h.user_data

/-- The write that fails before each poll keeps the call going. -/
theorem Failing.loops {options : BufferRingOptions} {s : Client L} {b : Fin L} {e : Sqe L}
    (h : s.Failing b e) (n : Nat) :
    ∃ t, exec (step options) (fun _ a => alone a = true) (failEachTime n) s = some t ∧
      t.stage = .polling [] ∧ occurrences (step options) iterates (failEachTime n) s = n := by
  induction n generalizing s with
  | zero => exact ⟨s, rfl, h.stage, rfl⟩
  | succ n ih =>
    obtain ⟨failing, drained, again, hfail, hpolling, hdrain, hdrained, hretry, hagain⟩ := h.cycle options
    obtain ⟨t, hrun, hstage, hcount⟩ := ih hagain
    refine ⟨t, ?_, hstage, ?_⟩
    · simp [failEachTime, exec, hfail, hdrain, hretry, hrun]
    · simp [failEachTime, occurrences, hfail, hdrain, hretry, hcount, iterates, hpolling, hdrained, h.stage]
      exact Nat.add_comm 1 n

/-- A write that fails before every poll keeps `check_cque` from returning: no number of iterations is its
last. -/
theorem check_cque_loops :
    ∃ s called : Client 1,
      Reaches (Client.step storeOptions) (fun _ a => submitsSucceed a = true)
        (init (with_options storeOptions)) s ∧
      s.step storeOptions .check_cque = some called ∧
      ∀ n, ∃ t, exec (Client.step storeOptions) (fun _ a => alone a = true) (failEachTime n) called = some t ∧
        t.stage ≠ .between ∧ occurrences (Client.step storeOptions) iterates (failEachTime n) called = n := by
  have hrun : (exec (Client.step storeOptions) (fun _ a => submitsSucceed a = true) flushOnce
      (init (with_options storeOptions))).any
      (fun s => (s.step storeOptions .check_cque).isSome && s.mem.io.sq.isEmpty && s.mem.io.cq.isEmpty &&
        (s.mem.ring 0).sqe.any fun e => s.mem.io.kernel == [e] && e.user_data == some 0) = true := by
    decide +kernel
  obtain ⟨s, hreach, hcheck⟩ := exists_of_exec hrun
  simp only [Bool.and_eq_true, List.isEmpty_iff, Option.any_eq_true, beq_iff_eq] at hcheck
  obtain ⟨⟨⟨hcall, hsq⟩, hcq⟩, e, hstored, hkernel, huser⟩ := hcheck
  obtain ⟨called, hcalled⟩ := Option.isSome_iff_exists.mp hcall
  refine ⟨s, called, hreach, hcalled, fun n => ?_⟩
  obtain rfl := step_check_cque hcalled
  have hfailing : Failing { s with stage := .polling [] } 0 e :=
    { stage := rfl, sq := hsq, kernel := hkernel, cq := hcq, stored := hstored, user_data := huser }
  obtain ⟨t, ht, hstage, hcount⟩ := hfailing.loops n
  refine ⟨t, ht, ?_, hcount⟩
  rw [hstage]
  rintro ⟨⟩

end Client

end FlushRing
