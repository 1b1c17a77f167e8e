import FlushRing.QuikIO.Calls

open Transition Submission

namespace FlushRing

variable {L : Nat}

namespace QuikIO

/-- `BackingStore::submit` over the queues with their order; the entry is one batch with those that an
earlier submit has failed to hand over. -/
def submit (store : QuikIO) (ok : Bool) (q : Queues (Sqe L)) (data_len at_ : Usize) (buffer_ptr : Fin L)
    (filling : Nat) : Queues (Sqe L) :=
  let sqe : Sqe L :=
    { opcode := .Write buffer_ptr (data_len.setWidth 32), offset := at_,
      flags := store.get_backing_store.mode.flags, user_data := some buffer_ptr, filling }
  match q.push SQ_ENTRIES sqe with
  | none => q
  | some q => if ok then q.submit else q

/-- Without the order it is the submission of a ring's buffer. -/
theorem submit_forgets {q : Queues (Sqe L)} {io : IoUring L} (h : Caller.Forgets q io) (store : QuikIO) (ok : Bool)
    (entry : Option (Sqe L)) (data_len at_ : Usize) (buffer_ptr : Fin L) (filling : Nat) :
    Caller.Forgets (store.submit ok q data_len at_ buffer_ptr filling)
      (store.get_backing_store.submit ok io entry data_len at_ buffer_ptr filling).1 := by
  unfold submit BackingStore.submit
  dsimp only
  obtain ⟨hfull, hfull'⟩ | ⟨q', io', hpush, hpush', hforgets⟩ := h.push _
  · rw [hfull, hfull']
    exact h
  · rw [hpush, hpush']
    cases ok with
    | true => exact hforgets.submit
    | false => exact hforgets

namespace Serial

/-- A store whose only callers submit buffers and read completions, and the kernel. -/
inductive Action (L : Nat) where
  | submit_buffer (buffer : Fin L) (data_len at_ : Usize) (filling : Nat) (ok : Bool)
  | cqe
  | serve (a : Serve)

def step (store : QuikIO) (q : Queues (Sqe L)) : Action L → Option (Queues (Sqe L))
  | .submit_buffer buffer data_len at_ filling ok => some (store.submit ok q data_len at_ buffer filling)
  | .cqe => some q.drain.2
  | .serve a => q.serve Sqe.order a

/-- What reaches the kernel finds everything before it completed. -/
def afterAll (q : Queues (Sqe L)) : Action L → Bool
  | .submit_buffer _ _ _ _ ok => !ok || q.idle
  | _ => true

/-- A linked write that is submitted when all before it are done keeps the order. -/
theorem serialized_submit {q : Queues (Sqe L)} (hq : q.Serialized Sqe.order) {ok : Bool}
    (hidle : ok = true → q.idle = true) (data_len at_ : Usize) (buffer_ptr : Fin L) (filling : Nat) :
    (link.submit ok q data_len at_ buffer_ptr filling).Serialized Sqe.order := by
  unfold submit
  dsimp only
  split
  next => exact hq
  next q' hpush =>
    have hpushed : q'.Serialized Sqe.order := hq.push rfl hpush
    cases ok with
    | false => exact hpushed
    | true =>
      refine hpushed.submit ?_
      unfold Queues.push at hpush
      split at hpush
      next =>
        obtain rfl := Option.some.inj hpush
        exact hidle rfl
      next => cases hpush

/-- Every step that meets the condition keeps the order. -/
theorem serialized_step {q q' : Queues (Sqe L)} {a : Action L} (hq : q.Serialized Sqe.order)
    (hafter : afterAll q a = true) (h : step link q a = some q') : q'.Serialized Sqe.order := by
  cases a with
  | submit_buffer buffer data_len at_ filling ok =>
    obtain rfl := Option.some.inj h
    refine serialized_submit hq (fun hok => ?_) data_len at_ buffer filling
    rw [afterAll, hok] at hafter
    exact hafter
  | cqe =>
    obtain rfl := Option.some.inj h
    exact hq.drain
  | serve a => exact hq.serve h

/-- In a serialised store in which each submission that reaches the kernel finds the earlier ones completed,
no write starts before all submitted earlier have completed. -/
theorem link_serializes {q : Queues (Sqe L)}
    (h : Reaches (step link) (fun q a => afterAll q a = true) Queues.new q) :
    ∀ i, q.started i = true → ∀ j < i, (q.result j).isSome = true :=
  (h.invariant (P := Queues.Serialized Sqe.order) (fun _ _ _ => serialized_step)
    Queues.Serialized.new).serial

/-- One write after the other. -/
def inTurn : List (Action 2) :=
  [.submit_buffer 0 4096 0 0 true, .serve (.start 0), .serve (.complete 0 4096), .cqe,
    .submit_buffer 1 4096 4096 0 true, .serve (.start 1)]

theorem link_serializes_inTurn :
    ∃ q : Queues (Sqe 2), Reaches (step link) (fun q a => afterAll q a = true) Queues.new q ∧
      q.started 1 = true ∧ ∀ j < 1, (q.result j).isSome = true := by
  have hrun : (exec (step link) (fun q a => afterAll q a = true) inTurn Queues.new).any (·.started 1) = true := by
    decide
  obtain ⟨q, hreach, hstarted⟩ := exists_of_exec hrun
  exact ⟨q, hreach, hstarted, link_serializes hreach 1 hstarted⟩

/-- Two submissions, each a batch of its own, and the second starts first. -/
def outOfTurn : List (Action 2) :=
  [.submit_buffer 0 4096 0 0 true, .submit_buffer 1 4096 4096 0 true, .serve (.start 1)]

/-- `IO_LINK` does not hold back the entry of the next submit call. -/
theorem link_starts_out_of_order :
    ∃ q : Queues (Sqe 2), Reaches (step link) (fun _ _ => True) Queues.new q ∧
      q.started 1 = true ∧ q.result 0 = none := by
  have hrun : (exec (step link) (fun _ _ => True) outOfTurn Queues.new).any
      (fun q => q.started 1 && q.result 0 == none) = true := by
    decide
  obtain ⟨q, hreach, hcheck⟩ := exists_of_exec hrun
  simp only [Bool.and_eq_true, beq_iff_eq] at hcheck
  exact ⟨q, hreach, hcheck⟩

end Serial

end QuikIO

end FlushRing
