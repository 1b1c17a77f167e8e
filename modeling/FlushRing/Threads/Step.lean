import FlushRing.Threads.Machine
import FlushRing.Transition

namespace FlushRing

variable {L : Nat}

/-- The thread is between calls and holds no reservation. -/
def Pc.done : Pc L → Bool
  | .idle => true
  | .returned _ _ => true
  | .reserved _ _ (.error _) => true
  | _ => false

namespace Pc

/-- Where a thread comes to when a function it called has returned, when it has won a flush and when it
takes up a completion. -/
def lands : Pc L → Bool
  | .idle => true
  | .returned _ _ => true
  | .putReload _ => true
  | .rotateLoad _ _ => true
  | .flushSet _ _ => true
  | .resetState _ _ => true
  | .cqueNext _ => true
  | .cqueRetry _ _ _ => true
  | .cqueAddress _ _ _ => true
  | _ => false

@[simp] theorem lands_afterRotate (caller : RotateCaller L) : (afterRotate caller).lands = true := by
  cases caller <;> rfl

@[simp] theorem lands_afterFlush (b : Fin L) (caller : FlushCaller L) :
    (afterFlush b caller).lands = true := by
  cases caller <;> rfl

@[simp] theorem lands_afterReset (b : Fin L) (caller : ResetCaller L) :
    (afterReset b caller).lands = true := by
  cases caller with
  | put call => rfl
  | flush caller => exact lands_afterFlush b caller
  | check_cque cqe rest => rfl

@[simp] theorem lands_afterOwning (options : BufferRingOptions) (call : PutCall L) :
    (afterOwning options call).lands = true := by
  unfold afterOwning
  repeat' split
  all_goals rfl

@[simp] theorem lands_cqueEntry (options : BufferRingOptions) (cqe : Cqe L) (rest : List (Cqe L)) :
    (cqueEntry options cqe rest).lands = true := by
  unfold cqueEntry
  repeat' split
  all_goals rfl

end Pc

/-- The calls a client can enter, with the program points before and after. -/
inductive Entered (held : Option (Fin L)) (msg : Option Slice) : Call → Pc L → Pc L → Prop where
  | take (payload : Slice) : Entered held msg (.take payload) .idle .idle
  | current_buffer : Entered held msg .current_buffer .idle .idle
  | reserve_space {b : Fin L} {payload : Slice} (hheld : held = some b) (hmsg : msg = some payload)
      (hlen : payload.len ≤ ONE_MEGABYTE_BLOCK) :
      Entered held msg .reserve_space .idle (.reserveLoad b payload)
  | put (b : Fin L) (payload : Slice) (result : Except BufferError Usize) :
      Entered held msg .put (.reserved b payload result)
        (Pc.putEntry { current := b, reserve_result := result, payload })
  | flush_current : Entered held msg .flush_current .idle .currentLoad
  | flush {b : Fin L} (hheld : held = some b) :
      Entered held msg .flush .idle (.flushSet .client b)
  | check_cque : Entered held msg .check_cque .idle .cqueDrain
  | finish_reserved (b : Fin L) (payload : Slice) (e : BufferError) :
      Entered held msg .finish (.reserved b payload (.error e)) .idle
  | finish_returned (call : PutCall L) (result : Except BufferError BufferMsg) :
      Entered held msg .finish (.returned call result) .idle

/-- A client enters its calls from the program points listed. -/
theorem entry_entered {options : BufferRingOptions} {held : Option (Fin L)} {msg : Option Slice}
    {c : Call} {pc pc' : Pc L} (h : entry options held msg c pc = some pc') :
    Entered held msg c pc pc' := by
  unfold entry at h
  split at h
  next payload =>
    obtain rfl := Option.some.inj h
    exact .take payload
  next =>
    obtain rfl := Option.some.inj h
    exact .current_buffer
  next =>
    split at h
    next b payload =>
      split at h
      next hlen =>
        obtain rfl := Option.some.inj h
        exact .reserve_space rfl rfl hlen
      next => cases h
    next => cases h
  next b payload result =>
    obtain rfl := Option.some.inj h
    exact .put b payload result
  next =>
    obtain rfl := Option.some.inj h
    exact .flush_current
  next =>
    obtain ⟨b, hheld, rfl⟩ := Option.map_eq_some_iff.mp h
    exact .flush hheld
  next =>
    obtain ⟨store, _, rfl⟩ := Option.map_eq_some_iff.mp h
    exact .check_cque
  next b payload e =>
    obtain rfl := Option.some.inj h
    exact .finish_reserved b payload e
  next call result =>
    obtain rfl := Option.some.inj h
    exact .finish_returned call result
  next => cases h

open Pc in
/-- The control flow of one atomic step: where a thread stands before and after, with what it has
found in the shared state. -/
inductive Advances (options : BufferRingOptions) (mem : BufferRing L) : Pc L → Pc L → Prop where
  | reserve_refused {b payload e}
      (h : FlushBuffer.reserve_decision (mem.ring b).state payload.len = .error e) :
      Advances options mem (.reserveLoad b payload) (.reserved b payload (.error e))
  | reserve_prepared {b payload offset new}
      (h : FlushBuffer.reserve_decision (mem.ring b).state payload.len = .ok (offset, new)) :
      Advances options mem (.reserveLoad b payload)
        (.reserveExchange b payload (mem.ring b).state offset new)
  | reserve_granted {b payload state offset new} (h : (mem.ring b).state = state) :
      Advances options mem (.reserveExchange b payload state offset new)
        (.reserved b payload (.ok offset))
  | reserve_contended {b payload state offset new} (h : (mem.ring b).state ≠ state) :
      Advances options mem (.reserveExchange b payload state offset new)
        (.reserved b payload (.error .FailedReservation))
  | seal_lost {call} (h : state_sealed (mem.ring call.current).state = true) :
      Advances options mem (.putSeal call) (.returned call (.error .EncounteredSealedBuffer))
  | seal_won {call} (h : state_sealed (mem.ring call.current).state = false) :
      Advances options mem (.putSeal call) (.putSize call)
  | put_sized {call} :
      Advances options mem (.putSize call)
        (.putClaim call (next_multiple_of (mem.ring call.current).size FOUR_KB_BLOCK))
  | put_claimed {call padded} :
      Advances options mem (.putClaim call padded) (.putStore call mem.next_address_range)
  | put_rotates {call slot} (h : options.auto_rotate = true) :
      Advances options mem (.putStore call slot) (.rotateLoad (.put call) call.current)
  | put_stays {call slot} (h : options.auto_rotate = false) :
      Advances options mem (.putStore call slot) (.putReload call)
  | put_drained {call} (h : state_writers (mem.ring call.current).state = 0) :
      Advances options mem (.putReload call) (.putSetFlush call)
  | put_occupied {call} (h : state_writers (mem.ring call.current).state ≠ 0) :
      Advances options mem (.putReload call) (.returned call (.error .EncounteredSealedBuffer))
  | put_wrote {call offset} : Advances options mem (.putWrite call offset) (.putDecrement call)
  | last_writer {call} (hwriters : state_writers (mem.ring call.current).state = 1)
      (hsealed : state_sealed (mem.ring call.current).state = true) :
      Advances options mem (.putDecrement call) (.putSetFlush call)
  | not_last {call} (h : ¬ (state_writers (mem.ring call.current).state = 1 ∧
        state_sealed (mem.ring call.current).state = true)) :
      Advances options mem (.putDecrement call) (.returned call (.ok .SuccessfullWrite))
  | flush_lost {call} (h : state_flush_in_progress (mem.ring call.current).state = true) :
      Advances options mem (.putSetFlush call) (.returned call (flushLost call))
  | flush_won {call} (h : state_flush_in_progress (mem.ring call.current).state = false) :
      Advances options mem (.putSetFlush call) (afterOwning options call)
  | rotate_loaded {caller sealed_pos} :
      Advances options mem (.rotateLoad caller sealed_pos)
        (.rotateSize caller sealed_pos mem.current_buffer)
  | rotated_before {caller sealed_pos current} (h : current ≠ sealed_pos) :
      Advances options mem (.rotateSize caller sealed_pos current) (afterRotate caller)
  | rotate_starts {caller current} :
      Advances options mem (.rotateSize caller current current)
        (.rotateNext caller current (mem.ring current).size L)
  | rotate_exhausted {caller current size} :
      Advances options mem (.rotateNext caller current size 0) (afterRotate caller)
  | rotate_tries {caller current size left} :
      Advances options mem (.rotateNext caller current size (left + 1))
        (.rotateCheck caller current size left (mem.candidate mem.next_index))
  | rotate_finds {caller current size left new} (h : (mem.ring new).is_available = true) :
      Advances options mem (.rotateCheck caller current size left new)
        (.rotateSwap caller current size new)
  | rotate_skips {caller current size left new} (h : (mem.ring new).is_available = false) :
      Advances options mem (.rotateCheck caller current size left new)
        (.rotateNext caller current size left)
  | rotate_swapped {caller current size new} :
      Advances options mem (.rotateSwap caller current size new) (.rotateClaim caller size new)
  | rotate_claimed {caller size new} :
      Advances options mem (.rotateClaim caller size new)
        (.rotateStore caller mem.next_address_range new)
  | rotate_stored {caller slot new} :
      Advances options mem (.rotateStore caller slot new) (afterRotate caller)
  | flush_submits {caller b} (h : options.io_instance.isSome) :
      Advances options mem (.flushSet caller b) (.submitData caller b)
  | flush_resets {caller b} (h : options.io_instance = none) :
      Advances options mem (.flushSet caller b) (.resetState (.flush caller) b)
  | submit_data {caller b} :
      Advances options mem (.submitData caller b) (.submitOffset caller b (mem.ring b).data_len)
  | submit_offset {caller b data_len} :
      Advances options mem (.submitOffset caller b data_len)
        (.submitPush caller b data_len (mem.ring b).local_address)
  | submit_pushed {caller b data_len offset} :
      Advances options mem (.submitPush caller b data_len offset) (afterFlush b caller)
  | state_reset {caller b} :
      Advances options mem (.resetState caller b) (.resetAddress caller b)
  | address_reset {caller b} :
      Advances options mem (.resetAddress caller b) (afterReset b caller)
  | current_loaded : Advances options mem .currentLoad (.currentSize mem.current_buffer)
  | current_empty {b} (h : (mem.ring b).size = 0) : Advances options mem (.currentSize b) .idle
  | current_filled {b} (h : (mem.ring b).size ≠ 0) :
      Advances options mem (.currentSize b) (.currentSeal b)
  | current_sealed {b} : Advances options mem (.currentSeal b) (.currentLen b)
  | current_measured {b} :
      Advances options mem (.currentLen b) (.currentClaim b (mem.ring b).size)
  | current_claimed {b len} :
      Advances options mem (.currentClaim b len) (.currentStore b mem.next_address_range)
  | current_stored {b slot} :
      Advances options mem (.currentStore b slot) (.flushSet .flush_current b)
  | cque_empty (h : mem.io.cq = []) : Advances options mem .cqueDrain .idle
  | cque_drained (h : mem.io.cq ≠ []) : Advances options mem .cqueDrain (.cqueNext mem.io.cq)
  | cque_handled : Advances options mem (.cqueNext []) .cqueDrain
  | cque_takes {cqe rest} :
      Advances options mem (.cqueNext (cqe :: rest)) (cqueEntry options cqe rest)
  | cque_retried {cqe b rest} : Advances options mem (.cqueRetry cqe b rest) (.cqueNext rest)
  | cque_address {cqe b rest} :
      Advances options mem (.cqueAddress cqe b rest)
        (.cqueSize cqe b rest (mem.ring b).local_address)
  | cque_size {cqe b rest file_offset} :
      Advances options mem (.cqueSize cqe b rest file_offset)
        (.cqueSend cqe b rest file_offset (mem.ring b).size)
  | cque_sent {cqe b rest file_offset byte_count} :
      Advances options mem (.cqueSend cqe b rest file_offset byte_count)
        (.resetState (.check_cque cqe rest) b)

/-- Every atomic step is one of those listed. -/
theorem next_advances {options : BufferRingOptions} {ok : Bool} {mem mem' : BufferRing L}
    {pc pc' : Pc L} (h : next options ok mem pc = some (pc', mem')) :
    Advances options mem pc pc' := by
  cases pc
  case rotateNext caller current size left =>
    cases left with
    | zero =>
      simp only [next, Option.some.injEq, Prod.mk.injEq] at h
      obtain ⟨rfl, rfl⟩ := h
      exact .rotate_exhausted
    | succ left =>
      simp only [next, Option.some.injEq, Prod.mk.injEq] at h
      obtain ⟨rfl, rfl⟩ := h
      exact .rotate_tries
  case rotateSize caller sealed_pos current =>
    by_cases hpos : current = sealed_pos
    · subst sealed_pos
      simp only [next, ne_eq, not_true_eq_false, if_false, Option.some.injEq, Prod.mk.injEq] at h
      obtain ⟨rfl, rfl⟩ := h
      exact .rotate_starts
    · simp only [next, ne_eq, hpos, not_false_eq_true, if_true, Option.some.injEq,
        Prod.mk.injEq] at h
      obtain ⟨rfl, rfl⟩ := h
      exact .rotated_before hpos
  case cqueNext cqes =>
    cases cqes with
    | nil =>
      simp only [next, Option.some.injEq, Prod.mk.injEq] at h
      obtain ⟨rfl, rfl⟩ := h
      exact .cque_handled
    | cons cqe rest =>
      simp only [next, Option.some.injEq, Prod.mk.injEq] at h
      obtain ⟨rfl, rfl⟩ := h
      exact .cque_takes
  all_goals simp only [next] at h
  all_goals repeat' split at h
  all_goals try contradiction
  all_goals simp only [Option.some.injEq, Prod.mk.injEq] at h
  all_goals obtain ⟨rfl, rfl⟩ := h
  all_goals constructor
  all_goals simp_all [IoUring.drain]

namespace Threads

variable {T : Type} [DecidableEq T]

/-- What holds of a thread's program point after a step of `t` holds of the one `t` comes to, or held of
the point of another thread. -/
theorem update_cases {pc : T → Pc L} {t t' : T} {pc' : Pc L} {p : Pc L → Prop}
    (h : p (Function.update pc t pc' t')) : (t' = t ∧ p pc') ∨ (t' ≠ t ∧ p (pc t')) := by
  by_cases ht : t' = t
  · subst t'
    rw [Function.update_self] at h
    exact .inl ⟨rfl, h⟩
  · rw [Function.update_of_ne ht] at h
    exact .inr ⟨ht, h⟩

section Fields
variable (s : Threads T L) (t : T)

/-- A call does not touch the ring until its first step. -/
@[simp] theorem note_mem (c : Call) : (s.note t c).mem = s.mem := by
  unfold note
  split <;> try rfl
  split <;> rfl

@[simp] theorem note_slot (c : Call) : (s.note t c).slot = s.slot := by
  unfold note
  split <;> try rfl
  split <;> rfl

@[simp] theorem note_submissions (c : Call) : (s.note t c).submissions = s.submissions := by
  unfold note
  split <;> try rfl
  split <;> rfl

end Fields

/-- An atomic step changes the ring, its thread's program point and the histories. -/
theorem run_cases {options : BufferRingOptions} {s s' : Threads T L} {t : T} {ok : Bool}
    (h : step options s (.run t ok) = some s') :
    ∃ pc mem, next options ok s.mem (s.pc t) = some (pc, mem) ∧
      s' = { s.record (s.pc t) pc with mem, pc := Function.update s.pc t pc } := by
  simp only [step] at h
  split at h
  next pc mem hpc => exact ⟨pc, mem, hpc, (Option.some.inj h).symm⟩
  next => cases h

/-- Every step is a call entered by a client, an atomic step of a running call, or a completion. -/
theorem step_cases {options : BufferRingOptions} {s s' : Threads T L} {a : Action T}
    (h : step options s a = some s') :
    (∃ t c pc, a = .call t c ∧ entry options (s.held t) (s.msg t) c (s.pc t) = some pc ∧
      s' = { s.note t c with pc := Function.update s.pc t pc }) ∨
    (∃ t ok pc mem, a = .run t ok ∧ next options ok s.mem (s.pc t) = some (pc, mem) ∧
      s' = { s.record (s.pc t) pc with mem, pc := Function.update s.pc t pc }) ∨
    (∃ i result mem, a = .complete i result ∧ s.mem.complete i result = some mem ∧
      s' = { s with mem }) := by
  cases a with
  | call t c =>
    simp only [step] at h
    split at h
    next pc hpc => exact .inl ⟨t, c, pc, rfl, hpc, (Option.some.inj h).symm⟩
    next => cases h
  | run t ok =>
    obtain ⟨pc, mem, hpc, rfl⟩ := run_cases h
    exact .inr (.inl ⟨t, ok, pc, mem, rfl, hpc, rfl⟩)
  | complete i result =>
    simp only [step] at h
    split at h
    next mem hmem => exact .inr (.inr ⟨i, result, mem, rfl, hmem, (Option.some.inj h).symm⟩)
    next => cases h

/-- The rule for a property of the ring and the program points: it is enough to check a call that a
client enters, one atomic step of a running call and a completion. -/
theorem step_keeps {options : BufferRingOptions} {P : Threads T L → Prop} {s s' : Threads T L}
    {a : Action T} (h : step options s a = some s')
    (hcall : ∀ t c pc, a = .call t c → entry options (s.held t) (s.msg t) c (s.pc t) = some pc →
      P { s.note t c with pc := Function.update s.pc t pc })
    (hrun : ∀ t ok pc mem, a = .run t ok → next options ok s.mem (s.pc t) = some (pc, mem) →
      P { s.record (s.pc t) pc with mem, pc := Function.update s.pc t pc })
    (hcomplete : ∀ i result mem, a = .complete i result → s.mem.complete i result = some mem →
      P { s with mem }) : P s' := by
  obtain ⟨t, c, pc, ha, hentry, rfl⟩ | ⟨t, ok, pc, mem, ha, hnext, rfl⟩ |
    ⟨i, result, mem, ha, hmem, rfl⟩ := step_cases h
  · exact hcall t c pc ha hentry
  · exact hrun t ok pc mem ha hnext
  · exact hcomplete i result mem ha hmem

/-- The same rule for a property of the ring and the program points alone. -/
theorem step_keeps_ring {options : BufferRingOptions} {P : BufferRing L → (T → Pc L) → Prop}
    {s s' : Threads T L} {a : Action T} (h : step options s a = some s')
    (hcall : ∀ t c pc, a = .call t c → Entered (s.held t) (s.msg t) c (s.pc t) pc →
      P s.mem (Function.update s.pc t pc))
    (hrun : ∀ t ok pc mem, a = .run t ok → next options ok s.mem (s.pc t) = some (pc, mem) →
      P mem (Function.update s.pc t pc))
    (hcomplete : ∀ i result mem, a = .complete i result → s.mem.complete i result = some mem →
      P mem s.pc) : P s'.mem s'.pc := by
  obtain ⟨t, c, pc, ha, hentry, rfl⟩ | ⟨t, ok, pc, mem, ha, hnext, rfl⟩ |
    ⟨i, result, mem, ha, hmem, rfl⟩ := step_cases h
  · show P (s.note t c).mem _
    rw [note_mem]
    exact hcall t c pc ha (entry_entered hentry)
  · exact hrun t ok pc mem ha hnext
  · exact hcomplete i result mem ha hmem

/-- A stretch of a schedule in which one thread makes `n` atomic steps and its submits succeed. -/
def steps (t : T) (n : Nat) : List (Action T) := List.replicate n (.run t true)

/-- A stretch of a schedule in which one thread takes up a payload and makes an attempt to log it, with
`r` steps of `reserve_space` and `n` of `put`. -/
def attempt (t : T) (payload : Slice) (r n : Nat) : List (Action T) :=
  [.call t (.take payload), .call t .current_buffer, .call t .reserve_space] ++ steps t r ++
    [.call t .put] ++ steps t n

end Threads

end FlushRing
