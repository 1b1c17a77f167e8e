import FlushRing.Threads.Step

/-! What one atomic step does to each part of the shared state, as a function of the program point.
Every invariant of the threads is derived from these equations. -/

namespace FlushRing

variable {L : Nat}

namespace Pc

/-- The shared state after a step. -/
def memAfter (options : BufferRingOptions) (ok : Bool) (mem : BufferRing L) : Pc L → BufferRing L
  | .reserveExchange b payload state offset new =>
    if (mem.ring b).state = state then mem.modify b (·.grant new offset payload.len) else mem
  | .putSeal call => mem.modify call.current FlushBuffer.set_sealed
  | .putClaim _ padded => (mem.incrment_address padded).2
  | .putStore call slot => mem.modify call.current (·.store_address slot)
  | .putWrite call offset => mem.modify call.current (·.write offset call.payload)
  | .putDecrement call => mem.modify call.current FlushBuffer.decrement_writers
  | .putSetFlush call => mem.modify call.current FlushBuffer.set_flush_in_progress
  | .rotateNext _ _ _ left => if left = 0 then mem else { mem with next_index := mem.next_index + 1 }
  | .rotateSwap _ current _ new => mem.swap_current current new
  | .rotateClaim _ size _ => (mem.incrment_address size).2
  | .rotateStore _ slot new => mem.modify new (BufferRing.adopt_address slot)
  | .flushSet _ b => mem.modify b FlushBuffer.set_flush_in_progress
  | .submitPush _ b data_len offset =>
    match options.io_instance with
    | some store => mem.submit_raw store ok b data_len offset
    | none => mem
  | .resetState _ b => mem.modify b FlushBuffer.clear_state
  | .resetAddress _ b => mem.modify b (·.store_address 0)
  | .currentSeal b => mem.modify b FlushBuffer.set_sealed
  | .currentClaim _ len => (mem.incrment_address len).2
  | .currentStore b slot => mem.modify b (·.store_address slot)
  | .cqueDrain => { mem with io := mem.io.drain.2 }
  | .cqueRetry _ b _ => mem.retry ok b
  | .cqueSend _ b _ file_offset byte_count => mem.send b file_offset byte_count
  | _ => mem

/-- The buffer `b` after a step, but for the entry it stores. -/
def bufferAfter (b : Fin L) (buffer : FlushBuffer L) : Pc L → FlushBuffer L
  | .reserveExchange b' payload state offset new =>
    if b' = b ∧ buffer.state = state then buffer.grant new offset payload.len else buffer
  | .putSeal call => if call.current = b then buffer.set_sealed else buffer
  | .putStore call slot => if call.current = b then buffer.store_address slot else buffer
  | .putWrite call offset => if call.current = b then buffer.write offset call.payload else buffer
  | .putDecrement call => if call.current = b then buffer.decrement_writers else buffer
  | .putSetFlush call => if call.current = b then buffer.set_flush_in_progress else buffer
  | .rotateStore _ slot new => if new = b then BufferRing.adopt_address slot buffer else buffer
  | .flushSet _ b' => if b' = b then buffer.set_flush_in_progress else buffer
  | .resetState _ b' => if b' = b then buffer.clear_state else buffer
  | .resetAddress _ b' => if b' = b then buffer.store_address 0 else buffer
  | .currentSeal b' => if b' = b then buffer.set_sealed else buffer
  | .currentStore b' slot => if b' = b then buffer.store_address slot else buffer
  | _ => buffer

/-- The state word of `b` after a step, from the word before it. -/
def wordAfter (b : Fin L) (w : Usize) : Pc L → Usize
  | .reserveExchange b' _ state _ new => if b' = b ∧ w = state then new else w
  | .putSeal call => if call.current = b then w ||| SEALED_BIT else w
  | .putDecrement call => if call.current = b then w - WRITER_ONE else w
  | .putSetFlush call => if call.current = b then w ||| FLUSH_IN_PROGRESS_BIT else w
  | .flushSet _ b' => if b' = b then w ||| FLUSH_IN_PROGRESS_BIT else w
  | .resetState _ b' => if b' = b then 0 else w
  | .currentSeal b' => if b' = b then w ||| SEALED_BIT else w
  | _ => w

/-- The `local_address` of `b` after a step. -/
def addressAfter (b : Fin L) (a : Usize) : Pc L → Usize
  | .putStore call slot => if call.current = b then slot else a
  | .currentStore b' slot => if b' = b then slot else a
  | .rotateStore _ slot new => if new = b ∧ a = 0 then slot else a
  | .resetAddress _ b' => if b' = b then 0 else a
  | _ => a

/-- The history of `b`'s filling after a step made while the word of `b` is `w`. -/
def fillingAfter (b : Fin L) (w : Usize) (f : Filling) : Pc L → Filling
  | .reserveExchange b' payload state offset _ =>
    if b' = b ∧ w = state then { f with granted := f.granted ++ [(offset, payload.len)] } else f
  | .putWrite call offset =>
    if call.current = b then { f with copied := f.copied ++ [(offset, call.payload)] } else f
  | .resetState _ b' =>
    if b' = b then { number := f.number + 1, granted := [], copied := [] } else f
  | _ => f

/-- The queues of the kernel's ring after a step. -/
def ioAfter (options : BufferRingOptions) (ok : Bool) (mem : BufferRing L) : Pc L → IoUring L
  | .submitPush _ b data_len offset =>
    match options.io_instance with
    | some store => (mem.submit_raw store ok b data_len offset).io
    | none => mem.io
  | .cqueDrain => mem.io.drain.2
  | .cqueRetry _ b _ => (mem.retry ok b).io
  | _ => mem.io

end Pc

section Effects
variable {options : BufferRingOptions} {ok : Bool} {mem mem' : BufferRing L} {pc pc' : Pc L}

/-- A step changes the shared state as its program point says. -/
theorem next_mem (h : next options ok mem pc = some (pc', mem')) :
    mem' = pc.memAfter options ok mem := by
  cases pc
  case rotateNext caller current size left =>
    cases left <;> cases h <;> rfl
  case cqueNext cqes =>
    cases cqes <;> cases h <;> rfl
  all_goals simp only [next] at h
  all_goals repeat' split at h
  all_goals try contradiction
  all_goals simp only [Option.some.injEq, Prod.mk.injEq] at h
  all_goals obtain ⟨rfl, rfl⟩ := h
  all_goals simp_all only [Pc.memAfter, if_true, if_false]

/-- A submission stores an entry in its buffer; apart from that, a step changes a buffer as `bufferAfter`
says. -/
theorem next_buffer (b : Fin L) (h : next options ok mem pc = some (pc', mem')) :
    ∃ sqe, mem'.ring b = { pc.bufferAfter b (mem.ring b) with sqe } := by
  rw [next_mem h]
  cases pc
  case submitPush caller b' data_len offset =>
    simp only [Pc.memAfter]
    split
    next store _ =>
      refine ⟨((mem.submit_raw store ok b' data_len offset).ring b).sqe, ?_⟩
      simp only [BufferRing.submit_raw, BufferRing.modify_ring, Pc.bufferAfter]
      split <;> rfl
    next => exact ⟨_, rfl⟩
  all_goals refine ⟨(mem.ring b).sqe, ?_⟩
  case reserveExchange b' payload state offset new =>
    simp only [Pc.memAfter, Pc.bufferAfter]
    by_cases hb : b' = b
    · subst b'
      by_cases hstate : (mem.ring b).state = state
      · rw [if_pos hstate, if_pos ⟨rfl, hstate⟩, BufferRing.modify_ring_self]
        rfl
      · rw [if_neg hstate, if_neg fun hboth => hstate hboth.2]
    · rw [if_neg (c := b' = b ∧ _) fun hboth => hb hboth.1]
      split
      next => exact Function.update_of_ne (Ne.symm hb) _ _
      next => rfl
  case rotateNext caller current size left =>
    simp only [Pc.memAfter]
    split <;> rfl
  all_goals simp only [Pc.memAfter, Pc.bufferAfter, BufferRing.modify_ring, BufferRing.swap_current_ring,
    BufferRing.retry_ring]
  all_goals try rfl
  all_goals split <;> rfl

/-- The word of a buffer after a step. -/
theorem next_state (b : Fin L) (h : next options ok mem pc = some (pc', mem')) :
    (mem'.ring b).state = pc.wordAfter b (mem.ring b).state := by
  obtain ⟨sqe, hbuffer⟩ := next_buffer b h
  rw [hbuffer]
  cases pc
  all_goals simp only [Pc.bufferAfter, Pc.wordAfter]
  all_goals split <;> rfl

theorem next_address (b : Fin L) (h : next options ok mem pc = some (pc', mem')) :
    (mem'.ring b).local_address = pc.addressAfter b (mem.ring b).local_address := by
  obtain ⟨sqe, hbuffer⟩ := next_buffer b h
  rw [hbuffer]
  cases pc
  all_goals simp only [Pc.bufferAfter, Pc.addressAfter]
  case rotateStore caller slot new =>
    by_cases hb : new = b
    · simp [hb]
    · simp [hb]
  all_goals split <;> rfl

/-- The history of a buffer's filling after a step. -/
theorem next_filling (b : Fin L) (h : next options ok mem pc = some (pc', mem')) :
    (mem'.ring b).filling = pc.fillingAfter b (mem.ring b).state (mem.ring b).filling := by
  obtain ⟨sqe, hbuffer⟩ := next_buffer b h
  rw [hbuffer]
  cases pc
  all_goals simp only [Pc.bufferAfter, Pc.fillingAfter]
  all_goals split <;> rfl

/-- Only the exchange of `rotate_after_seal` moves the current-buffer pointer. -/
theorem next_current (h : next options ok mem pc = some (pc', mem')) :
    mem'.current_buffer = mem.current_buffer ∨
      ∃ caller current size new, pc = .rotateSwap caller current size new ∧
        mem.current_buffer = current ∧ mem'.current_buffer = new := by
  rw [next_mem h]
  cases pc
  case rotateSwap caller current size new =>
    by_cases hcurrent : mem.current_buffer = current
    · refine .inr ⟨caller, current, size, new, rfl, hcurrent, ?_⟩
      simp [Pc.memAfter, BufferRing.swap_current, hcurrent]
    · left
      simp [Pc.memAfter, BufferRing.swap_current, hcurrent]
  all_goals left
  all_goals simp only [Pc.memAfter, BufferRing.retry_current]
  all_goals try rfl
  all_goals split <;> rfl

theorem next_io (h : next options ok mem pc = some (pc', mem')) : mem'.io = pc.ioAfter options ok mem := by
  rw [next_mem h]
  cases pc
  all_goals simp only [Pc.memAfter, Pc.ioAfter, BufferRing.swap_current_io]
  all_goals try rfl
  all_goals split <;> rfl

end Effects

namespace Pc

/-- What the local values of a running call say about each other: the word prepared for the exchange
of `reserve_space` comes from the word it loaded, and the completion at hand is one of the buffer
being handled. -/
def WellFormed : Pc L → Prop
  | .reserveExchange _ payload state offset new =>
    FlushBuffer.reserve_decision state payload.len = .ok (offset, new)
  | .cqueRetry cqe b _ => cqe.user_data = some b
  | .cqueAddress cqe b _ => cqe.user_data = some b
  | .cqueSize cqe b _ _ => cqe.user_data = some b
  | .cqueSend cqe b _ _ _ => cqe.user_data = some b
  | .resetState (.check_cque cqe _) b => cqe.user_data = some b
  | _ => True

@[simp] theorem wellFormed_afterRotate (caller : RotateCaller L) : (afterRotate caller).WellFormed := by
  cases caller <;> trivial

@[simp] theorem wellFormed_afterFlush (b : Fin L) (caller : FlushCaller L) :
    (afterFlush b caller).WellFormed := by
  cases caller <;> trivial

@[simp] theorem wellFormed_afterReset (b : Fin L) (caller : ResetCaller L) :
    (afterReset b caller).WellFormed := by
  cases caller with
  | put call => trivial
  | flush caller => exact wellFormed_afterFlush b caller
  | check_cque cqe rest => trivial

@[simp] theorem wellFormed_afterOwning (options : BufferRingOptions) (call : PutCall L) :
    (afterOwning options call).WellFormed := by
  unfold afterOwning
  split
  · split <;> trivial
  · trivial

@[simp] theorem wellFormed_putEntry (call : PutCall L) : (putEntry call).WellFormed := by
  unfold putEntry
  split <;> trivial

@[simp] theorem wellFormed_cqueEntry (options : BufferRingOptions) (cqe : Cqe L) (rest : List (Cqe L)) :
    (cqueEntry options cqe rest).WellFormed := by
  unfold cqueEntry
  split
  next => trivial
  next b hb =>
    split
    next => exact hb
    next =>
      split
      next => exact hb
      next => exact hb

end Pc

/-- A call begins at a well formed program point. -/
theorem Entered.wellFormed {held : Option (Fin L)} {msg : Option Slice} {c : Call} {pc pc' : Pc L}
    (h : Entered held msg c pc pc') : pc'.WellFormed := by
  cases h
  case put b payload result => exact Pc.wellFormed_putEntry _
  all_goals trivial

section WellFormed
variable {options : BufferRingOptions} {ok : Bool} {mem mem' : BufferRing L} {pc pc' : Pc L}

/-- Steps keep program points well formed. -/
theorem next_wellFormed (h : next options ok mem pc = some (pc', mem')) (hpc : pc.WellFormed) :
    pc'.WellFormed := by
  cases next_advances h
  case reserve_prepared b payload offset new hdecision => exact hdecision
  case flush_won | rotated_before | rotate_exhausted | rotate_stored | submit_pushed | address_reset |
      cque_takes =>
    simp
  all_goals trivial

end WellFormed

/-! The fields of the state word after a step. -/

namespace Pc

def sealedAfter (b : Fin L) (x : Bool) : Pc L → Bool
  | .putSeal call => x || decide (call.current = b)
  | .currentSeal b' => x || decide (b' = b)
  | .resetState _ b' => x && decide (b' ≠ b)
  | _ => x

def flushingAfter (b : Fin L) (x : Bool) : Pc L → Bool
  | .putSetFlush call => x || decide (call.current = b)
  | .flushSet _ b' => x || decide (b' = b)
  | .resetState _ b' => x && decide (b' ≠ b)
  | _ => x

/-- The reservation of `b` this step grants while the word of `b` is `w`. -/
def Grants (b : Fin L) (w : Usize) : Pc L → Prop
  | .reserveExchange b' _ state _ _ => b' = b ∧ w = state
  | _ => False

/-- This step releases a reservation of `b`. -/
def Releases (b : Fin L) : Pc L → Prop
  | .putDecrement call => call.current = b
  | _ => False

/-- This step resets the word of `b`. -/
def Resets (b : Fin L) : Pc L → Prop
  | .resetState _ b' => b' = b
  | _ => False

end Pc

section Fields
variable {options : BufferRingOptions} {ok : Bool} {mem mem' : BufferRing L} {pc pc' : Pc L}
variable (b : Fin L)

/-- The sealed bit of a buffer after a step. -/
theorem next_sealed (h : next options ok mem pc = some (pc', mem')) (hpc : pc.WellFormed) :
    state_sealed (mem'.ring b).state = pc.sealedAfter b (state_sealed (mem.ring b).state) := by
  rw [next_state b h]
  cases pc
  case reserveExchange b' payload state offset new =>
    obtain ⟨_, _, _, _, hnew⟩ := FlushBuffer.reserve_decision_ok hpc
    simp only [Pc.wordAfter, Pc.sealedAfter]
    split
    next hif => rw [hnew, hif.2, state_sealed_reserved]
    next => rfl
  all_goals simp only [Pc.wordAfter, Pc.sealedAfter]
  all_goals split
  all_goals simp_all

theorem next_flushing (h : next options ok mem pc = some (pc', mem')) (hpc : pc.WellFormed) :
    state_flush_in_progress (mem'.ring b).state =
      pc.flushingAfter b (state_flush_in_progress (mem.ring b).state) := by
  rw [next_state b h]
  cases pc
  case reserveExchange b' payload state offset new =>
    obtain ⟨_, _, _, _, hnew⟩ := FlushBuffer.reserve_decision_ok hpc
    simp only [Pc.wordAfter, Pc.flushingAfter]
    split
    next hif => rw [hnew, hif.2, state_flush_in_progress_reserved]
    next => rfl
  all_goals simp only [Pc.wordAfter, Pc.flushingAfter]
  all_goals split
  all_goals simp_all

/-- A step that neither grants nor releases a reservation nor resets the word leaves the writer count
and the offset as they are. -/
theorem next_counts (h : next options ok mem pc = some (pc', mem'))
    (hgrant : ¬ pc.Grants b (mem.ring b).state) (hrelease : ¬ pc.Releases b) (hreset : ¬ pc.Resets b) :
    state_writers (mem'.ring b).state = state_writers (mem.ring b).state ∧
      state_offset (mem'.ring b).state = state_offset (mem.ring b).state := by
  rw [next_state b h]
  cases pc
  all_goals simp only [Pc.wordAfter, Pc.Grants, Pc.Releases, Pc.Resets, and_self] at *
  case putDecrement call => rw [if_neg hrelease]; exact ⟨rfl, rfl⟩
  case resetState caller b' => rw [if_neg hreset]; exact ⟨rfl, rfl⟩
  case reserveExchange b' payload state offset new => rw [if_neg hgrant]; exact ⟨rfl, rfl⟩
  all_goals
    split
    · simp
    · exact ⟨rfl, rfl⟩

/-- A release subtracts one writer from the word. -/
theorem next_released (h : next options ok mem pc = some (pc', mem')) (hrelease : pc.Releases b) :
    (mem'.ring b).state = (mem.ring b).state - WRITER_ONE := by
  rw [next_state b h]
  cases pc
  case putDecrement call => exact if_pos hrelease
  all_goals cases hrelease

/-- A reset clears the word. -/
theorem next_reset (h : next options ok mem pc = some (pc', mem')) (hreset : pc.Resets b) :
    (mem'.ring b).state = 0 := by
  rw [next_state b h]
  cases pc
  case resetState caller b' => exact if_pos hreset
  all_goals cases hreset

/-- The filling of a buffer ends only with a reset. -/
theorem next_number (h : next options ok mem pc = some (pc', mem')) (hreset : ¬ pc.Resets b) :
    (mem'.ring b).filling.number = (mem.ring b).filling.number := by
  rw [next_filling b h]
  cases pc
  all_goals simp only [Pc.fillingAfter]
  case resetState caller b' => exact congrArg Filling.number (if_neg hreset)
  all_goals split <;> rfl

end Fields

end FlushRing
