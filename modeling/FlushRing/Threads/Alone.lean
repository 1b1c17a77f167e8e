import FlushRing.Threads.Step

open StateTransition

namespace FlushRing

variable {L : Nat}

/-- Between calls, or between two accesses of the loop of `check_cque` that handle a completion each. -/
def Pc.pauses : Pc L → Bool
  | .idle => true
  | .reserved _ _ _ => true
  | .returned _ _ => true
  | .cqueDrain => true
  | .cqueNext _ => true
  | _ => false

/-- A thread that runs alone until it pauses, every submit it makes having the outcome `ok`. -/
def alone (options : BufferRingOptions) (ok : Bool) (x : Pc L × BufferRing L) :
    Option (Pc L × BufferRing L) :=
  if x.1.pauses then none else next options ok x.2 x.1

section Alone
variable {options : BufferRingOptions} {ok : Bool} {mem mem' : BufferRing L} {pc pc' : Pc L}
  {x y : Pc L × BufferRing L}

theorem alone_first (hpc : pc.pauses = false) (hnext : next options ok mem pc = some x)
    (h : Reaches (alone options ok) x y) : Reaches (alone options ok) (pc, mem) y := by
  refine .head ?_ h
  simp only [alone, hpc, Bool.false_eq_true, if_false]
  exact hnext

theorem alone_pauses (hx : x.1.pauses = true) : alone options ok x = none := by
  simp only [alone, hx, if_true]

/-- A thread comes to rest in one way. -/
theorem alone_unique (hx : Reaches (alone options ok) (pc, mem) x)
    (hy : Reaches (alone options ok) (pc, mem) y) (hxpauses : x.1.pauses = true)
    (hypauses : y.1.pauses = true) : x = y := by
  have hx' : x ∈ eval (alone options ok) (pc, mem) := mem_eval.mpr ⟨hx, alone_pauses hxpauses⟩
  have hy' : y ∈ eval (alone options ok) (pc, mem) := mem_eval.mpr ⟨hy, alone_pauses hypauses⟩
  exact Part.mem_unique hx' hy'

/-! What each function does when nothing else steps. -/

/-- A `reserve_space` that nobody interrupts does what the function does in one go. -/
theorem reserve_space_alone (b : Fin L) (payload : Slice) {result : Except BufferError Usize}
    {after : FlushBuffer L} (h : (mem.ring b).reserve_space payload.len = some (result, after)) :
    Reaches (alone options ok) (.reserveLoad b payload, mem)
      (.reserved b payload result, mem.modify b fun _ => after) := by
  unfold FlushBuffer.reserve_space at h
  split at h
  next =>
    split at h
    next e hdecision =>
      cases h
      refine alone_first rfl ?_ .refl
      have hsame : mem.modify b (fun _ => mem.ring b) = mem := by
        simp only [BufferRing.modify, Function.update_eq_self]
      simp only [next, hdecision, hsame]
    next offset new hdecision =>
      cases h
      refine alone_first (x := (.reserveExchange b payload (mem.ring b).state offset new, mem)) rfl ?_ ?_
      · simp only [next, hdecision]
      · refine alone_first rfl ?_ .refl
        simp only [next, if_true]
        rfl
  next => cases h

/-- The scan of a rotation that nobody interrupts finds what `rotate_scan` finds. -/
theorem rotate_scan_alone (caller : RotateCaller L) (current : Fin L) (size : Usize) (n : Nat)
    (mem : BufferRing L) :
    Reaches (alone options ok) (.rotateNext caller current size n, mem)
      (Pc.afterRotate caller, (BufferRing.rotate_scan current size n mem).2) := by
  induction n generalizing mem with
  | zero => exact alone_first rfl rfl .refl
  | succ n ih =>
    refine alone_first rfl rfl ?_
    unfold BufferRing.rotate_scan
    dsimp only
    split
    next hfree =>
      refine alone_first (x := (.rotateSwap caller current size _, _)) rfl (if_pos hfree) ?_
      exact alone_first rfl rfl (alone_first rfl rfl (alone_first rfl rfl .refl))
    next htaken =>
      exact alone_first (x := (.rotateNext caller current size n, _)) rfl (if_neg htaken) (ih _)

/-- A rotation that nobody interrupts is `rotate_after_seal`. -/
theorem rotate_after_seal_alone (caller : RotateCaller L) (sealed_pos : Fin L) (mem : BufferRing L) :
    Reaches (alone options ok) (.rotateLoad caller sealed_pos, mem)
      (Pc.afterRotate caller, (mem.rotate_after_seal sealed_pos).2) := by
  refine alone_first rfl rfl ?_
  unfold BufferRing.rotate_after_seal
  by_cases hpos : mem.current_buffer ≠ sealed_pos
  · simp only [if_pos hpos]
    exact alone_first rfl (if_pos hpos) .refl
  · simp only [if_neg hpos]
    exact alone_first (x := (.rotateNext caller _ _ L, mem)) rfl (if_neg hpos) (rotate_scan_alone _ _ _ _ _)

/-- The two stores of a reset in a row are `reset_buffer`. -/
theorem reset_buffer_alone (caller : ResetCaller L) (b : Fin L) (mem : BufferRing L) :
    Reaches (alone options ok) (.resetState caller b, mem)
      (Pc.afterReset b caller, mem.reset_buffer b) :=
  alone_first rfl rfl (alone_first rfl rfl .refl)

/-- A flush that nobody interrupts is `flush`. -/
theorem flush_alone (caller : FlushCaller L) (b : Fin L) (mem : BufferRing L) :
    Reaches (alone options ok) (.flushSet caller b, mem)
      (Pc.afterFlush b caller, mem.flush options ok b) := by
  unfold BufferRing.flush
  cases hstore : options.io_instance with
  | none =>
    refine alone_first (x := (.resetState (.flush caller) b, _)) rfl ?_ (reset_buffer_alone _ _ _)
    simp only [next, hstore]
  | some store =>
    let marked := mem.modify b FlushBuffer.set_flush_in_progress
    refine alone_first (x := (.submitData caller b, marked)) rfl ?_ ?_
    · simp only [next, hstore, marked]
    · refine alone_first rfl rfl (alone_first rfl rfl (alone_first rfl ?_ .refl))
      simp only [next, hstore, BufferRing.submit_buffer, marked]

/-- What `put` does once it owns the flush. -/
theorem dispatch_alone (call : PutCall L) (mem : BufferRing L) :
    Reaches (alone options ok) (Pc.afterOwning options call, mem)
      (.returned call (.ok .SuccessfullWriteFlush), mem.dispatch options ok call.current) := by
  unfold Pc.afterOwning BufferRing.dispatch
  cases options.io_instance with
  | none => exact reset_buffer_alone (.put call) call.current mem
  | some store =>
    cases options.auto_flush with
    | true => exact flush_alone (.put call) call.current mem
    | false => exact reset_buffer_alone (.put call) call.current mem

/-- The end of `put` once it tries to take the flush. -/
theorem set_flush_alone (options : BufferRingOptions) (ok : Bool) (call : PutCall L) (mem : BufferRing L) :
    let marked := mem.modify call.current FlushBuffer.set_flush_in_progress
    let r :=
      if state_flush_in_progress (mem.ring call.current).state then (Pc.flushLost call, marked)
      else (.ok .SuccessfullWriteFlush, marked.dispatch options ok call.current)
    Reaches (alone options ok) (.putSetFlush call, mem) (.returned call r.1, r.2) := by
  intro marked
  by_cases hflush : state_flush_in_progress (mem.ring call.current).state = true
  · simp only [if_pos hflush]
    refine alone_first rfl ?_ .refl
    simp only [next, if_pos hflush, marked]
  · simp only [if_neg hflush]
    refine alone_first (x := (Pc.afterOwning options call, marked)) rfl ?_ (dispatch_alone call marked)
    simp only [next, if_neg hflush, marked]

/-- The end of a sealing `put`, from its last look at the writers on. -/
theorem put_reloads_alone {call : PutCall L} (hlost : Pc.flushLost call = .error .EncounteredSealedBuffer)
    (mem : BufferRing L) :
    let marked := mem.modify call.current FlushBuffer.set_flush_in_progress
    let r :=
      if state_writers (mem.ring call.current).state = 0 then
        if state_flush_in_progress (mem.ring call.current).state then
          (.error .EncounteredSealedBuffer, marked)
        else (.ok .SuccessfullWriteFlush, marked.dispatch options ok call.current)
      else (.error .EncounteredSealedBuffer, mem)
    Reaches (alone options ok) (.putReload call, mem) (.returned call r.1, r.2) := by
  intro marked
  by_cases hwriters : state_writers (mem.ring call.current).state = 0
  · simp only [if_pos hwriters]
    have hset := set_flush_alone options ok call mem
    rw [hlost] at hset
    refine alone_first (x := (.putSetFlush call, mem)) rfl ?_ hset
    simp only [next, if_pos hwriters]
  · simp only [if_neg hwriters]
    refine alone_first rfl ?_ .refl
    simp only [next, if_neg hwriters]

/-- A `put` that found no space and runs alone does what the function does in one go. -/
theorem put_seals_alone {call : PutCall L} (hresult : call.reserve_result = .error .InsufficientSpace)
    (mem : BufferRing L) :
    Reaches (alone options ok) (.putSeal call, mem)
      (.returned call (mem.put options ok call.current (.error .InsufficientSpace) call.payload).1,
        (mem.put options ok call.current (.error .InsufficientSpace) call.payload).2) := by
  let sealed := mem.modify call.current FlushBuffer.set_sealed
  let padded := next_multiple_of (sealed.ring call.current).size FOUR_KB_BLOCK
  let claimed := (sealed.incrment_address padded).2
  let stored := claimed.modify call.current (·.store_address sealed.next_address_range)
  have hlost : Pc.flushLost call = .error .EncounteredSealedBuffer := by
    rw [Pc.flushLost, hresult]
  unfold BufferRing.put
  dsimp only
  by_cases hsealed : state_sealed (mem.ring call.current).state = true
  · simp only [if_pos hsealed]
    refine alone_first rfl ?_ .refl
    simp only [next, if_pos hsealed]
  · simp only [if_neg hsealed]
    refine alone_first (x := (.putSize call, sealed)) rfl ?_ (alone_first rfl rfl (alone_first rfl rfl ?_))
    · simp only [next, if_neg hsealed, sealed]
    · cases hrotate : options.auto_rotate with
      | true =>
        refine alone_first (x := (.rotateLoad (.put call) call.current, stored)) rfl ?_ ?_
        · simp only [next, hrotate, if_true]
          rfl
        · refine (rotate_after_seal_alone (.put call) call.current stored).trans ?_
          exact put_reloads_alone hlost (stored.rotate_after_seal call.current).2
      | false =>
        refine alone_first (x := (.putReload call, stored)) rfl ?_ (put_reloads_alone hlost stored)
        simp only [next, hrotate]
        rfl

/-- A `put` that has a range to copy to and runs alone does what the function does in one go. -/
theorem put_copies_alone {call : PutCall L} {offset : Usize} (hresult : call.reserve_result = .ok offset)
    (mem : BufferRing L) :
    Reaches (alone options ok) (.putWrite call offset, mem)
      (.returned call (mem.put options ok call.current (.ok offset) call.payload).1,
        (mem.put options ok call.current (.ok offset) call.payload).2) := by
  let written := mem.modify call.current (·.write offset call.payload)
  let released := written.modify call.current FlushBuffer.decrement_writers
  have hlost : Pc.flushLost call = .ok .SuccessfullWrite := by
    rw [Pc.flushLost, hresult]
  refine alone_first rfl rfl ?_
  unfold BufferRing.put
  dsimp only
  split
  next hlast =>
    have hset := set_flush_alone options ok call released
    rw [hlost] at hset
    exact alone_first (x := (.putSetFlush call, released)) rfl (if_pos hlast) hset
  next hlast => exact alone_first rfl (if_neg hlast) .refl

/-- A `put` that nobody interrupts is the function `put`. -/
theorem put_alone (call : PutCall L) (mem : BufferRing L) :
    Reaches (alone options ok) (Pc.putEntry call, mem)
      (.returned call (mem.put options ok call.current call.reserve_result call.payload).1,
        (mem.put options ok call.current call.reserve_result call.payload).2) := by
  unfold Pc.putEntry
  cases hresult : call.reserve_result with
  | ok offset => exact put_copies_alone hresult mem
  | error e =>
    cases e with
    | InsufficientSpace => exact put_seals_alone hresult mem
    | _ => exact .refl

/-- A `flush_current` that nobody interrupts is the function. -/
theorem flush_current_alone (mem : BufferRing L) :
    Reaches (alone options ok) (.currentLoad, mem) (.idle, (mem.flush_current options ok).2) := by
  refine alone_first rfl rfl ?_
  unfold BufferRing.flush_current
  dsimp only
  by_cases hempty : (mem.ring mem.current_buffer).size = 0
  · simp only [if_pos hempty]
    refine alone_first rfl ?_ .refl
    simp only [next, if_pos hempty]
  · simp only [if_neg hempty]
    refine alone_first (x := (.currentSeal mem.current_buffer, mem)) rfl ?_ ?_
    · simp only [next, if_neg hempty]
    · refine alone_first rfl rfl (alone_first rfl rfl (alone_first rfl rfl (alone_first rfl rfl ?_)))
      exact (flush_alone .flush_current mem.current_buffer _).trans
        (rotate_after_seal_alone .flush_current mem.current_buffer _)

/-- The body of the loop of `check_cque`. -/
theorem handle_cqe_alone (cqe : Cqe L) (rest : List (Cqe L)) (mem : BufferRing L) :
    Reaches (alone options ok) (Pc.cqueEntry options cqe rest, mem)
      (.cqueNext rest, mem.handle_cqe options ok cqe) := by
  unfold Pc.cqueEntry BufferRing.handle_cqe
  cases cqe.user_data with
  | none => exact .refl
  | some b =>
    by_cases hfailed : cqe.result < 0
    · simp only [if_pos hfailed]
      exact alone_first rfl rfl .refl
    · simp only [if_neg hfailed]
      by_cases hreport : options.cq_tx = true
      · simp only [if_pos hreport]
        refine alone_first rfl rfl (alone_first rfl rfl (alone_first rfl rfl ?_))
        exact reset_buffer_alone (.check_cque cqe rest) b _
      · simp only [if_neg hreport]
        exact reset_buffer_alone (.check_cque cqe rest) b mem

end Alone

end FlushRing
