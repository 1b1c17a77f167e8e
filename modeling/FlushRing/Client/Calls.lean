import FlushRing.Ring.Rotation

namespace FlushRing

variable {L : Nat}

namespace FlushBuffer

/-- The entry `submit_buffer` builds for a buffer at position `b`. -/
def entry (self : FlushBuffer L) (store : QuikIO) (b : Fin L) : Sqe L :=
  { opcode := .Write b (self.data_len.setWidth 32), offset := self.local_address,
    flags := store.get_backing_store.mode.flags, user_data := some b,
    filling := self.filling.number }

/-- What a call does to the buffers it is not about: nothing, except that a free one may be given an
address. -/
def Kept (self after : FlushBuffer L) : Prop :=
  after = self ∨ self.is_available = true ∧ ∃ slot, after = BufferRing.adopt_address slot self

/-- What `is_available` asks of the word. -/
theorem is_available_iff (self : FlushBuffer L) :
    self.is_available = true ↔ state_sealed self.state = false ∧
      state_flush_in_progress self.state = false ∧ self.size = 0 := by
  unfold is_available
  rw [Bool.and_eq_true, beq_iff_eq, beq_iff_eq]
  exact (and_congr_left' (flags_clear_iff self.state)).trans and_assoc

namespace Kept
variable {self after : FlushBuffer L}

theorem refl (self : FlushBuffer L) : self.Kept self := .inl rfl

/-- Only the address of a buffer that is kept can differ. -/
theorem field {α : Type} (h : self.Kept after) (field : FlushBuffer L → α)
    (hfield : ∀ (buffer : FlushBuffer L) slot, field { buffer with local_address := slot } = field buffer) :
    field after = field self := by
  obtain rfl | ⟨_, slot, rfl⟩ := h
  · rfl
  · exact hfield self _

theorem state (h : self.Kept after) : after.state = self.state := h.field (·.state) fun _ _ => rfl

theorem buf (h : self.Kept after) : after.buf = self.buf := h.field (·.buf) fun _ _ => rfl

theorem sqe (h : self.Kept after) : after.sqe = self.sqe := h.field (·.sqe) fun _ _ => rfl

theorem filling (h : self.Kept after) : after.filling = self.filling :=
  h.field (·.filling) fun _ _ => rfl

/-- A buffer that is not free is left as it is. -/
theorem eq_of_busy (h : self.Kept after) (hbusy : self.is_available = false) : after = self := by
  obtain heq | ⟨hfree, _⟩ := h
  · exact heq
  · rw [hbusy] at hfree
    cases hfree

/-- A sealed buffer that is kept is unchanged. -/
theorem eq_of_sealed (h : self.Kept after) (hsealed : state_sealed self.state = true) :
    after = self := by
  apply h.eq_of_busy
  rw [Bool.eq_false_iff, ne_eq, is_available_iff, hsealed]
  simp

theorem eq_of_still_sealed (h : self.Kept after) (hsealed : state_sealed after.state = true) :
    after = self := by
  rw [h.state] at hsealed
  exact h.eq_of_sealed hsealed

/-- A buffer that is being flushed and kept is unchanged. -/
theorem eq_of_flushing (h : self.Kept after) (hflush : state_flush_in_progress self.state = true) :
    after = self := by
  apply h.eq_of_busy
  rw [Bool.eq_false_iff, ne_eq, is_available_iff, hflush]
  simp

theorem trans {last : FlushBuffer L} (h : self.Kept after) (h' : after.Kept last) :
    self.Kept last := by
  obtain rfl | ⟨hfree, slot, rfl⟩ := h
  · exact h'
  · right
    refine ⟨hfree, ?_⟩
    obtain rfl | ⟨_, slot', rfl⟩ := h'
    · exact ⟨slot, rfl⟩
    · by_cases haddress : self.local_address = 0#64
      · by_cases hslot : slot = 0#64
        · exact ⟨slot', by simp [BufferRing.adopt_address, haddress, hslot]⟩
        · exact ⟨slot, by simp [BufferRing.adopt_address, haddress, hslot]⟩
      · exact ⟨slot, by simp [BufferRing.adopt_address, haddress]⟩

end Kept

/-- The buffer `reset_buffer` leaves. -/
def reset (self : FlushBuffer L) : FlushBuffer L := self.clear_state.store_address 0

/-- The buffer `put` and `flush_current` leave once they have sealed it and claimed `slot`. -/
def sealed_at (self : FlushBuffer L) (slot : Usize) : FlushBuffer L :=
  self.set_sealed.store_address slot

@[simp] theorem sealed_at_size (self : FlushBuffer L) (slot : Usize) :
    (self.sealed_at slot).size = self.size :=
  state_offset_or_sealed _

theorem set_flush_in_progress_of_flushing {self : FlushBuffer L}
    (h : state_flush_in_progress self.state = true) : self.set_flush_in_progress = self := by
  rw [set_flush_in_progress, or_flush_of_flushing h]

@[simp] theorem set_flush_in_progress_twice (self : FlushBuffer L) :
    self.set_flush_in_progress.set_flush_in_progress = self.set_flush_in_progress :=
  set_flush_in_progress_of_flushing (state_flush_in_progress_or_flush _)

@[simp] theorem size_set_flush_in_progress (self : FlushBuffer L) :
    self.set_flush_in_progress.size = self.size :=
  state_offset_or_flush _

@[simp] theorem entry_set_flush_in_progress (self : FlushBuffer L) (store : QuikIO) (b : Fin L) :
    self.set_flush_in_progress.entry store b = self.entry store b := by
  simp [entry, data_len]

end FlushBuffer

namespace BufferRing

theorem modify_eq_self {self : BufferRing L} {b : Fin L} {f : FlushBuffer L → FlushBuffer L}
    (h : f (self.ring b) = self.ring b) : self.modify b f = self := by
  rw [modify, h, Function.update_eq_self]

/-- A reset empties its buffer and leaves the others alone. -/
theorem reset_buffer_ring (self : BufferRing L) (b c : Fin L) :
    (self.reset_buffer b).ring c = if b = c then (self.ring c).reset else self.ring c := by
  rw [reset_buffer, modify_ring, modify_ring]
  split <;> rfl

/-- What `check_cque` does for a successful completion before it resets the buffer. -/
def report (options : BufferRingOptions) (self : BufferRing L) (b : Fin L) : BufferRing L :=
  if options.cq_tx then self.send b (self.ring b).local_address (self.ring b).size else self

section Report
variable (options : BufferRingOptions) (self : BufferRing L) (b : Fin L)

@[simp] theorem report_ring : (self.report options b).ring = self.ring := by
  unfold report
  split <;> rfl

@[simp] theorem report_io : (self.report options b).io = self.io := by
  unfold report
  split <;> rfl

@[simp] theorem report_file : (self.report options b).file = self.file := by
  unfold report
  split <;> rfl

@[simp] theorem report_address :
    (self.report options b).next_address_range = self.next_address_range := by
  unfold report
  split <;> rfl

@[simp] theorem report_current : (self.report options b).current_buffer = self.current_buffer := by
  unfold report
  split <;> rfl

end Report

/-- `mem'` is the ring with buffer `b` replaced by `x`. -/
structure Changed (mem mem' : BufferRing L) (b : Fin L) (x : FlushBuffer L) : Prop where
  target : mem'.ring b = x
  others : ∀ c ≠ b, (mem.ring c).Kept (mem'.ring c)
  io : mem'.io = mem.io
  file : mem'.file = mem.file
  sent : mem'.sent = mem.sent

/-- `mem'` is the ring once buffer `b`, standing as `x`, was handed to `flush`: its entry is refused
by a full queue, or queued and stored in it. -/
structure Launched (store : QuikIO) (ok : Bool) (mem mem' : BufferRing L) (b : Fin L)
    (x : FlushBuffer L) : Prop where
  outcome : (mem.io.push (x.entry store b) = none ∧ mem'.io = mem.io ∧
      mem'.ring b = x.set_flush_in_progress) ∨
    ∃ io, mem.io.push (x.entry store b) = some io ∧ mem'.io = io.submit ok ∧
      mem'.ring b = { x.set_flush_in_progress with sqe := some (x.entry store b) }
  others : ∀ c ≠ b, (mem.ring c).Kept (mem'.ring c)
  file : mem'.file = mem.file
  sent : mem'.sent = mem.sent

/-- A call on a buffer that is not being flushed leaves those that are alone. -/
theorem flushing_kept {mem mem' : BufferRing L} {b c : Fin L}
    (hothers : ∀ c ≠ b, (mem.ring c).Kept (mem'.ring c))
    (hclear : state_flush_in_progress (mem.ring b).state = false)
    (hflush : state_flush_in_progress (mem.ring c).state = true) : mem'.ring c = mem.ring c := by
  refine (hothers c ?_).eq_of_flushing hflush
  rintro rfl
  rw [hclear] at hflush
  cases hflush

section Rotation

/-- What a rotation may do: give a free buffer an address. -/
structure Rotated (mem mem' : BufferRing L) : Prop where
  ring : ∀ c, (mem.ring c).Kept (mem'.ring c)
  io : mem'.io = mem.io
  file : mem'.file = mem.file
  sent : mem'.sent = mem.sent

/-- A scan gives a free buffer an address at most, and claims the size if one of the next `n` buffers is free. -/
theorem rotate_scan_spec (current : Fin L) (size : Usize) (n : Nat) (self : BufferRing L) :
    Rotated self (rotate_scan current size n self).2 ∧
      (rotate_scan current size n self).2.next_address_range =
        if self.free_ahead n then self.next_address_range + size else self.next_address_range := by
  induction n generalizing self with
  | zero => exact ⟨⟨fun c => .refl _, rfl, rfl, rfl⟩, rfl⟩
  | succ n ih =>
    rw [free_ahead_succ, rotate_scan]
    simp only
    by_cases hfree : (self.ring (self.candidate self.next_index)).is_available = true
    · have hcandidate : ({ self with next_index := self.next_index + 1 }.candidate self.next_index) =
          self.candidate self.next_index := rfl
      rw [hcandidate, hfree, if_pos rfl, Bool.true_or, if_pos rfl]
      refine ⟨⟨fun c => ?_, ?_, ?_, ?_⟩, ?_⟩
      · simp only [reserve_buf_addr, incrment_address, modify_ring, swap_current_ring]
        split
        next heq =>
          rw [← heq]
          exact .inr ⟨hfree, _, rfl⟩
        next => exact .refl _
      all_goals simp [reserve_buf_addr, incrment_address]
    · have hcandidate : ({ self with next_index := self.next_index + 1 }.candidate self.next_index) =
          self.candidate self.next_index := rfl
      rw [hcandidate, if_neg hfree, Bool.eq_false_iff.mpr hfree, Bool.false_or]
      obtain ⟨hrotated, haddress⟩ := ih { self with next_index := self.next_index + 1 }
      exact ⟨⟨hrotated.ring, hrotated.io, hrotated.file, hrotated.sent⟩, haddress⟩

/-- A rotation away from the current buffer claims its size if any buffer is free, any other claims nothing. -/
theorem rotate_after_seal_spec (self : BufferRing L) (sealed_pos : Fin L) :
    Rotated self (self.rotate_after_seal sealed_pos).2 ∧
      (self.rotate_after_seal sealed_pos).2.next_address_range =
        if self.current_buffer = sealed_pos ∧ self.free_ahead L = true then
          self.next_address_range + (self.ring sealed_pos).size
        else self.next_address_range := by
  unfold rotate_after_seal
  by_cases hcurrent : self.current_buffer = sealed_pos
  · simp only [hcurrent, ne_eq, not_true_eq_false, if_false, true_and]
    exact rotate_scan_spec _ _ L self
  · simp only [hcurrent, ne_eq, not_false_eq_true, if_true, false_and, if_false, and_true]
    exact ⟨fun c => .refl _, rfl, rfl, rfl⟩

end Rotation

namespace Changed
variable {mem mem' mem'' : BufferRing L} {b : Fin L} {x : FlushBuffer L}

theorem of_modify (mem : BufferRing L) (b : Fin L) (f : FlushBuffer L → FlushBuffer L) :
    Changed mem (mem.modify b f) b (f (mem.ring b)) where
  target := modify_ring_self mem b f
  others c hc := by
    rw [modify_ring, if_neg (Ne.symm hc)]
    exact .refl _
  io := rfl
  file := rfl
  sent := rfl

theorem modify (h : Changed mem mem' b x) (f : FlushBuffer L → FlushBuffer L) :
    Changed mem (mem'.modify b f) b (f x) where
  target := by rw [modify_ring_self, h.target]
  others c hc := by
    rw [modify_ring, if_neg (Ne.symm hc)]
    exact h.others c hc
  io := h.io
  file := h.file
  sent := h.sent

/-- A property of every buffer, from the replaced one and the kept ones. -/
theorem forall_ring {P : Fin L → FlushBuffer L → Prop} (h : Changed mem mem' b x) (hx : P b x)
    (hothers : ∀ c ≠ b, ∀ y, (mem.ring c).Kept y → P c y) (c : Fin L) : P c (mem'.ring c) := by
  by_cases hc : c = b
  · rw [hc, h.target]
    exact hx
  · exact hothers c hc _ (h.others c hc)

/-- A changed buffer that is then reset. -/
theorem reset_buffer (h : Changed mem mem' b x) : Changed mem (mem'.reset_buffer b) b x.reset :=
  (h.modify _).modify _

/-- A rotation after the change leaves a sealed buffer as it is. -/
theorem rotated (h : Changed mem mem' b x) (hrotated : Rotated mem' mem'')
    (hsealed : state_sealed x.state = true) : Changed mem mem'' b x where
  target := by
    rw [← h.target]
    apply (hrotated.ring b).eq_of_sealed
    rw [h.target]
    exact hsealed
  others c hc := (h.others c hc).trans (hrotated.ring c)
  io := hrotated.io.trans h.io
  file := hrotated.file.trans h.file
  sent := hrotated.sent.trans h.sent

/-- A changed buffer that is then submitted. -/
theorem launched {store : QuikIO} {ok : Bool} (h : Changed mem mem' b x)
    (hlaunch : Launched store ok mem' mem'' b x) : Launched store ok mem mem'' b x where
  outcome := by
    have houtcome := hlaunch.outcome
    rw [h.io] at houtcome
    exact houtcome
  others c hc := (h.others c hc).trans (hlaunch.others c hc)
  file := hlaunch.file.trans h.file
  sent := hlaunch.sent.trans h.sent

end Changed

namespace Launched
variable {store : QuikIO} {ok : Bool} {mem mem' mem'' : BufferRing L} {b : Fin L} {x : FlushBuffer L}

/-- The submitted buffer is being flushed. -/
theorem target_state (h : Launched store ok mem mem' b x) :
    (mem'.ring b).state = x.state ||| FLUSH_IN_PROGRESS_BIT := by
  obtain ⟨_, _, htarget⟩ | ⟨_, _, _, htarget⟩ := h.outcome
  all_goals rw [htarget]
  all_goals rfl

/-- A property of every buffer that the stored entry does not matter for. -/
theorem forall_ring {P : Fin L → FlushBuffer L → Prop} (h : Launched store ok mem mem' b x)
    (hx : ∀ sqe, P b { x.set_flush_in_progress with sqe })
    (hothers : ∀ c ≠ b, ∀ y, (mem.ring c).Kept y → P c y) (c : Fin L) : P c (mem'.ring c) := by
  by_cases hc : c = b
  · subst c
    obtain ⟨_, _, htarget⟩ | ⟨_, _, _, htarget⟩ := h.outcome
    · rw [htarget]
      exact hx x.sqe
    · rw [htarget]
      exact hx _
  · exact hothers c hc _ (h.others c hc)

/-- A launch pushes and stores the entry of its buffer, or does neither. -/
theorem pushed_cases (h : Launched store ok mem mem' b x) (hsqe : x.sqe = (mem.ring b).sqe) :
    (mem'.io.pushed = mem.io.pushed ∧ ∀ c, (mem'.ring c).sqe = (mem.ring c).sqe) ∨
      (mem.io.sq.length < SQ_ENTRIES ∧ mem'.io.pushed = mem.io.pushed ++ [x.entry store b] ∧
        ∀ c e, (mem'.ring c).sqe = some e → (mem.ring c).sqe = some e ∨ e = x.entry store b) := by
  obtain ⟨_, hio, htarget⟩ | ⟨io, hpush, hio, htarget⟩ := h.outcome
  · refine .inl ⟨congrArg IoUring.pushed hio, fun c => ?_⟩
    by_cases hc : c = b
    · subst c
      rw [htarget]
      exact hsqe
    · exact (h.others c hc).sqe
  · obtain ⟨hroom, rfl⟩ := IoUring.push_eq_some hpush
    refine .inr ⟨hroom, ?_, fun c e hstored => ?_⟩
    · rw [hio, IoUring.submit_pushed]
    · by_cases hc : c = b
      · subst c
        rw [htarget] at hstored
        exact .inr (Option.some.inj hstored).symm
      · rw [(h.others c hc).sqe] at hstored
        exact .inl hstored

/-- The entries kept for a retry stay among those pushed. -/
theorem keeps_stored (h : Launched store ok mem mem' b x) (hsqe : x.sqe = (mem.ring b).sqe)
    (hstored : ∀ c e, (mem.ring c).sqe = some e → e ∈ mem.io.pushed) (c : Fin L) (e : Sqe L)
    (he : (mem'.ring c).sqe = some e) : e ∈ mem'.io.pushed := by
  obtain ⟨hpushed, hsame⟩ | ⟨_, hpushed, hnew⟩ := h.pushed_cases hsqe
  · rw [hpushed]
    rw [hsame] at he
    exact hstored c e he
  · rw [hpushed, List.mem_append, List.mem_singleton]
    exact (hnew c e he).imp_left (hstored c e)

theorem rotated (h : Launched store ok mem mem' b x) (hrotated : Rotated mem' mem'') :
    Launched store ok mem mem'' b x where
  outcome := by
    have htarget : mem''.ring b = mem'.ring b := by
      apply (hrotated.ring b).eq_of_flushing
      rw [h.target_state]
      exact state_flush_in_progress_or_flush _
    rw [htarget, hrotated.io]
    exact h.outcome
  others c hc := (h.others c hc).trans (hrotated.ring c)
  file := hrotated.file.trans h.file
  sent := hrotated.sent.trans h.sent

end Launched

section Flush
variable {options : BufferRingOptions} {store : QuikIO}

/-- `flush` submits its buffer and claims nothing. -/
theorem flush_launched (hstore : options.io_instance = some store) (ok : Bool) (self : BufferRing L)
    (b : Fin L) :
    Launched store ok self (self.flush options ok b) b (self.ring b) ∧
      (self.flush options ok b).next_address_range = self.next_address_range := by
  have hflush : self.flush options ok b =
      (self.modify b FlushBuffer.set_flush_in_progress).submit_buffer store ok b := by
    rw [flush]
    simp only [hstore]
  have hentry : (self.modify b FlushBuffer.set_flush_in_progress).writeEntry store b
      (self.ring b).set_flush_in_progress.data_len (self.ring b).local_address =
      (self.ring b).entry store b := by
    rw [← FlushBuffer.entry_set_flush_in_progress, writeEntry, modify_ring_self]
    rfl
  rw [hflush, submit_buffer, modify_ring_self]
  have hcases := submit_raw_cases (self.modify b FlushBuffer.set_flush_in_progress) store ok b
    (self.ring b).set_flush_in_progress.data_len (self.ring b).local_address
  rw [hentry] at hcases
  refine ⟨⟨?_, fun c hc => ?_, rfl, rfl⟩, rfl⟩
  · obtain ⟨hpush, hsame⟩ | ⟨io, hpush, hio, hsqe, _⟩ := hcases
    · left
      refine ⟨hpush, ?_, ?_⟩
      · exact (congrArg (·.io) hsame).trans (modify_io _ _ _)
      · exact (congrArg (·.ring b) hsame).trans (modify_ring_self _ _ _)
    · right
      refine ⟨io, hpush, hio, ?_⟩
      rw [← hsqe]
      simp [submit_raw]
  · left
    obtain ⟨_, hsame⟩ | ⟨_, _, _, _, hsame⟩ := hcases
    · refine (congrArg (·.ring c) hsame).trans ?_
      exact (modify_ring _ _ _ _).trans (if_neg (Ne.symm hc))
    · exact (hsame c hc).trans ((modify_ring _ _ _ _).trans (if_neg (Ne.symm hc)))

/-- A call that owns the flush of `b` hands it over with `auto_flush`, and resets it without. -/
theorem Changed.dispatch {mem mem' : BufferRing L} {b : Fin L} {x : FlushBuffer L}
    (h : Changed mem mem' b x) (hstore : options.io_instance = some store) (ok : Bool) :
    (if options.auto_flush then
      Launched store ok mem
        ((mem'.modify b FlushBuffer.set_flush_in_progress).dispatch options ok b) b x
    else Changed mem ((mem'.modify b FlushBuffer.set_flush_in_progress).dispatch options ok b) b
      x.set_flush_in_progress.reset) ∧
      ((mem'.modify b FlushBuffer.set_flush_in_progress).dispatch options ok b).next_address_range =
        mem'.next_address_range := by
  have hset := h.modify FlushBuffer.set_flush_in_progress
  cases hauto : options.auto_flush with
  | true =>
    have hdispatch : (mem'.modify b FlushBuffer.set_flush_in_progress).dispatch options ok b =
        (mem'.modify b FlushBuffer.set_flush_in_progress).flush options ok b := by
      rw [BufferRing.dispatch]
      simp only [hstore, hauto, if_true]
    obtain ⟨hlaunch, haddress⟩ :=
      flush_launched hstore ok (mem'.modify b FlushBuffer.set_flush_in_progress) b
    rw [hset.target] at hlaunch
    have hlaunch := hset.launched hlaunch
    rw [if_pos rfl, hdispatch]
    refine ⟨⟨?_, hlaunch.others, hlaunch.file, hlaunch.sent⟩, haddress⟩
    simpa using hlaunch.outcome
  | false =>
    have hdispatch : (mem'.modify b FlushBuffer.set_flush_in_progress).dispatch options ok b =
        (mem'.modify b FlushBuffer.set_flush_in_progress).reset_buffer b := by
      rw [BufferRing.dispatch]
      simp [hstore, hauto]
    rw [hdispatch]
    exact ⟨hset.reset_buffer, rfl⟩

end Flush

end BufferRing

end FlushRing
