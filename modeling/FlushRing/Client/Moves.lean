import FlushRing.Client.Calls
import FlushRing.Client.Machine

namespace FlushRing

variable {L : Nat}

namespace BufferRing
variable {options : BufferRingOptions}

/-- The claims of a `put` that seals `b`: the padded size of its data, and once more its size if the
rotation found a free buffer. -/
def Claimed (self mem : BufferRing L) (b : Fin L) : Prop :=
  mem.next_address_range = self.next_address_range + (self.ring b).data_len ∨
    mem.next_address_range =
      self.next_address_range + (self.ring b).data_len + (self.ring b).size

/-- The ring once `b` is sealed and has claimed `val` bytes of the file. -/
def claim (self : BufferRing L) (b : Fin L) (val : Usize) : BufferRing L :=
  ((self.modify b FlushBuffer.set_sealed).incrment_address val).2.modify b
    (·.store_address self.next_address_range)

/-- The ring a `put` that seals `b` leaves before it looks at the writers. -/
def sealing (options : BufferRingOptions) (self : BufferRing L) (b : Fin L) : BufferRing L :=
  let claimed := self.claim b (self.ring b).data_len
  if options.auto_rotate then (claimed.rotate_after_seal b).2 else claimed

section Sealing
variable (self : BufferRing L) (b : Fin L) (val : Usize)

/-- A claim changes its buffer only. -/
theorem claim_changed :
    Changed self (self.claim b val) b ((self.ring b).sealed_at self.next_address_range) := by
  have hsealed := Changed.of_modify self b FlushBuffer.set_sealed
  have hstored := hsealed.modify (·.store_address self.next_address_range)
  exact ⟨hstored.target, hstored.others, rfl, rfl, rfl⟩

theorem sealing_changed (options : BufferRingOptions) :
    Changed self (sealing options self b) b ((self.ring b).sealed_at self.next_address_range) := by
  have hclaimed := self.claim_changed b (self.ring b).data_len
  unfold sealing
  simp only
  split
  · exact hclaimed.rotated (rotate_after_seal_spec _ b).1 (state_sealed_or_sealed _)
  · exact hclaimed

/-- Sealing claims the rounded length, and a rotation the bare size once more. -/
theorem sealing_address (options : BufferRingOptions) :
    (sealing options self b).next_address_range =
      if options.auto_rotate ∧ self.current_buffer = b ∧
          (self.claim b (self.ring b).data_len).free_ahead L = true then
        self.next_address_range + (self.ring b).data_len + (self.ring b).size
      else self.next_address_range + (self.ring b).data_len := by
  unfold sealing
  simp only
  have hcurrent : (self.claim b (self.ring b).data_len).current_buffer = self.current_buffer := rfl
  have haddress : (self.claim b (self.ring b).data_len).next_address_range =
      self.next_address_range + (self.ring b).data_len := rfl
  have hsize : ((self.claim b (self.ring b).data_len).ring b).size = (self.ring b).size := by
    rw [(self.claim_changed b _).target, FlushBuffer.sealed_at_size]
  split
  next hrotate =>
    rw [(rotate_after_seal_spec _ b).2, hcurrent, haddress, hsize]
    simp only [hrotate, true_and]
  next hrotate => rw [if_neg fun h => hrotate h.1, haddress]

/-- Sealing makes the claims of `put` and no other. -/
theorem sealing_claimed (options : BufferRingOptions) : self.Claimed (sealing options self b) b := by
  rw [Claimed, sealing_address]
  split
  · exact .inr rfl
  · exact .inl rfl

end Sealing

/-- `put` on a reservation that was refused for lack of space, in an open buffer. -/
theorem put_seals {self : BufferRing L} {b : Fin L} (ok : Bool) (payload : Slice)
    (hopen : state_sealed (self.ring b).state = false) :
    self.put options ok b (.error .InsufficientSpace) payload =
      if state_writers (self.ring b).state = 0 then
        if state_flush_in_progress (self.ring b).state then
          (.error .EncounteredSealedBuffer,
            (sealing options self b).modify b FlushBuffer.set_flush_in_progress)
        else
          (.ok .SuccessfullWriteFlush,
            dispatch options ok ((sealing options self b).modify b FlushBuffer.set_flush_in_progress) b)
      else (.error .EncounteredSealedBuffer, sealing options self b) := by
  have hlen : next_multiple_of ((self.modify b FlushBuffer.set_sealed).ring b).size FOUR_KB_BLOCK =
      (self.ring b).data_len := by
    rw [modify_ring_self]
    exact congrArg (next_multiple_of · FOUR_KB_BLOCK) (state_offset_or_sealed _)
  have hput (sealed : BufferRing L) (hs : sealed = sealing options self b) :
      self.put options ok b (.error .InsufficientSpace) payload =
        if state_writers (sealed.ring b).state = 0 then
          if state_flush_in_progress (sealed.ring b).state then
            (.error .EncounteredSealedBuffer, sealed.modify b FlushBuffer.set_flush_in_progress)
          else
            (.ok .SuccessfullWriteFlush,
              dispatch options ok (sealed.modify b FlushBuffer.set_flush_in_progress) b)
        else (.error .EncounteredSealedBuffer, sealed) := by
    subst hs
    simp only [put, hopen, Bool.false_eq_true, if_false, hlen]
    rfl
  have hwriters : state_writers ((self.ring b).sealed_at self.next_address_range).state =
      state_writers (self.ring b).state := state_writers_or_sealed _
  have hflush : state_flush_in_progress ((self.ring b).sealed_at self.next_address_range).state =
      state_flush_in_progress (self.ring b).state := state_flush_in_progress_or_sealed _
  rw [hput _ rfl, (self.sealing_changed b options).target, hwriters, hflush]

section Fields
variable (options) (ok : Bool) (self : BufferRing L) (b : Fin L)

/-- Handing a buffer over leaves the ring's counters and the current buffer alone. -/
theorem flush_fields :
    (flush options ok self b).current_buffer = self.current_buffer ∧
      (flush options ok self b).next_index = self.next_index ∧
      (flush options ok self b).next_address_range = self.next_address_range := by
  unfold flush
  split <;> exact ⟨rfl, rfl, rfl⟩

/-- A dispatch neither rotates nor claims. -/
theorem dispatch_fields :
    (dispatch options ok self b).current_buffer = self.current_buffer ∧
      (dispatch options ok self b).next_index = self.next_index ∧
      (dispatch options ok self b).next_address_range = self.next_address_range := by
  unfold dispatch
  split
  · split
    · exact flush_fields options ok self b
    · exact ⟨rfl, rfl, rfl⟩
  · exact ⟨rfl, rfl, rfl⟩

variable {self b}

/-- A `put` that seals leaves the counters and the current buffer as sealing did. -/
theorem put_seals_fields (payload : Slice) (hopen : state_sealed (self.ring b).state = false) :
    let mem := (self.put options ok b (.error .InsufficientSpace) payload).2
    mem.current_buffer = (sealing options self b).current_buffer ∧
      mem.next_index = (sealing options self b).next_index ∧
      mem.next_address_range = (sealing options self b).next_address_range := by
  simp only
  rw [put_seals ok payload hopen]
  split
  · split
    · exact ⟨rfl, rfl, rfl⟩
    · exact dispatch_fields options ok _ b
  · exact ⟨rfl, rfl, rfl⟩

end Fields

/-- `put` on a granted reservation, up to the flush the last writer of a sealed buffer owns. -/
theorem put_copies {self : BufferRing L} {b : Fin L} (ok : Bool) (offset : Usize) (payload : Slice) :
    self.put options ok b (.ok offset) payload =
      let x := (self.ring b).write offset payload
      let mem := (self.modify b (·.write offset payload)).modify b FlushBuffer.decrement_writers
      if state_writers x.state = 1 ∧ state_sealed x.state then
        if state_flush_in_progress x.decrement_writers.state then
          (.ok .SuccessfullWrite, mem.modify b FlushBuffer.set_flush_in_progress)
        else
          (.ok .SuccessfullWriteFlush,
            dispatch options ok (mem.modify b FlushBuffer.set_flush_in_progress) b)
      else (.ok .SuccessfullWrite, mem) := by
  simp only [put, modify_ring_self]

/-- A `put` that copies does not rotate. -/
theorem put_copies_current (options : BufferRingOptions) {self : BufferRing L} {b : Fin L} (ok : Bool)
    (offset : Usize) (payload : Slice) :
    (self.put options ok b (.ok offset) payload).2.current_buffer = self.current_buffer := by
  rw [put_copies]
  simp only
  split
  · split
    · rfl
    · exact (dispatch_fields options ok _ b).1
  · rfl

theorem free_ahead_congr {self mem : BufferRing L} (hnext : mem.next_index = self.next_index)
    (hring : ∀ c, (mem.ring c).is_available = (self.ring c).is_available) (n : Nat) :
    mem.free_ahead n = self.free_ahead n := by
  unfold free_ahead
  rw [hnext]
  congr 1
  funext k
  exact hring _

/-- `flush_current` on a buffer that holds data seals it, claims its bare size, hands it over and rotates. -/
theorem flush_current_eq (options : BufferRingOptions) (ok : Bool) {self : BufferRing L}
    (hsize : (self.ring self.current_buffer).size ≠ 0) :
    (self.flush_current options ok).2 =
      (((self.claim self.current_buffer (self.ring self.current_buffer).size).flush options ok
        self.current_buffer).rotate_after_seal self.current_buffer).2 := by
  have hlen : ((self.modify self.current_buffer FlushBuffer.set_sealed).ring
      self.current_buffer).size = (self.ring self.current_buffer).size := by
    rw [modify_ring_self]
    exact state_offset_or_sealed _
  rw [flush_current]
  simp only
  rw [if_neg hsize, hlen]
  rfl

/-- The ring `flush_current` rotates in. -/
theorem claim_flush_launched {store : QuikIO} (hstore : options.io_instance = some store) (ok : Bool)
    (self : BufferRing L) (b : Fin L) (val : Usize) :
    Launched store ok self ((self.claim b val).flush options ok b) b
      ((self.ring b).sealed_at self.next_address_range) := by
  have hclaimed := self.claim_changed b val
  obtain ⟨hlaunch, _⟩ := flush_launched hstore ok (self.claim b val) b
  rw [hclaimed.target] at hlaunch
  exact hclaimed.launched hlaunch

/-- A buffer with data that is handed over was not free, so the rotation finds what was free before. -/
theorem claim_flush_ahead {store : QuikIO} (hstore : options.io_instance = some store) (ok : Bool)
    {self : BufferRing L} {b : Fin L} (hsize : (self.ring b).size ≠ 0) (val : Usize) (n : Nat) :
    ((self.claim b val).flush options ok b).free_ahead n = self.free_ahead n := by
  have hlaunch := claim_flush_launched hstore ok self b val
  have hnext : ((self.claim b val).flush options ok b).next_index = self.next_index :=
    (flush_fields options ok (self.claim b val) b).2.1
  apply free_ahead_congr hnext
  intro c
  by_cases hc : c = b
  · have hbefore : (self.ring c).is_available = false := by
      rw [Bool.eq_false_iff, ne_eq, FlushBuffer.is_available_iff, hc]
      exact fun h => hsize h.2.2
    have hafter : (((self.claim b val).flush options ok b).ring c).is_available = false := by
      rw [Bool.eq_false_iff, ne_eq, FlushBuffer.is_available_iff, hc, hlaunch.target_state]
      simp
    rw [hbefore, hafter]
  · rw [FlushBuffer.is_available, (hlaunch.others c hc).state]
    rfl

/-- It claims the bare size, and once more the size if the rotation finds a free buffer. -/
theorem flush_current_launched {store : QuikIO} (hstore : options.io_instance = some store) (ok : Bool)
    {self : BufferRing L} (hsize : (self.ring self.current_buffer).size ≠ 0) :
    Launched store ok self (self.flush_current options ok).2 self.current_buffer
        ((self.ring self.current_buffer).sealed_at self.next_address_range) ∧
      (self.flush_current options ok).2.next_address_range =
        if self.free_ahead L then
          self.next_address_range + (self.ring self.current_buffer).size +
            (self.ring self.current_buffer).size
        else self.next_address_range + (self.ring self.current_buffer).size := by
  let b := self.current_buffer
  let flushed := (self.claim b (self.ring b).size).flush options ok b
  have hlaunch : Launched store ok self flushed b ((self.ring b).sealed_at self.next_address_range) :=
    claim_flush_launched hstore ok self b _
  obtain ⟨hrotated, hclaim⟩ := rotate_after_seal_spec flushed b
  obtain ⟨hcurrent, _, haddress⟩ := flush_fields options ok (self.claim b (self.ring b).size) b
  have hsizes : (flushed.ring b).size = (self.ring b).size := by
    rw [FlushBuffer.size, hlaunch.target_state, state_offset_or_flush]
    exact FlushBuffer.sealed_at_size _ _
  rw [flush_current_eq options ok hsize]
  refine ⟨hlaunch.rotated hrotated, ?_⟩
  rw [hclaim, hsizes, claim_flush_ahead hstore ok hsize, hcurrent, haddress]
  simp only [b]
  split
  next h =>
    rw [if_pos h.2]
    rfl
  next h =>
    rw [if_neg fun hfree => h ⟨rfl, hfree⟩]
    rfl

end BufferRing

open BufferRing

/-- The client is between calls or inside `check_cque`. -/
def Stage.polls : Stage L → Bool
  | .between => true
  | .polling _ => true
  | _ => false

namespace Client

/-- What one step of a client whose ring has a store can do. -/
inductive Moves (options : BufferRingOptions) (store : QuikIO) (s : Client L) :
    Action L → Client L → Prop where
  -- FlushBuffer::reserve_space
  | granted {b : Fin L} {payload : Slice} {offset new : Usize} (hstage : s.stage = .between)
      (hlen : payload.len ≤ ONE_MEGABYTE_BLOCK)
      (hdecision : FlushBuffer.reserve_decision (s.mem.ring b).state payload.len = .ok (offset, new)) :
      Moves options store s (.reserve_space b payload)
        { s with
          mem := s.mem.modify b (·.grant new offset payload.len)
          calls := s.calls ++ [{ current := b, reserve_result := .ok offset, payload }] }
  | rejected {b : Fin L} {payload : Slice} {e : BufferError} (hstage : s.stage = .between)
      (hdecision : FlushBuffer.reserve_decision (s.mem.ring b).state payload.len = .error e) :
      Moves options store s (.reserve_space b payload)
        { s with calls := s.calls ++ [{ current := b, reserve_result := .error e, payload }] }
  -- BufferRing::put
  | put_fails {i : Nat} {ok : Bool} {call : PutCall L} {e : BufferError} (hstage : s.stage = .between)
      (hcall : s.calls[i]? = some call) (hresult : call.reserve_result = .error e) :
      Moves options store s (.put i ok) { s with calls := s.calls.eraseIdx i }
  | put_seals {i : Nat} {ok : Bool} {call : PutCall L} {mem : BufferRing L}
      (hstage : s.stage = .between) (hcall : s.calls[i]? = some call)
      (hresult : call.reserve_result = .error .InsufficientSpace)
      (hopen : state_sealed (s.mem.ring call.current).state = false)
      (hwaits : state_writers (s.mem.ring call.current).state = 0 →
        state_flush_in_progress (s.mem.ring call.current).state = true)
      (hmem : Changed s.mem mem call.current
        ((s.mem.ring call.current).sealed_at s.mem.next_address_range))
      (hclaim : s.mem.Claimed mem call.current) :
      Moves options store s (.put i ok) { s with mem, calls := s.calls.eraseIdx i }
  | put_launches {i : Nat} {ok : Bool} {call : PutCall L} {mem : BufferRing L}
      (hstage : s.stage = .between) (hcall : s.calls[i]? = some call)
      (hresult : call.reserve_result = .error .InsufficientSpace)
      (hopen : state_sealed (s.mem.ring call.current).state = false)
      (hdrained : state_writers (s.mem.ring call.current).state = 0)
      (hclear : state_flush_in_progress (s.mem.ring call.current).state = false)
      (hauto : options.auto_flush = true)
      (hmem : Launched store ok s.mem mem call.current
        ((s.mem.ring call.current).sealed_at s.mem.next_address_range))
      (hclaim : s.mem.Claimed mem call.current) :
      Moves options store s (.put i ok) { s with mem, calls := s.calls.eraseIdx i }
  | put_discards {i : Nat} {ok : Bool} {call : PutCall L} {mem : BufferRing L}
      (hstage : s.stage = .between) (hcall : s.calls[i]? = some call)
      (hresult : call.reserve_result = .error .InsufficientSpace)
      (hdrained : state_writers (s.mem.ring call.current).state = 0)
      (hclear : state_flush_in_progress (s.mem.ring call.current).state = false)
      (hmanual : options.auto_flush = false)
      (hmem : Changed s.mem mem call.current (s.mem.ring call.current).reset)
      (hclaim : s.mem.Claimed mem call.current) :
      Moves options store s (.put i ok) { s with mem, calls := s.calls.eraseIdx i }
  | copies {i : Nat} {ok : Bool} {call : PutCall L} {mem : BufferRing L} {offset : Usize}
      (hstage : s.stage = .between) (hcall : s.calls[i]? = some call)
      (hresult : call.reserve_result = .ok offset)
      (hwaits : state_writers (s.mem.ring call.current).state = 1 →
        state_sealed (s.mem.ring call.current).state = true →
        state_flush_in_progress (s.mem.ring call.current).state = true)
      (hmem : Changed s.mem mem call.current
        ((s.mem.ring call.current).write offset call.payload).decrement_writers)
      (hclaim : mem.next_address_range = s.mem.next_address_range) :
      Moves options store s (.put i ok) { s with mem, calls := s.calls.eraseIdx i }
  | copy_launches {i : Nat} {ok : Bool} {call : PutCall L} {mem : BufferRing L} {offset : Usize}
      (hstage : s.stage = .between) (hcall : s.calls[i]? = some call)
      (hresult : call.reserve_result = .ok offset)
      (hlast : state_writers (s.mem.ring call.current).state = 1)
      (hsealed : state_sealed (s.mem.ring call.current).state = true)
      (hclear : state_flush_in_progress (s.mem.ring call.current).state = false)
      (hauto : options.auto_flush = true)
      (hmem : Launched store ok s.mem mem call.current
        ((s.mem.ring call.current).write offset call.payload).decrement_writers)
      (hclaim : mem.next_address_range = s.mem.next_address_range) :
      Moves options store s (.put i ok) { s with mem, calls := s.calls.eraseIdx i }
  | copy_discards {i : Nat} {ok : Bool} {call : PutCall L} {mem : BufferRing L} {offset : Usize}
      (hstage : s.stage = .between) (hcall : s.calls[i]? = some call)
      (hresult : call.reserve_result = .ok offset)
      (hlast : state_writers (s.mem.ring call.current).state = 1)
      (hclear : state_flush_in_progress (s.mem.ring call.current).state = false)
      (hmanual : options.auto_flush = false)
      (hmem : Changed s.mem mem call.current
        ((s.mem.ring call.current).write offset call.payload).reset)
      (hclaim : mem.next_address_range = s.mem.next_address_range) :
      Moves options store s (.put i ok) { s with mem, calls := s.calls.eraseIdx i }
  -- BufferRing::flush
  | flushes {b : Fin L} {ok : Bool} {mem : BufferRing L} (hstage : s.stage = .between)
      (hmem : Launched store ok s.mem mem b (s.mem.ring b))
      (hclaim : mem.next_address_range = s.mem.next_address_range) :
      Moves options store s (.flush b ok) { s with mem }
  -- BufferRing::flush_current
  | current_empty {ok : Bool} (hstage : s.stage = .between) :
      Moves options store s (.flush_current ok) s
  | current_launches {ok : Bool} {mem : BufferRing L} (hstage : s.stage = .between)
      (hsize : (s.mem.ring s.mem.current_buffer).size ≠ 0)
      (hmem : Launched store ok s.mem mem s.mem.current_buffer
        ((s.mem.ring s.mem.current_buffer).sealed_at s.mem.next_address_range))
      (hclaim : mem.next_address_range =
        if s.mem.free_ahead L then
          s.mem.next_address_range + (s.mem.ring s.mem.current_buffer).size +
            (s.mem.ring s.mem.current_buffer).size
        else s.mem.next_address_range + (s.mem.ring s.mem.current_buffer).size) :
      Moves options store s (.flush_current ok) { s with mem }
  -- BufferRing::check_cque
  | polls (hstage : s.stage = .between) : Moves options store s .check_cque { s with stage := .polling [] }
  | drains {ok : Bool} (hstage : s.stage = .polling []) :
      Moves options store s (.resume ok)
        (s.drain fun cqes => if cqes.isEmpty then .between else .polling cqes)
  | ignores {ok : Bool} {cqe : Cqe L} {rest : List (Cqe L)} (hstage : s.stage = .polling (cqe :: rest))
      (huser : cqe.user_data = none) :
      Moves options store s (.resume ok) { s with stage := .polling rest }
  | retries {ok : Bool} {cqe : Cqe L} {rest : List (Cqe L)} {b : Fin L}
      (hstage : s.stage = .polling (cqe :: rest)) (huser : cqe.user_data = some b)
      (hresult : cqe.result < 0) :
      Moves options store s (.resume ok)
        { s with
          mem := s.mem.retry ok b
          stage := .polling rest
          fates :=
            if s.mem.resubmits b then { s.fates with resubmitted := s.fates.resubmitted ++ [cqe] }
            else s.fates }
  | succeeds {ok : Bool} {cqe : Cqe L} {rest : List (Cqe L)} {b : Fin L}
      (hstage : s.stage = .polling (cqe :: rest)) (huser : cqe.user_data = some b)
      (hresult : 0 ≤ cqe.result) :
      Moves options store s (.resume ok)
        { s with
          mem := (s.mem.report options b).reset_buffer b
          stage := .polling rest
          fates := { s.fates with reset := s.fates.reset ++ [cqe] } }
  -- BufferRing::f_sync, QuikIO::wait_for_all, QuikIO::sync_data
  | sync_launches {b : Fin L} {ok : Bool} {mem : BufferRing L} (hstage : s.stage = .between)
      (hmem : Launched store ok s.mem mem b (s.mem.ring b))
      (hclaim : mem.next_address_range = s.mem.next_address_range) :
      Moves options store s (.f_sync b ok) { s with mem, stage := .waiting (some b) }
  | wait_starts (hstage : s.stage = .between) :
      Moves options store s .wait_for_all { s with stage := .waiting none }
  | wait_drains {caller : Option (Fin L)} {ok : Bool} (hstage : s.stage = .waiting caller) :
      Moves options store s (.resume ok) (s.wait caller)
  | wait_tests {caller : Option (Fin L)} {ok : Bool} (hstage : s.stage = .testing caller) :
      Moves options store s (.resume ok)
        { s with
          stage :=
            if s.mem.io.sq.isEmpty && s.mem.io.cq.isEmpty then .waited caller else .waiting caller }
  | sync_starts (hstage : s.stage = .between) :
      Moves options store s .sync_data { s with stage := .syncing none }
  | sync_refused {caller : Option (Fin L)} {ok : Bool} (hstage : s.stage = .syncing caller) :
      Moves options store s (.resume ok) { s with stage := .failed caller }
  | sync_submits {caller : Option (Fin L)} {ok : Bool} {io : IoUring L}
      (hstage : s.stage = .syncing caller) (hpush : s.mem.io.push Sqe.fsync = some io) :
      Moves options store s (.resume ok)
        { s with
          mem := { s.mem with io := io.submit ok }
          stage := if ok then .synced caller else .failed caller }
  | sync_ends {ok : Bool} (hstage : s.stage = .synced none) (hdone : s.mem.io.cq ≠ []) :
      Moves options store s (.resume ok) { s with stage := .between }
  | sync_resets {b : Fin L} {ok : Bool} (hstage : s.stage = .synced (some b))
      (hdone : s.mem.io.cq ≠ []) :
      Moves options store s (.resume ok)
        { s with
          mem := s.mem.reset_buffer b
          stage := .between
          fates := { s.fates with awaiting := [], reset := s.fates.reset ++ s.fates.awaiting } }
  -- QuikIO::read
  | read_refused {len offset : Usize} {ok : Bool} (hstage : s.stage = .between) :
      Moves options store s (.read len offset ok) s
  | read_submits {len offset : Usize} {ok : Bool} {io : IoUring L} (hstage : s.stage = .between)
      (hpush : s.mem.io.push (Sqe.read len offset) = some io) :
      Moves options store s (.read len offset ok)
        { s with mem := { s.mem with io := io.submit ok }, stage := if ok then .reading else .between }
  | read_takes {ok : Bool} {cqe : Cqe L} {rest : List (Cqe L)} (hstage : s.stage = .reading)
      (hcq : s.mem.io.cq = cqe :: rest) :
      Moves options store s (.resume ok)
        { s with
          mem := { s.mem with io := { s.mem.io with cq := rest } }
          stage := .between
          fates := { s.fates with taken := s.fates.taken ++ [cqe] } }
  -- the kernel
  | completes {i : Nat} {result : Int} {mem : BufferRing L} (hmem : s.mem.complete i result = some mem) :
      Moves options store s (.complete i result) { s with mem }

section Steps
variable {options : BufferRingOptions} {store : QuikIO} {s s' : Client L} {ok : Bool}

/-- `reserve_space` makes one of the moves listed. -/
theorem reserve_space_moves {b : Fin L} {payload : Slice} (hstage : s.stage = .between)
    (h : s.reserve_space b payload = some s') :
    Moves options store s (.reserve_space b payload) s' := by
  unfold reserve_space FlushBuffer.reserve_space at h
  split at h
  next result after hreserve =>
    split at hreserve
    next hlen =>
      obtain rfl := Option.some.inj h
      split at hreserve
      next e hdecision =>
        obtain ⟨rfl, rfl⟩ := Prod.mk.inj (Option.some.inj hreserve)
        rw [modify_eq_self rfl]
        exact .rejected hstage hdecision
      next offset new hdecision =>
        obtain ⟨rfl, rfl⟩ := Prod.mk.inj (Option.some.inj hreserve)
        exact .granted hstage hlen hdecision
    next => cases hreserve
  next => cases h

theorem put_moves {i : Nat} (hstore : options.io_instance = some store) (hstage : s.stage = .between)
    (h : s.put options ok i = some s') : Moves options store s (.put i ok) s' := by
  unfold put at h
  split at h
  next call hcall =>
    obtain rfl := Option.some.inj h
    cases hresult : call.reserve_result with
    | error e =>
      by_cases hspace : e = .InsufficientSpace
      · subst e
        cases hsealed : state_sealed (s.mem.ring call.current).state with
        | true =>
          have hset : (s.mem.ring call.current).set_sealed = s.mem.ring call.current := by
            rw [FlushBuffer.set_sealed, or_sealed_of_sealed hsealed]
          have hsame : (s.mem.put options ok call.current (.error .InsufficientSpace)
              call.payload).2 = s.mem := by
            simp [BufferRing.put, hsealed, modify_eq_self hset]
          rw [hsame]
          exact .put_fails hstage hcall hresult
        | false =>
          have hmem := s.mem.sealing_changed call.current options
          have hclaim := s.mem.sealing_claimed call.current options
          rw [put_seals ok call.payload hsealed]
          split
          next hdrained =>
            split
            next hflush =>
              have hset := hmem.modify FlushBuffer.set_flush_in_progress
              rw [FlushBuffer.set_flush_in_progress_of_flushing
                ((state_flush_in_progress_or_sealed _).trans hflush)] at hset
              exact .put_seals hstage hcall hresult hsealed (fun _ => hflush) hset hclaim
            next hclear =>
              have hclear := Bool.eq_false_iff.mpr hclear
              obtain ⟨hdispatch, haddress⟩ := hmem.dispatch hstore ok
              rw [Claimed, ← haddress] at hclaim
              split at hdispatch
              next hauto =>
                exact .put_launches hstage hcall hresult hsealed hdrained hclear hauto hdispatch hclaim
              next hmanual =>
                exact .put_discards hstage hcall hresult hdrained hclear
                  (Bool.eq_false_iff.mpr hmanual) hdispatch hclaim
          next hwriters =>
            exact .put_seals hstage hcall hresult hsealed (fun h => absurd h hwriters) hmem hclaim
      · have hsame : (s.mem.put options ok call.current (.error e) call.payload).2 = s.mem := by
          cases e
          case InsufficientSpace => exact absurd rfl hspace
          all_goals rfl
        rw [hsame]
        exact .put_fails hstage hcall hresult
    | ok offset =>
      have hcopied := (Changed.of_modify s.mem call.current (·.write offset call.payload)).modify
        FlushBuffer.decrement_writers
      rw [put_copies]
      simp only
      split
      next hlast =>
        split
        next hflush =>
          have hset := hcopied.modify FlushBuffer.set_flush_in_progress
          rw [FlushBuffer.set_flush_in_progress_of_flushing hflush] at hset
          rw [FlushBuffer.decrement_writers_state, state_flush_in_progress_sub_writer] at hflush
          exact .copies hstage hcall hresult (fun _ _ => hflush) hset rfl
        next hclear =>
          rw [FlushBuffer.decrement_writers_state, state_flush_in_progress_sub_writer] at hclear
          have hclear := Bool.eq_false_iff.mpr hclear
          obtain ⟨hdispatch, haddress⟩ := hcopied.dispatch hstore ok
          split at hdispatch
          next hauto =>
            exact .copy_launches hstage hcall hresult hlast.1 hlast.2 hclear hauto hdispatch haddress
          next hmanual =>
            exact .copy_discards hstage hcall hresult hlast.1 hclear (Bool.eq_false_iff.mpr hmanual)
              hdispatch haddress
      next hwaits =>
        exact .copies hstage hcall hresult (fun hone hsealed => absurd ⟨hone, hsealed⟩ hwaits) hcopied rfl
  next => cases h

/-- The handling of a completion makes one of the moves listed. -/
theorem handle_moves {cqe : Cqe L} {rest : List (Cqe L)} (hstage : s.stage = .polling (cqe :: rest)) :
    Moves options store s (.resume ok) (s.handle options ok cqe rest) := by
  unfold handle handle_cqe
  cases huser : cqe.user_data with
  | none => exact .ignores hstage huser
  | some b =>
    simp only
    split
    next hresult => exact .retries hstage huser hresult
    next hresult => exact .succeeds hstage huser (Int.not_lt.mp hresult)

theorem resume_moves (h : s.resume options ok = some s') :
    Moves options store s (.resume ok) s' := by
  unfold resume at h
  split at h
  next => cases h
  next hstage =>
    obtain rfl := Option.some.inj h
    exact .drains hstage
  next cqe rest hstage =>
    obtain rfl := Option.some.inj h
    exact handle_moves hstage
  next caller hstage =>
    obtain rfl := Option.some.inj h
    exact .wait_drains hstage
  next caller hstage =>
    obtain rfl := Option.some.inj h
    exact .wait_tests hstage
  next caller hstage =>
    split at h
    next io hpush =>
      obtain rfl := Option.some.inj h
      exact .sync_submits hstage hpush
    next =>
      obtain rfl := Option.some.inj h
      exact .sync_refused hstage
  next caller hstage =>
    split at h
    next => cases h
    next hdone =>
      have hdone : s.mem.io.cq ≠ [] := by simpa using hdone
      split at h
      next b =>
        obtain rfl := Option.some.inj h
        exact .sync_resets hstage hdone
      next =>
        obtain rfl := Option.some.inj h
        exact .sync_ends hstage hdone
  next hstage =>
    split at h
    next => cases h
    next cqe rest hcq =>
      obtain rfl := Option.some.inj h
      exact .read_takes hstage hcq
  next => cases h

theorem read_moves {len offset : Usize} (hstage : s.stage = .between) :
    Moves options store s (.read len offset ok) (s.read ok len offset) := by
  unfold read
  split
  next io hpush => exact .read_submits hstage hpush
  next => exact .read_refused hstage

/-- Every step is one of the moves. -/
theorem step_moves {a : Action L} (hstore : options.io_instance = some store)
    (h : step options s a = some s') : Moves options store s a s' := by
  unfold step at h
  split at h
  next i result =>
    cases hmem : s.mem.complete i result with
    | none =>
      rw [hmem] at h
      cases h
    | some mem =>
      rw [hmem] at h
      obtain rfl := Option.some.inj h
      exact .completes hmem
  next ok => exact resume_moves h
  next =>
    simp only [hstore, Option.map_some] at h
    split at h
    next b payload hstage _ _ => exact reserve_space_moves hstage h
    next i ok hstage _ _ => exact put_moves hstore hstage h
    next b ok hstage _ _ =>
      obtain rfl := Option.some.inj h
      obtain ⟨hmem, hclaim⟩ := flush_launched hstore ok s.mem b
      exact .flushes hstage hmem hclaim
    next ok hstage _ _ =>
      obtain rfl := Option.some.inj h
      by_cases hsize : (s.mem.ring s.mem.current_buffer).size = 0
      · have hsame : (s.mem.flush_current options ok).2 = s.mem := by
          simp [BufferRing.flush_current, hsize]
        rw [hsame]
        exact .current_empty hstage
      · obtain ⟨hmem, hclaim⟩ := flush_current_launched hstore ok hsize
        exact .current_launches hstage hsize hmem hclaim
    next hstage _ _ =>
      obtain rfl := Option.some.inj h
      exact .polls hstage
    next b ok hstage _ _ =>
      obtain rfl := Option.some.inj h
      obtain ⟨hmem, hclaim⟩ := flush_launched hstore ok s.mem b
      have hwaiting : s.f_sync options ok b =
          { s with mem := s.mem.flush options ok b, stage := .waiting (some b) } := by
        simp [f_sync, hstore]
      rw [hwaiting]
      exact .sync_launches hstage hmem hclaim
    next hstage _ _ =>
      obtain rfl := Option.some.inj h
      exact .wait_starts hstage
    next hstage _ _ =>
      obtain rfl := Option.some.inj h
      exact .sync_starts hstage
    next len offset ok hstage _ _ =>
      obtain rfl := Option.some.inj h
      exact read_moves hstage
    next => cases h

/-- A step of `put` is the function on the ring. -/
theorem step_put {i : Nat} {call : PutCall L} (hstage : s.stage = .between)
    (hcall : s.calls[i]? = some call) (h : step options s (.put i ok) = some s') :
    s'.mem = (s.mem.put options ok call.current call.reserve_result call.payload).2 := by
  have hs' : s.put options ok i = some s' := by
    simpa [step, hstage] using h
  simp only [Client.put, hcall] at hs'
  rw [← Option.some.inj hs']

theorem step_flush_current (hstage : s.stage = .between)
    (h : step options s (.flush_current ok) = some s') : s'.mem = (s.mem.flush_current options ok).2 := by
  have hs' : some { s with mem := (s.mem.flush_current options ok).2 } = some s' := by
    simpa [step, hstage] using h
  rw [← Option.some.inj hs']

/-! What every move does to the histories. -/

/-- A submission only adds to the histories. -/
theorem launched_grows {mem mem' : BufferRing L} {b : Fin L} {x : FlushBuffer L}
    (h : Launched store ok mem mem' b x) :
    (∀ e ∈ mem.io.pushed, e ∈ mem'.io.pushed) ∧ mem'.io.completed = mem.io.completed ∧
      mem'.io.cq = mem.io.cq := by
  obtain ⟨_, hio, _⟩ | ⟨io, hpush, hio, _⟩ := h.outcome
  · rw [hio]
    exact ⟨fun _ => id, rfl, rfl⟩
  · obtain ⟨_, rfl⟩ := IoUring.push_eq_some hpush
    rw [hio, IoUring.submit_pushed, IoUring.submit_completed, IoUring.submit_cq]
    exact ⟨fun _ => List.mem_append_left _, rfl, rfl⟩

theorem retry_grows (mem : BufferRing L) (ok : Bool) (b : Fin L) :
    (∀ e ∈ mem.io.pushed, e ∈ (mem.retry ok b).io.pushed) ∧
      (mem.retry ok b).io.completed = mem.io.completed ∧ (mem.retry ok b).io.cq = mem.io.cq := by
  unfold retry
  split
  next e _ =>
    cases hpush : mem.io.push e with
    | none =>
      simp only [Option.getD_none, IoUring.submit_pushed, IoUring.submit_completed, IoUring.submit_cq]
      exact ⟨fun _ => id, trivial, trivial⟩
    | some io =>
      obtain ⟨_, rfl⟩ := IoUring.push_eq_some hpush
      simp only [Option.getD_some, IoUring.submit_pushed, IoUring.submit_completed, IoUring.submit_cq]
      exact ⟨fun _ => List.mem_append_left _, trivial, trivial⟩
  next => exact ⟨fun _ => id, rfl, rfl⟩

/-- A retry pushes the stored entry, if any. -/
theorem mem_pushed_retry {mem : BufferRing L} {ok : Bool} {b : Fin L} {e : Sqe L}
    (he : e ∈ (mem.retry ok b).io.pushed) : e ∈ mem.io.pushed ∨ (mem.ring b).sqe = some e := by
  unfold retry at he
  split at he
  next stored hstored =>
    cases hpush : mem.io.push stored with
    | none =>
      rw [hpush, Option.getD_none, IoUring.submit_pushed] at he
      exact .inl he
    | some io =>
      obtain ⟨_, rfl⟩ := IoUring.push_eq_some hpush
      rw [hpush, Option.getD_some, IoUring.submit_pushed, List.mem_append, List.mem_singleton] at he
      obtain he | rfl := he
      · exact .inl he
      · exact .inr hstored
  next => exact .inl he

/-- Histories only grow. -/
theorem Moves.grows {a : Action L} (h : Moves options store s a s') :
    (∀ e ∈ s.mem.io.pushed, e ∈ s'.mem.io.pushed) ∧
      ∀ c ∈ s.mem.io.completed, c ∈ s'.mem.io.completed := by
  have hsame {io : IoUring L} (hio : io = s.mem.io) : (∀ e ∈ s.mem.io.pushed, e ∈ io.pushed) ∧
      ∀ c ∈ s.mem.io.completed, c ∈ io.completed := by
    rw [hio]
    exact ⟨fun _ => id, fun _ => id⟩
  have hlaunched {ok : Bool} {mem : BufferRing L} {b : Fin L} {x : FlushBuffer L}
      (h : Launched store ok s.mem mem b x) : (∀ e ∈ s.mem.io.pushed, e ∈ mem.io.pushed) ∧
        ∀ c ∈ s.mem.io.completed, c ∈ mem.io.completed := by
    obtain ⟨hpushed, hcompleted, _⟩ := launched_grows h
    rw [hcompleted]
    exact ⟨hpushed, fun _ => id⟩
  have hsubmitted {e : Sqe L} {io : IoUring L} (ok : Bool) (hpush : s.mem.io.push e = some io) :
      (∀ e ∈ s.mem.io.pushed, e ∈ (io.submit ok).pushed) ∧
        ∀ c ∈ s.mem.io.completed, c ∈ (io.submit ok).completed := by
    obtain ⟨_, rfl⟩ := IoUring.push_eq_some hpush
    rw [IoUring.submit_pushed, IoUring.submit_completed]
    exact ⟨fun _ => List.mem_append_left _, fun _ => id⟩
  cases h
  case put_seals hmem _ => exact hsame hmem.io
  case put_launches hmem _ => exact hlaunched hmem
  case put_discards hmem _ => exact hsame hmem.io
  case copies hmem _ => exact hsame hmem.io
  case copy_launches hmem _ => exact hlaunched hmem
  case copy_discards hmem _ => exact hsame hmem.io
  case flushes hmem _ => exact hlaunched hmem
  case current_launches hmem _ => exact hlaunched hmem
  case retries b _ _ _ =>
    obtain ⟨hpushed, hcompleted, _⟩ := retry_grows s.mem _ b
    refine ⟨hpushed, ?_⟩
    rw [hcompleted]
    exact fun _ => id
  case succeeds b _ _ _ => exact hsame (report_io options s.mem b)
  case sync_launches hmem _ => exact hlaunched hmem
  case sync_submits hpush => exact hsubmitted _ hpush
  case read_submits hpush => exact hsubmitted _ hpush
  case completes hmem =>
    obtain ⟨e, _, _, rfl⟩ := complete_cases hmem
    exact ⟨fun _ => id, fun _ => List.mem_append_left _⟩
  all_goals exact ⟨fun _ => id, fun _ => id⟩

/-- Fillings are numbered upwards. -/
theorem Moves.number_le {a : Action L} (h : Moves options store s a s') (c : Fin L) :
    (s.mem.ring c).filling.number ≤ (s'.mem.ring c).filling.number := by
  have hkept (b : Fin L) (c : Fin L) (_ : c ≠ b) (y : FlushBuffer L) (hy : (s.mem.ring c).Kept y) :
      (s.mem.ring c).filling.number ≤ y.filling.number := by
    rw [hy.filling]
  have hchanged {mem : BufferRing L} {b : Fin L} {x : FlushBuffer L} (hmem : Changed s.mem mem b x)
      (hx : (s.mem.ring b).filling.number ≤ x.filling.number) :
      (s.mem.ring c).filling.number ≤ (mem.ring c).filling.number :=
    hmem.forall_ring (P := fun c y => (s.mem.ring c).filling.number ≤ y.filling.number) hx (hkept b) c
  have hlaunched {ok : Bool} {mem : BufferRing L} {b : Fin L} {x : FlushBuffer L}
      (hmem : Launched store ok s.mem mem b x) (hx : (s.mem.ring b).filling.number ≤ x.filling.number) :
      (s.mem.ring c).filling.number ≤ (mem.ring c).filling.number :=
    hmem.forall_ring (P := fun c y => (s.mem.ring c).filling.number ≤ y.filling.number)
      (fun _ => hx) (hkept b) c
  have hreset {mem : BufferRing L} (b : Fin L) (hring : mem.ring = s.mem.ring) :
      (s.mem.ring c).filling.number ≤ ((mem.reset_buffer b).ring c).filling.number := by
    rw [reset_buffer_ring, hring]
    split
    · exact Nat.le_succ _
    · exact Nat.le_refl _
  cases h
  case granted b payload offset new _ _ _ =>
    exact hchanged (.of_modify s.mem b (·.grant new offset payload.len)) (Nat.le_refl _)
  case put_seals hmem _ => exact hchanged hmem (Nat.le_refl _)
  case put_launches hmem _ => exact hlaunched hmem (Nat.le_refl _)
  case put_discards hmem _ => exact hchanged hmem (Nat.le_succ _)
  case copies hmem _ => exact hchanged hmem (Nat.le_refl _)
  case copy_launches hmem _ => exact hlaunched hmem (Nat.le_refl _)
  case copy_discards hmem _ => exact hchanged hmem (Nat.le_succ _)
  case flushes hmem _ => exact hlaunched hmem (Nat.le_refl _)
  case current_launches hmem _ => exact hlaunched hmem (Nat.le_refl _)
  case retries b _ _ _ => rw [retry_ring]
  case succeeds b _ _ _ => exact hreset b (report_ring options s.mem b)
  case sync_launches hmem _ => exact hlaunched hmem (Nat.le_refl _)
  case sync_resets b _ _ _ => exact hreset b rfl
  case completes hmem =>
    obtain ⟨e, _, _, rfl⟩ := complete_cases hmem
    exact Nat.le_refl _
  all_goals exact Nat.le_refl _

/-- The file changes only when the kernel answers an entry. -/
theorem Moves.file {a : Action L} (h : Moves options store s a s') (ha : ∀ i result, a ≠ .complete i result) :
    s'.mem.file = s.mem.file := by
  cases h
  case put_seals hmem _ => exact hmem.file
  case put_launches hmem _ => exact hmem.file
  case put_discards hmem _ => exact hmem.file
  case copies hmem _ => exact hmem.file
  case copy_launches hmem _ => exact hmem.file
  case copy_discards hmem _ => exact hmem.file
  case flushes hmem _ => exact hmem.file
  case current_launches hmem _ => exact hmem.file
  case retries b _ _ _ =>
    simp only [retry]
    split <;> rfl
  case succeeds b _ _ _ => exact report_file options s.mem b
  case sync_launches hmem _ => exact hmem.file
  case completes i result _ _ => exact absurd rfl (ha i result)
  all_goals rfl

/-- Messages are sent only for completions `check_cque` finds successful. -/
theorem Moves.sent {a : Action L} (h : Moves options store s a s') :
    s'.mem.sent = s.mem.sent ∨
      ∃ b cqe rest, s.stage = .polling (cqe :: rest) ∧ cqe.user_data = some b ∧ 0 ≤ cqe.result ∧
        s'.mem = (s.mem.send b (s.mem.ring b).local_address (s.mem.ring b).size).reset_buffer b ∧
        s'.stage = .polling rest := by
  cases h
  case put_seals hmem _ => exact .inl hmem.sent
  case put_launches hmem _ => exact .inl hmem.sent
  case put_discards hmem _ => exact .inl hmem.sent
  case copies hmem _ => exact .inl hmem.sent
  case copy_launches hmem _ => exact .inl hmem.sent
  case copy_discards hmem _ => exact .inl hmem.sent
  case flushes hmem _ => exact .inl hmem.sent
  case current_launches hmem _ => exact .inl hmem.sent
  case retries b _ _ _ =>
    left
    simp only [retry]
    split <;> rfl
  case succeeds cqe rest b hstage huser hresult =>
    unfold report
    split
    · exact .inr ⟨b, cqe, rest, hstage, huser, hresult, rfl, rfl⟩
    · exact .inl rfl
  case sync_launches hmem _ => exact .inl hmem.sent
  case completes hmem =>
    obtain ⟨e, _, _, rfl⟩ := complete_cases hmem
    exact .inl rfl
  all_goals exact .inl rfl

/-- A call of `reserve_space`, `put`, `flush_current` or `check_cque`, or the kernel. -/
def automatic : Action L → Bool
  | .flush _ _ => false
  | .f_sync _ _ => false
  | .wait_for_all => false
  | .sync_data => false
  | .read _ _ _ => false
  | _ => true

/-- With such calls only, the client is always between calls or inside `check_cque`. -/
theorem Moves.stays_polling {a : Action L} (h : Moves options store s a s') (hauto : automatic a = true)
    (hpolls : s.stage.polls = true) : s'.stage.polls = true := by
  cases h
  case drains =>
    simp only [drain]
    split <;> rfl
  case flushes | sync_launches | wait_starts | sync_starts | read_refused | read_submits => cases hauto
  case wait_drains hstage | wait_tests hstage | sync_refused hstage | sync_submits hstage _ | sync_ends hstage _ |
      sync_resets hstage _ | read_takes hstage _ =>
    -- a client that polls waits for nothing
    cases hstage ▸ hpolls
  all_goals first
    | exact hpolls
    | rfl

end Steps

end Client

end FlushRing
