import FlushRing.Client.Sequential
import FlushRing.Client.Tracking

open Transition

namespace FlushRing

variable {L : Nat}

namespace FlushBuffer
variable {self after : FlushBuffer L}

/-- Neither sealed nor flush-in-progress. -/
def is_open (self : FlushBuffer L) : Bool :=
  !state_sealed self.state && !state_flush_in_progress self.state

/-- An open buffer has neither bit set. -/
theorem is_open_iff : self.is_open = true ↔
    state_sealed self.state = false ∧ state_flush_in_progress self.state = false := by
  simp [is_open]

theorem is_open_of_available (h : self.is_available = true) : self.is_open = true := by
  obtain ⟨hsealed, hflush, _⟩ := self.is_available_iff.mp h
  exact is_open_iff.mpr ⟨hsealed, hflush⟩

/-- `reserve_space` finds an open buffer open. -/
theorem is_open.decision (h : self.is_open = true) (payload_size : Usize) :
    reserve_decision self.state payload_size ≠ .error .EncounteredSealedBuffer := by
  have hflags := (flags_clear_iff self.state).mpr (is_open_iff.mp h)
  unfold reserve_decision
  rw [if_neg (not_not.mpr hflags)]
  simp only
  split
  · intro h
    cases h
  · intro h
    cases h

theorem is_available_congr (h : after.state = self.state) :
    after.is_available = self.is_available := by
  rw [is_available, is_available, h]

theorem is_open_congr (h : after.state = self.state) : after.is_open = self.is_open := by
  rw [is_open, is_open, h]

theorem is_available_of_sealed (h : state_sealed self.state = true) : self.is_available = false := by
  rw [Bool.eq_false_iff, ne_eq, is_available_iff, h]
  simp

end FlushBuffer

namespace BufferRing

/-- A scan that finds a free buffer makes it the current one, and one that finds none changes nothing
but the cursor. -/
theorem rotate_scan_current (size : Usize) (n : Nat) (self : BufferRing L) :
    let mem := (rotate_scan self.current_buffer size n self).2
    if self.free_ahead n then (self.ring mem.current_buffer).is_available = true
    else mem.current_buffer = self.current_buffer := by
  induction n generalizing self with
  | zero => rfl
  | succ n ih =>
    rw [free_ahead_succ, rotate_scan]
    simp only
    have hcandidate : ({ self with next_index := self.next_index + 1 }.candidate self.next_index) =
        self.candidate self.next_index := rfl
    rw [hcandidate]
    by_cases hfree : (self.ring (self.candidate self.next_index)).is_available = true
    · rw [hfree, if_pos rfl, Bool.true_or, if_pos rfl]
      simpa [swap_current, reserve_buf_addr, incrment_address] using hfree
    · rw [if_neg hfree, Bool.eq_false_iff.mpr hfree, Bool.false_or]
      exact ih { self with next_index := self.next_index + 1 }

/-- Where a rotation leaves the current buffer. -/
theorem rotate_after_seal_current (self : BufferRing L) (b : Fin L) :
    let mem := (self.rotate_after_seal b).2
    if self.current_buffer = b ∧ self.free_ahead L = true then
      (self.ring mem.current_buffer).is_available = true
    else mem.current_buffer = self.current_buffer := by
  simp only
  unfold rotate_after_seal
  by_cases hcurrent : self.current_buffer = b
  · simp only [hcurrent, ne_eq, not_true_eq_false, if_false, true_and]
    have hscan := rotate_scan_current (self.ring b).size L self
    rw [hcurrent] at hscan
    exact hscan
  · simp [hcurrent]

/-- What becomes of the current buffer when `b` is sealed: a free buffer replaces it, or it stays, and
if it was `b`, no other buffer was free. -/
def Rotates (self : BufferRing L) (b current : Fin L) : Prop :=
  current ≠ b ∧ (self.ring current).is_available = true ∨
    current = self.current_buffer ∧
      (self.current_buffer = b → ∀ c ≠ b, (self.ring c).is_available = false)

/-- Sealing the current buffer rotates to a free one, if there is any. -/
theorem sealing_rotates {options : BufferRingOptions} (hrotate : options.auto_rotate = true)
    {self : BufferRing L} (hcursor : self.unbroken = true) (b : Fin L) :
    self.Rotates b (sealing options self b).current_buffer := by
  let claimed := self.claim b (self.ring b).data_len
  have hclaimed := self.claim_changed b (self.ring b).data_len
  have hother {c : Fin L} (hc : c ≠ b) : (claimed.ring c).is_available = (self.ring c).is_available :=
    FlushBuffer.is_available_congr (hclaimed.others c hc).state
  have hsealing : sealing options self b = (claimed.rotate_after_seal b).2 := by
    simp only [sealing, hrotate, if_true, claimed]
  have hcurrent := rotate_after_seal_current claimed b
  simp only at hcurrent
  rw [hsealing]
  split at hcurrent
  next =>
    have hne : (claimed.rotate_after_seal b).2.current_buffer ≠ b := by
      intro heq
      rw [heq, hclaimed.target] at hcurrent
      rw [FlushBuffer.is_available_of_sealed (state_sealed_or_sealed _)] at hcurrent
      cases hcurrent
    refine .inl ⟨hne, ?_⟩
    rw [← hother hne]
    exact hcurrent
  next hstays =>
    refine .inr ⟨hcurrent, fun hb c hc => ?_⟩
    rw [← hother hc, Bool.eq_false_iff]
    intro hfree
    have hahead : claimed.free_ahead L = true := free_ahead_of_available hcursor hfree
    exact hstays ⟨hb, hahead⟩

/-- `flush_current` rotates to a free buffer, if there is any. -/
theorem flush_current_rotates {options : BufferRingOptions} {store : QuikIO}
    (hstore : options.io_instance = some store) (ok : Bool) {self : BufferRing L}
    (hcursor : self.unbroken = true) (hsize : (self.ring self.current_buffer).size ≠ 0) :
    self.Rotates self.current_buffer (self.flush_current options ok).2.current_buffer := by
  let b := self.current_buffer
  let flushed := (self.claim b (self.ring b).size).flush options ok b
  have hlaunch : Launched store ok self flushed b ((self.ring b).sealed_at self.next_address_range) :=
    claim_flush_launched hstore ok self b _
  have hstays : flushed.current_buffer = b :=
    (flush_fields options ok (self.claim b (self.ring b).size) b).1
  have hahead : flushed.free_ahead L = self.free_ahead L := claim_flush_ahead hstore ok hsize _ L
  have hcurrent := rotate_after_seal_current flushed b
  simp only [hstays, hahead, true_and] at hcurrent
  rw [flush_current_eq options ok hsize]
  split at hcurrent
  next =>
    have hne : (flushed.rotate_after_seal b).2.current_buffer ≠ b := by
      intro heq
      rw [heq, FlushBuffer.is_available_iff, hlaunch.target_state] at hcurrent
      cases (state_flush_in_progress_or_flush _).symm.trans hcurrent.2.1
    refine .inl ⟨hne, ?_⟩
    rw [← FlushBuffer.is_available_congr (hlaunch.others _ hne).state]
    exact hcurrent
  next hfull =>
    refine .inr ⟨hcurrent, fun _ c _ => ?_⟩
    rw [Bool.eq_false_iff]
    exact fun hfree => hfull (free_ahead_of_available hcursor hfree)

/-- If any buffer is free, the current one is open. -/
def Covered (mem : BufferRing L) : Prop :=
  ∀ c, (mem.ring c).is_available = true → (mem.ring mem.current_buffer).is_open = true

theorem covered_init [NeZero L] (options : BufferRingOptions) :
    (with_options options : BufferRing L).Covered :=
  fun _ _ => FlushBuffer.is_open_iff.mpr ⟨state_sealed_zero, state_flush_in_progress_zero⟩

namespace Covered
variable {mem mem' : BufferRing L} {b : Fin L} {x : FlushBuffer L}

/-- A step that frees no buffer and leaves an open current buffer open. -/
theorem keep (h : mem.Covered) (hcurrent : mem'.current_buffer = mem.current_buffer)
    (hfree : ∀ c, (mem'.ring c).is_available = true → (mem.ring c).is_available = true)
    (hopen : (mem.ring mem.current_buffer).is_open = true →
      (mem'.ring mem.current_buffer).is_open = true) : mem'.Covered := by
  intro c hc
  rw [hcurrent]
  exact hopen (h c (hfree c hc))

/-- A rotation keeps the current buffer open or finds no free one. -/
theorem rotated (h : mem.Covered) (hb : (mem'.ring b).is_available = false)
    (hothers : ∀ c ≠ b, (mem.ring c).Kept (mem'.ring c))
    (hrotates : mem.Rotates b mem'.current_buffer) : mem'.Covered := by
  intro c hfree
  obtain ⟨hne, hcurrent⟩ | ⟨hcurrent, hfull⟩ := hrotates
  · rw [FlushBuffer.is_open_congr (hothers _ hne).state]
    exact FlushBuffer.is_open_of_available hcurrent
  · have hc : c ≠ b := by
      intro heq
      rw [heq, hb] at hfree
      cases hfree
    rw [FlushBuffer.is_available_congr (hothers c hc).state] at hfree
    by_cases hb : mem.current_buffer = b
    · rw [hfull hb c hc] at hfree
      cases hfree
    · rw [hcurrent, FlushBuffer.is_open_congr (hothers _ hb).state]
      exact h c hfree

/-- A step that touches one buffer and neither frees it nor closes it. -/
theorem touched (h : mem.Covered) (hcurrent : mem'.current_buffer = mem.current_buffer)
    (hothers : ∀ c ≠ b, (mem.ring c).Kept (mem'.ring c))
    (hfree : (mem'.ring b).is_available = true → (mem.ring b).is_available = true)
    (hopen : (mem.ring b).is_open = true → (mem'.ring b).is_open = true) : mem'.Covered := by
  refine h.keep hcurrent (fun c => ?_) ?_
  · by_cases hc : c = b
    · subst c
      exact hfree
    · rw [FlushBuffer.is_available_congr (hothers c hc).state]
      exact id
  · by_cases hc : mem.current_buffer = b
    · rw [hc]
      exact hopen
    · rw [FlushBuffer.is_open_congr (hothers _ hc).state]
      exact id

end Covered

end BufferRing

open BufferRing

/-- `check_cque` resets `b` for this completion. -/
def Cqe.frees (cqe : Cqe L) (b : Fin L) : Bool := cqe.user_data == some b && decide (0 ≤ cqe.result)

namespace Client

/-- The running `check_cque` has still to reset the current buffer. -/
def due (s : Client L) : Bool :=
  match s.stage with
  | .polling cqes => (cqes ++ s.mem.io.cq).any (·.frees s.mem.current_buffer)
  | _ => false

/-- Whether `check_cque` will reset the current buffer, from the completions it has in hand and those unread. -/
theorem due_polling {s : Client L} {cqes : List (Cqe L)} (hstage : s.stage = .polling cqes) :
    s.due = (cqes ++ s.mem.io.cq).any (·.frees s.mem.current_buffer) := by
  rw [due, hstage]

/-- A buffer that comes free is the current one, or the current one is open, or it comes free in the same
`check_cque`. -/
def timely (s : Client L) : Action L → Bool
  | .resume _ =>
    match s.stage with
    | .polling (cqe :: rest) =>
      let current := s.mem.current_buffer
      cqe.result < 0 || cqe.user_data.isNone || cqe.frees current || (s.mem.ring current).is_open ||
        (rest ++ s.mem.io.cq).any (·.frees current)
    | _ => true
  | _ => true

/-- A call that rotates finds the cursor away from the end of its range. -/
def sweeps (s : Client L) : Action L → Bool
  | .put _ _ => s.mem.unbroken
  | .flush_current _ => s.mem.unbroken
  | _ => true

/-- The current buffer is open if any is free, but for a reset of it that is under way. -/
structure Recovering (s : Client L) : Prop extends s.Sequential where
  covered : s.mem.Covered ∨ s.due = true

theorem recovering_init [NeZero L] (options : BufferRingOptions) :
    (init (with_options options) : Client L).Recovering where
  toSequential := sequential_init options
  covered := .inl (covered_init options)

section Steps
variable {options : BufferRingOptions} {store : QuikIO} {s s' : Client L} {a : Action L}

/-- Between two calls the current buffer is open if any is free. -/
theorem Recovering.between (hs : s.Recovering) (hstage : s.stage = .between) : s.mem.Covered := by
  obtain hcovered | hdue := hs.covered
  · exact hcovered
  · rw [due, hstage] at hdue
    cases hdue

/-- A call that rotates leaves the current buffer open if any is free. -/
theorem Recovering.put_step (hs : s.Recovering) (hrotate : options.auto_rotate = true)
    {i : Nat} {ok : Bool} (hsweeps : sweeps s (.put i ok) = true) {call : PutCall L}
    (hstage : s.stage = .between) (hcall : s.calls[i]? = some call)
    (hresult : call.reserve_result = .error .InsufficientSpace)
    (hopen : state_sealed (s.mem.ring call.current).state = false)
    (hb : (s'.mem.ring call.current).is_available = false)
    (hothers : ∀ c ≠ call.current, (s.mem.ring c).Kept (s'.mem.ring c))
    (h : Client.step options s (.put i ok) = some s') : s'.mem.Covered := by
  apply (hs.between hstage).rotated hb hothers
  have hcurrent := (put_seals_fields options ok call.payload hopen).1
  rw [step_put hstage hcall h, hresult, hcurrent]
  exact sealing_rotates hrotate hsweeps call.current

/-- A reservation keeps the current buffer open if any is free. -/
theorem Recovering.granted_step (hs : s.Recovering) {b : Fin L} {payload : Slice} {offset new : Usize}
    (hpaired : s.calls = []) (hstage : s.stage = .between) (hlen : payload.len ≤ ONE_MEGABYTE_BLOCK)
    (hdecision : FlushBuffer.reserve_decision (s.mem.ring b).state payload.len = .ok (offset, new)) :
    (s.mem.modify b (·.grant new offset payload.len)).Covered := by
  have hmem := Changed.of_modify s.mem b (·.grant new offset payload.len)
  obtain ⟨hsealed, hflush, _, _, hnew⟩ := FlushBuffer.reserve_decision_ok hdecision
  have hfilled := hs.steady.filled b
  rw [hpaired] at hfilled
  have hwriters : (state_writers (s.mem.ring b).state).toNat = 0 := hfilled.writers
  have hfits := hfilled.fits
  have hblock : ONE_MEGABYTE_BLOCK.toNat = 1048576 := rfl
  rw [BitVec.le_def, hblock] at hlen
  rw [FlushBuffer.size] at hfits
  have hgrows := state_offset_reserved (s.mem.ring b).state payload.len (by omega) (by omega)
  refine (hs.between hstage).touched (modify_current _ _ _) hmem.others ?_ ?_
  · intro hfree
    rw [hmem.target, FlushBuffer.is_available_iff, FlushBuffer.size, FlushBuffer.grant_state, hnew] at hfree
    refine (FlushBuffer.is_available_iff _).mpr ⟨hsealed, hflush, BitVec.eq_of_toNat_eq ?_⟩
    rw [hfree.2.2] at hgrows
    have hzero : (0 : Usize).toNat = 0 := rfl
    rw [FlushBuffer.size]
    omega
  · intro _
    rw [hmem.target, FlushBuffer.is_open_iff, FlushBuffer.grant_state, hnew, state_sealed_reserved,
      state_flush_in_progress_reserved]
    exact ⟨hsealed, hflush⟩

/-- The copy of a payload keeps the current buffer open if any is free. -/
theorem Recovering.copies_step (hs : s.Recovering) {i : Nat} {call : PutCall L} {mem : BufferRing L}
    {offset : Usize} (hstage : s.stage = .between) (hcall : s.calls[i]? = some call)
    (hresult : call.reserve_result = .ok offset) (hcurrent : mem.current_buffer = s.mem.current_buffer)
    (hmem : Changed s.mem mem call.current
      ((s.mem.ring call.current).write offset call.payload).decrement_writers) : mem.Covered := by
  have hwriters := (hs.steady.filled call.current).writers
  rw [(outstanding_erase_ok hcall hresult).length_eq, List.length_cons] at hwriters
  have hoffset := state_offset_sub_writer (s.mem.ring call.current).state (by omega)
  apply (hs.between hstage).touched hcurrent hmem.others
  · intro hfree
    rw [hmem.target, FlushBuffer.is_available_iff] at hfree
    refine (FlushBuffer.is_available_iff _).mpr ⟨?_, ?_, ?_⟩
    · exact (state_sealed_sub_writer _).symm.trans hfree.1
    · exact (state_flush_in_progress_sub_writer _).symm.trans hfree.2.1
    · exact hoffset.symm.trans hfree.2.2
  · intro hopen
    rw [FlushBuffer.is_open_iff] at hopen
    rw [hmem.target, FlushBuffer.is_open_iff]
    exact ⟨(state_sealed_sub_writer _).trans hopen.1,
      (state_flush_in_progress_sub_writer _).trans hopen.2⟩

/-- Handling a success resets a buffer; if that is not the current one, the current one is open or its own
turn comes later in the same call. -/
theorem succeeds_covers {cqe : Cqe L} {rest : List (Cqe L)} {b : Fin L}
    {ok : Bool} (hstage : s.stage = .polling (cqe :: rest)) (huser : cqe.user_data = some b)
    (hresult : 0 ≤ cqe.result) (htimely : timely s (.resume ok) = true)
    (hring : s'.mem.ring = ((s.mem.report options b).reset_buffer b).ring)
    (hcurrent : s'.mem.current_buffer = s.mem.current_buffer) (hcq : s'.mem.io.cq = s.mem.io.cq)
    (hstage' : s'.stage = .polling rest) : s'.mem.Covered ∨ s'.due = true := by
  have hstate (c : Fin L) : s'.mem.ring c = if b = c then (s.mem.ring c).reset else s.mem.ring c := by
    rw [hring, reset_buffer_ring, report_ring]
  by_cases hb : b = s.mem.current_buffer
  · left
    intro _ _
    rw [hcurrent, hstate, if_pos hb]
    exact FlushBuffer.is_open_iff.mpr ⟨state_sealed_zero, state_flush_in_progress_zero⟩
  · by_cases hopen : (s.mem.ring s.mem.current_buffer).is_open = true
    · left
      intro _ _
      rw [hcurrent, hstate, if_neg hb]
      exact hopen
    · right
      rw [due, hstage', hcurrent, hcq]
      have hnegative : ¬ cqe.result < 0 := Int.not_lt.mpr hresult
      simpa [timely, hstage, huser, hnegative, Cqe.frees, hb, hopen] using htimely

/-- After a step the current buffer is open if any is free, but for a reset of it that is under way. -/
theorem Recovering.covered_step (hs : s.Recovering) (hrotate : options.auto_rotate = true)
    (hflush : options.auto_flush = true) (hpaired : paired s a = true) (hauto : automatic a = true)
    (htimely : timely s a = true) (hsweeps : sweeps s a = true) (hstore : options.io_instance = some store)
    (h : Client.step options s a = some s') (hmoves : Moves options store s a s') :
    s'.mem.Covered ∨ s'.due = true := by
  have hpolls := hs.polls
  cases hmoves
  case granted hstage hlen hdecision =>
    exact .inl (hs.granted_step (List.isEmpty_iff.mp hpaired) hstage hlen hdecision)
  case rejected hstage _ => exact .inl (hs.between hstage)
  case put_fails hstage _ _ => exact .inl (hs.between hstage)
  case put_seals hstage hcall hresult hopen _ hmem _ =>
    left
    refine hs.put_step hrotate hsweeps hstage hcall hresult hopen ?_ hmem.others h
    rw [hmem.target]
    exact FlushBuffer.is_available_of_sealed (state_sealed_or_sealed _)
  case put_launches hstage hcall hresult hopen _ _ _ hmem _ =>
    left
    refine hs.put_step hrotate hsweeps hstage hcall hresult hopen ?_ hmem.others h
    apply FlushBuffer.is_available_of_sealed
    rw [hmem.target_state, state_sealed_or_flush]
    exact state_sealed_or_sealed _
  case put_discards hmanual _ _ => cases hflush.symm.trans hmanual
  case copies call mem offset hstage hcall hresult _ hmem _ =>
    left
    refine hs.copies_step hstage hcall hresult ?_ hmem
    have hput : mem = _ := step_put hstage hcall h
    rw [hput, hresult]
    exact put_copies_current options _ _ _
  case copy_launches call mem offset hstage hcall hresult _ hsealed _ _ hmem _ =>
    left
    have hclosed : state_sealed (mem.ring call.current).state = true := by
      rw [hmem.target_state, state_sealed_or_flush]
      exact (state_sealed_sub_writer _).trans hsealed
    have hput : mem = _ := step_put hstage hcall h
    refine (hs.between hstage).touched ?_ hmem.others ?_ ?_
    · rw [hput, hresult]
      exact put_copies_current options _ _ _
    · intro hfree
      rw [FlushBuffer.is_available_of_sealed hclosed] at hfree
      cases hfree
    · intro hopen
      cases hsealed.symm.trans (FlushBuffer.is_open_iff.mp hopen).1
  case copy_discards hmanual _ _ => cases hflush.symm.trans hmanual
  case current_empty hstage => exact .inl (hs.between hstage)
  case current_launches mem hstage hsize hmem _ =>
    left
    have hflushed : mem = _ := step_flush_current hstage h
    refine (hs.between hstage).rotated ?_ hmem.others ?_
    · rw [Bool.eq_false_iff, ne_eq, FlushBuffer.is_available_iff, hmem.target_state]
      simp
    · rw [hflushed]
      exact flush_current_rotates hstore _ hsweeps hsize
  case polls hstage => exact .inl (hs.between hstage)
  case drains hstage =>
    refine hs.covered.imp id fun hdue => ?_
    rw [due_polling hstage, List.nil_append] at hdue
    have hsome : s.mem.io.cq.isEmpty = false := by
      rw [List.isEmpty_eq_false_iff]
      intro hnone
      rw [hnone] at hdue
      cases hdue
    have hdrained : (s.drain fun cqes => if cqes.isEmpty then .between else .polling cqes).stage =
        .polling s.mem.io.cq := by
      simp [drain, IoUring.drain, hsome]
    rw [due_polling hdrained, List.any_append, drain]
    exact Bool.or_eq_true_iff.mpr (.inl hdue)
  case ignores cqe rest hstage huser =>
    refine hs.covered.imp id fun hdue => ?_
    rw [due, hstage] at hdue
    simpa [due, Cqe.frees, huser] using hdue
  case retries cqe rest b hstage huser hresult =>
    obtain ⟨_, _, hcq⟩ := retry_grows s.mem _ b
    refine hs.covered.imp (fun h => ?_) fun hdue => ?_
    · intro c
      rw [retry_ring, retry_current]
      exact h c
    · rw [due, hstage] at hdue
      simp only [due]
      rw [retry_current, hcq]
      simpa [Cqe.frees, Int.not_le.mpr hresult] using hdue
  case succeeds b hstage huser hresult =>
    refine succeeds_covers hstage huser hresult htimely rfl ?_ ?_ rfl
    · exact report_current options s.mem b
    · exact congrArg IoUring.cq (report_io options s.mem b)
  case completes hmem =>
    obtain ⟨e, _, _, rfl⟩ := complete_cases hmem
    refine hs.covered.imp id fun hdue => ?_
    unfold due at hdue ⊢
    simp only at hdue ⊢
    split at hdue
    next cqes hstage =>
      simp only [IoUring.finish, ← List.append_assoc, List.any_append, hdue, Bool.true_or]
    next => cases hdue
  case flushes | sync_launches | wait_starts | sync_starts | read_refused | read_submits => cases hauto
  case wait_drains hstage | wait_tests hstage | sync_refused hstage | sync_submits hstage _ | sync_ends hstage _ |
      sync_resets hstage _ | read_takes hstage _ =>
    cases hstage ▸ hpolls

/-- Every step that meets the conditions keeps the ring recovering. -/
theorem Recovering.step (hs : s.Recovering) (hstore : options.io_instance = some store)
    (hrotate : options.auto_rotate = true) (hflush : options.auto_flush = true)
    (hpaired : paired s a = true) (hauto : automatic a = true) (htimely : timely s a = true)
    (hsweeps : sweeps s a = true) (h : Client.step options s a = some s') : s'.Recovering := by
  have hmoves := step_moves hstore h
  exact ⟨hs.toSequential.step hpaired hauto hmoves,
    hs.covered_step hrotate hflush hpaired hauto htimely hsweeps hstore h hmoves⟩

/-- As long as no other buffer comes free while the current one is closed, and the cursor does not wrap,
a free buffer means that the current one takes reservations. -/
theorem current_open_of_available [NeZero L] (hstore : options.io_instance = some store)
    (hrotate : options.auto_rotate = true) (hflush : options.auto_flush = true)
    (h : Reaches (Client.step options)
      (fun s a => paired s a = true ∧ automatic a = true ∧ timely s a = true ∧ sweeps s a = true)
      (init (with_options options)) s)
    (hreturned : s.stage = .between) {c : Fin L} (hfree : (s.mem.ring c).is_available = true) :
    let current := s.mem.ring s.mem.current_buffer
    state_sealed current.state = false ∧ state_flush_in_progress current.state = false ∧
      ∀ payload_size, FlushBuffer.reserve_decision current.state payload_size ≠
        .error .EncounteredSealedBuffer := by
  have hs : s.Recovering := h.invariant (P := Recovering)
    (fun _ _ _ hs hok h => hs.step hstore hrotate hflush hok.1 hok.2.1 hok.2.2.1 hok.2.2.2 h)
    (recovering_init options)
  have hopen := hs.between hreturned c hfree
  obtain ⟨hsealed, hclear⟩ := FlushBuffer.is_open_iff.mp hopen
  exact ⟨hsealed, hclear, FlushBuffer.is_open.decision hopen⟩

end Steps

/-- Both buffers are filled, sealed and submitted; the rotation away from the second finds none free. -/
def exhaust : List (Action 2) :=
  [.reserve_space 0 (zeros ONE_MEGABYTE_BLOCK), .put 0 true, .reserve_space 0 (zeros 1), .put 0 true,
    .reserve_space 1 (zeros ONE_MEGABYTE_BLOCK), .put 0 true, .reserve_space 1 (zeros 1), .put 0 true]

/-- The kernel answers both writes, the second first, and `check_cque` resets both buffers. -/
def recover : List (Action 2) :=
  exhaust ++ [.complete 1 1048576, .complete 0 1048576, .check_cque, .resume true, .resume true,
    .resume true, .resume true]

theorem current_open_of_available_recover :
    ∃ s : Client 2,
      Reaches (Client.step storeOptions)
        (fun s a => paired s a = true ∧ automatic a = true ∧ timely s a = true ∧ sweeps s a = true)
        (init (with_options storeOptions)) s ∧
      s.fates.reset.length = 2 ∧
      let current := s.mem.ring s.mem.current_buffer
      state_sealed current.state = false ∧ state_flush_in_progress current.state = false ∧
        ∀ payload_size, FlushBuffer.reserve_decision current.state payload_size ≠
          .error .EncounteredSealedBuffer := by
  have hrun : (exec (Client.step storeOptions)
      (fun s a => paired s a = true ∧ automatic a = true ∧ timely s a = true ∧ sweeps s a = true)
      recover (init (with_options storeOptions))).any
      (fun s => s.fates.reset.length == 2 && s.stage.returned && (s.mem.ring 0).is_available) = true := by
    decide +kernel
  obtain ⟨s, hreach, hcheck⟩ := exists_of_exec hrun
  simp only [Bool.and_eq_true, beq_iff_eq] at hcheck
  obtain ⟨⟨hreset, hstage⟩, hfree⟩ := hcheck
  refine ⟨s, hreach, hreset, ?_⟩
  have hstore : storeOptions.io_instance = some QuikIO.new := rfl
  exact current_open_of_available hstore rfl rfl hreach (Stage.eq_between hstage) hfree

/-- The write of the first buffer is answered before that of the second, which stays current. -/
def stall : List (Action 2) :=
  exhaust ++ [.complete 0 1048576, .check_cque, .resume true, .resume true, .resume true]

/-- The first buffer is free, and the current one still refuses reservations. -/
theorem free_buffer_unused :
    ∃ s : Client 2,
      Reaches (Client.step storeOptions) (fun s a => paired s a = true ∧ automatic a = true)
        (init (with_options storeOptions)) s ∧
      s.stage = .between ∧ (s.mem.ring 0).is_available = true ∧
      state_sealed (s.mem.ring s.mem.current_buffer).state = true ∧
      state_flush_in_progress (s.mem.ring s.mem.current_buffer).state = true ∧
      FlushBuffer.reserve_decision (s.mem.ring s.mem.current_buffer).state 1 =
        .error .EncounteredSealedBuffer := by
  have hrun : (exec (Client.step storeOptions) (fun s a => paired s a = true ∧ automatic a = true)
      stall (init (with_options storeOptions))).any
      (fun s => s.stage.returned && (s.mem.ring 0).is_available &&
        state_sealed (s.mem.ring s.mem.current_buffer).state &&
        state_flush_in_progress (s.mem.ring s.mem.current_buffer).state) = true := by
    decide +kernel
  obtain ⟨s, hreach, hcheck⟩ := exists_of_exec hrun
  simp only [Bool.and_eq_true] at hcheck
  obtain ⟨⟨⟨hstage, hfree⟩, hsealed⟩, hflush⟩ := hcheck
  refine ⟨s, hreach, Stage.eq_between hstage, hfree, hsealed, hflush, ?_⟩
  unfold FlushBuffer.reserve_decision
  rw [if_pos]
  intro hflags
  cases hsealed.symm.trans ((flags_clear_iff _).mp hflags).1

end Client

end FlushRing
