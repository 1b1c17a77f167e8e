import FlushRing.Client.Moves

open Transition

namespace FlushRing

variable {L : Nat}

open BufferRing

/-- A buffer is submitted in whole blocks. -/
theorem FlushBuffer.data_len_aligned (self : FlushBuffer L) : self.data_len.toNat % 4096 = 0 := by
  rw [data_len_toNat]
  omega

/-- The length an entry carries is whole blocks, cut down to 32 bits or not. -/
theorem FlushBuffer.entry_len_aligned (self : FlushBuffer L) (store : QuikIO) (b : Fin L) :
    (self.entry store b).len % 4096 = 0 := by
  have hlen : (self.entry store b).len = (self.data_len.setWidth 32).toNat := rfl
  have haligned := self.data_len_aligned
  rw [hlen, BitVec.toNat_setWidth]
  omega

theorem add_aligned {x y : Usize} (hx : x.toNat % 4096 = 0) (hy : y.toNat % 4096 = 0) :
    (x + y).toNat % 4096 = 0 := by
  rw [BitVec.toNat_add]
  omega

namespace BufferRing

/-- The next address, the addresses of sealed buffers and the writes submitted so far are at whole
blocks. -/
structure Aligned (mem : BufferRing L) : Prop where
  next : mem.next_address_range.toNat % 4096 = 0
  addressed : ∀ b, state_sealed (mem.ring b).state = true → (mem.ring b).local_address.toNat % 4096 = 0
  pushed : ∀ e ∈ mem.io.pushed, e.offset.toNat % 4096 = 0 ∧ e.len % 4096 = 0
  stored : ∀ b e, (mem.ring b).sqe = some e → e ∈ mem.io.pushed

theorem aligned_init [NeZero L] (options : BufferRingOptions) :
    (with_options options : BufferRing L).Aligned where
  next := rfl
  addressed b h := by cases (state_sealed_zero).symm.trans h
  pushed e he := by cases he
  stored b e h := by cases h

namespace Aligned
variable {mem mem' : BufferRing L} {b : Fin L} {x : FlushBuffer L} {store : QuikIO} {ok : Bool}

/-- A step that pushes nothing. -/
theorem keep (h : mem.Aligned) (hnext : mem'.next_address_range.toNat % 4096 = 0)
    (hpushed : mem'.io.pushed = mem.io.pushed)
    (hring : ∀ c, (mem'.ring c).sqe = (mem.ring c).sqe ∧ (state_sealed (mem'.ring c).state = true →
      (mem'.ring c).local_address.toNat % 4096 = 0)) : mem'.Aligned where
  next := hnext
  addressed c := (hring c).2
  pushed := by
    rw [hpushed]
    exact h.pushed
  stored c e hstored := by
    rw [hpushed]
    rw [(hring c).1] at hstored
    exact h.stored c e hstored

theorem kept (h : mem.Aligned) {c : Fin L} {y : FlushBuffer L} (hy : (mem.ring c).Kept y) :
    y.sqe = (mem.ring c).sqe ∧
      (state_sealed y.state = true → y.local_address.toNat % 4096 = 0) := by
  refine ⟨hy.sqe, fun hsealed => ?_⟩
  obtain rfl := hy.eq_of_still_sealed hsealed
  exact h.addressed c hsealed

/-- A changed buffer needs an aligned address if it is sealed. -/
theorem changed (h : mem.Aligned) (hmem : Changed mem mem' b x)
    (hnext : mem'.next_address_range.toNat % 4096 = 0) (hsqe : x.sqe = (mem.ring b).sqe)
    (hx : state_sealed x.state = true → x.local_address.toNat % 4096 = 0) : mem'.Aligned := by
  refine h.keep hnext (congrArg IoUring.pushed hmem.io) ?_
  exact hmem.forall_ring (P := fun c y => y.sqe = (mem.ring c).sqe ∧
    (state_sealed y.state = true → y.local_address.toNat % 4096 = 0)) ⟨hsqe, hx⟩
    fun c _ y hy => h.kept hy

/-- The entry of an aligned buffer is aligned. -/
theorem launched (h : mem.Aligned) (hmem : Launched store ok mem mem' b x)
    (hnext : mem'.next_address_range.toNat % 4096 = 0) (hsqe : x.sqe = (mem.ring b).sqe)
    (hx : x.local_address.toNat % 4096 = 0) : mem'.Aligned := by
  have haddressed := hmem.forall_ring (P := fun c y => state_sealed y.state = true →
    y.local_address.toNat % 4096 = 0) (fun _ _ => hx) fun c _ y hy => (h.kept hy).2
  refine ⟨hnext, haddressed, fun e he => ?_, hmem.keeps_stored hsqe h.stored⟩
  obtain ⟨hpushed, _⟩ | ⟨_, hpushed, _⟩ := hmem.pushed_cases hsqe
  · rw [hpushed] at he
    exact h.pushed e he
  · rw [hpushed, List.mem_append, List.mem_singleton] at he
    obtain he | rfl := he
    · exact h.pushed e he
    · exact ⟨hx, x.entry_len_aligned store b⟩

/-- A retry pushes an entry that was pushed before. -/
theorem retry (h : mem.Aligned) (ok : Bool) (b : Fin L) : (mem.retry ok b).Aligned := by
  refine ⟨?_, fun c hsealed => ?_, fun e he => ?_, fun c e hstored => ?_⟩
  · rw [retry_address]
    exact h.next
  · rw [retry_ring] at hsealed ⊢
    exact h.addressed c hsealed
  · exact h.pushed e ((Client.mem_pushed_retry he).elim id (h.stored b e))
  · rw [retry_ring] at hstored
    exact (Client.retry_grows mem ok b).1 e (h.stored c e hstored)

end Aligned

end BufferRing

namespace Client

/-- A `flush_current` and a rotation that finds a free buffer claim whole blocks. -/
def wholeBlocks (options : BufferRingOptions) (s : Client L) : Action L → Bool
  | .put i _ =>
    s.calls[i]?.all fun call =>
      let b := call.current
      match call.reserve_result with
      | .error .InsufficientSpace =>
        state_sealed (s.mem.ring b).state || !options.auto_rotate || s.mem.current_buffer != b ||
          !(s.mem.claim b (s.mem.ring b).data_len).free_ahead L || (s.mem.ring b).size.toNat % 4096 == 0
      | _ => true
  | .flush_current _ =>
    let size := (s.mem.ring s.mem.current_buffer).size.toNat
    if s.mem.free_ahead L then 2 * size % 4096 == 0 else size % 4096 == 0
  | _ => true

section Steps
variable {options : BufferRingOptions} {store : QuikIO} {s s' : Client L} {a : Action L}

/-- Sealing moves the next address by whole blocks. -/
theorem sealing_aligned {call : PutCall L} {i : Nat} {ok : Bool} (hs : s.mem.Aligned)
    (hwhole : wholeBlocks options s (.put i ok) = true) (hcall : s.calls[i]? = some call)
    (hresult : call.reserve_result = .error .InsufficientSpace)
    (hopen : state_sealed (s.mem.ring call.current).state = false) :
    (s.mem.put options ok call.current call.reserve_result call.payload).2.next_address_range.toNat
      % 4096 = 0 := by
  have hpadded := add_aligned hs.next (s.mem.ring call.current).data_len_aligned
  rw [hresult, (put_seals_fields options ok call.payload hopen).2.2, sealing_address]
  split
  next hrotates =>
    refine add_aligned hpadded ?_
    simpa [wholeBlocks, hcall, hresult, hopen, hrotates.1, hrotates.2.1, hrotates.2.2] using hwhole
  next => exact hpadded

/-- Every step that meets the conditions keeps the ring aligned. -/
theorem aligned_step (hstore : options.io_instance = some store)
    (hflush : options.auto_flush = true) (hs : s.mem.Aligned)
    (hauto : automatic a = true) (hpolls : s.stage.polls = true)
    (hwhole : wholeBlocks options s a = true) (h : Client.step options s a = some s') :
    s'.mem.Aligned := by
  have hmoves := step_moves hstore h
  have hzero {address : Usize} (hsealed : state_sealed 0#64 = true) : address.toNat % 4096 = 0 := by
    cases (state_sealed_zero).symm.trans hsealed
  have hsealing {i : Nat} {ok : Bool} {call : PutCall L} {mem : BufferRing L} (hstage : s.stage = .between)
      (hcall : s.calls[i]? = some call) (hresult : call.reserve_result = .error .InsufficientSpace)
      (hopen : state_sealed (s.mem.ring call.current).state = false)
      (hwhole : wholeBlocks options s (.put i ok) = true)
      (h : Client.step options s (.put i ok) = some { s with mem, calls := s.calls.eraseIdx i }) :
      mem.next_address_range.toNat % 4096 = 0 := by
    have hmem : mem = _ := step_put hstage hcall h
    rw [hmem]
    exact sealing_aligned hs hwhole hcall hresult hopen
  cases hmoves
  case granted b payload offset new _ _ hdecision =>
    refine hs.changed (.of_modify s.mem b (·.grant new offset payload.len)) hs.next rfl fun hsealed => ?_
    obtain ⟨hopen, _, _, _, hnew⟩ := FlushBuffer.reserve_decision_ok hdecision
    rw [FlushBuffer.grant_state, hnew, state_sealed_reserved, hopen] at hsealed
    cases hsealed
  case put_seals hstage hcall hresult hopen _ hmem _ =>
    exact hs.changed hmem (hsealing hstage hcall hresult hopen hwhole h) rfl fun _ => hs.next
  case put_launches hstage hcall hresult hopen _ _ _ hmem _ =>
    exact hs.launched hmem (hsealing hstage hcall hresult hopen hwhole h) rfl hs.next
  case put_discards hmanual _ _ => cases hflush.symm.trans hmanual
  case copies hmem hclaim =>
    refine hs.changed hmem ?_ rfl fun hsealed => ?_
    · rw [hclaim]
      exact hs.next
    · exact hs.addressed _ ((state_sealed_sub_writer _).symm.trans hsealed)
  case copy_launches hsealed _ _ hmem hclaim =>
    refine hs.launched hmem ?_ rfl (hs.addressed _ hsealed)
    rw [hclaim]
    exact hs.next
  case copy_discards hmanual _ _ => cases hflush.symm.trans hmanual
  case current_launches hmem hclaim =>
    refine hs.launched hmem ?_ rfl hs.next
    have hnext := hs.next
    simp only [wholeBlocks] at hwhole
    rw [hclaim]
    split
    next hfree =>
      rw [if_pos hfree, beq_iff_eq] at hwhole
      rw [BitVec.toNat_add, BitVec.toNat_add]
      omega
    next hfree =>
      rw [if_neg hfree, beq_iff_eq] at hwhole
      exact add_aligned hs.next hwhole
  case flushes | sync_launches | wait_starts | sync_starts | read_refused | read_submits => cases hauto
  case drains => exact hs.keep hs.next rfl fun c => ⟨rfl, hs.addressed c⟩
  case retries => exact hs.retry _ _
  case succeeds b _ _ _ =>
    refine hs.keep ?_ ?_ fun c => ?_
    · exact congrArg (fun address : Usize => address.toNat % 4096) (report_address options s.mem b) |>.trans
        hs.next
    · exact congrArg IoUring.pushed (report_io options s.mem b)
    · rw [reset_buffer_ring, report_ring]
      split
      · exact ⟨rfl, hzero⟩
      · exact ⟨rfl, hs.addressed c⟩
  case wait_drains hstage | wait_tests hstage | sync_refused hstage | sync_submits hstage _ | sync_ends hstage _ |
      sync_resets hstage _ | read_takes hstage _ =>
    cases hstage ▸ hpolls
  case completes hmem =>
    obtain ⟨e, _, _, rfl⟩ := complete_cases hmem
    exact hs.keep hs.next rfl fun c => ⟨rfl, hs.addressed c⟩
  all_goals exact hs

/-- As long as every `flush_current` and every rotation that finds a free buffer claims whole blocks, the
writes submitted are at whole blocks of the file and of whole blocks. -/
theorem writes_aligned [NeZero L] (hstore : options.io_instance = some store)
    (hflush : options.auto_flush = true)
    (h : Reaches (Client.step options)
      (fun s a => automatic a = true ∧ wholeBlocks options s a = true)
      (init (with_options options)) s)
    {e : Sqe L} (he : e ∈ s.mem.io.pushed) : e.offset.toNat % 4096 = 0 ∧ e.len % 4096 = 0 := by
  have hs : s.mem.Aligned ∧ s.stage.polls = true := by
    refine h.invariant (P := fun s => s.mem.Aligned ∧ s.stage.polls = true) ?_
      ⟨aligned_init options, rfl⟩
    rintro s a s' ⟨hs, hpolls⟩ ⟨hauto, hwhole⟩ hstep
    exact ⟨aligned_step hstore hflush hs hauto hpolls hwhole hstep,
      (step_moves hstore hstep).stays_polling hauto hpolls⟩
  exact hs.1.pushed e he

end Steps

/-- Two full buffers are sealed and submitted one after the other. -/
def sealTwo : List (Action 3) :=
  [.reserve_space 0 (zeros ONE_MEGABYTE_BLOCK), .put 0 true, .reserve_space 0 (zeros 1), .put 0 true,
    .reserve_space 1 (zeros ONE_MEGABYTE_BLOCK), .put 0 true, .reserve_space 1 (zeros 1), .put 0 true]

theorem writes_aligned_sealTwo :
    ∃ s : Client 3,
      Reaches (Client.step storeOptions)
        (fun s a => automatic a = true ∧ wholeBlocks storeOptions s a = true)
        (init (with_options storeOptions)) s ∧
      ∃ e ∈ s.mem.io.pushed, e.user_data = some 1 ∧ e.offset.toNat % 4096 = 0 ∧ e.len % 4096 = 0 := by
  have hrun : (exec (Client.step storeOptions)
      (fun s a => automatic a = true ∧ wholeBlocks storeOptions s a = true)
      sealTwo (init (with_options storeOptions))).any
      (fun s => s.mem.io.pushed.any fun e => e.user_data == some 1) = true := by
    decide +kernel
  obtain ⟨s, hreach, hcheck⟩ := exists_of_exec hrun
  simp only [List.any_eq_true, beq_iff_eq] at hcheck
  obtain ⟨e, he, hbuffer⟩ := hcheck
  have hstore : storeOptions.io_instance = some QuikIO.new := rfl
  exact ⟨s, hreach, e, he, hbuffer, writes_aligned hstore rfl hreach he⟩

/-- Ten bytes in the first buffer, and two payloads that fill the ones after it. -/
def tenThenFull : List (Action 3) :=
  [.reserve_space 0 (zeros 10), .put 0 true, .reserve_space 0 (zeros ONE_MEGABYTE_BLOCK), .put 0 true,
    .reserve_space 1 (zeros ONE_MEGABYTE_BLOCK), .put 0 true, .reserve_space 1 (zeros 1), .put 0 true]

/-- The rotation away from the first buffer claims its ten bytes, and the second buffer is written behind
them. -/
theorem rotation_misaligns :
    ∃ s : Client 3,
      Reaches (Client.step storeOptions) (fun _ a => automatic a = true)
        (init (with_options storeOptions)) s ∧
      ∃ e ∈ s.mem.io.pushed, e.offset = 4106 ∧ ¬ (e.offset.toNat % 4096 = 0 ∧ e.len % 4096 = 0) := by
  have hrun : (exec (Client.step storeOptions) (fun _ a => automatic a = true)
      tenThenFull (init (with_options storeOptions))).any
      (fun s => s.mem.io.pushed.any fun e => e.offset == 4106) = true := by
    decide +kernel
  obtain ⟨s, hreach, hcheck⟩ := exists_of_exec hrun
  simp only [List.any_eq_true, beq_iff_eq] at hcheck
  obtain ⟨e, he, hoffset⟩ := hcheck
  refine ⟨s, hreach, e, he, hoffset, ?_⟩
  rw [hoffset]
  exact fun h => absurd h.1 (by decide)

end Client

end FlushRing
