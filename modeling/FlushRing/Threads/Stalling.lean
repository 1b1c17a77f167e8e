import FlushRing.Threads.Logging

open Transition

namespace FlushRing

variable {L : Nat}

/-- The thread is in no call. -/
def Pc.unoccupied : Pc L → Bool
  | .idle => true
  | _ => false

theorem Pc.unoccupied_iff {pc : Pc L} : pc.unoccupied = true ↔ pc = .idle := by
  cases pc <;> simp [unoccupied]

namespace BufferRing

/-- The current buffer is open and nobody writes to any buffer. -/
structure Ready (mem : BufferRing L) : Prop where
  opened : (mem.ring mem.current_buffer).is_open = true
  drained : ∀ b, state_writers (mem.ring b).state = 0

section Ready
variable {options : BufferRingOptions} {ok : Bool} {mem : BufferRing L} {payload : Slice}

/-- A reservation in an open buffer that is not sealed before its `put` copies. -/
theorem put_open {offset : Usize} (hsealed : state_sealed (mem.ring mem.current_buffer).state = false) :
    mem.put options ok mem.current_buffer (.ok offset) payload =
      (.ok .SuccessfullWrite,
        (mem.modify mem.current_buffer (·.write offset payload)).modify mem.current_buffer
          FlushBuffer.decrement_writers) := by
  have hlast : ¬ (state_writers ((mem.ring mem.current_buffer).write offset payload).state = 1 ∧
      state_sealed ((mem.ring mem.current_buffer).write offset payload).state = true) := by
    rintro ⟨_, h⟩
    cases hsealed.symm.trans h
  rw [put_copies]
  simp only
  rw [if_neg hlast]

/-- A payload that does not fit seals the current buffer and hands it over. -/
theorem Ready.put_full (h : mem.Ready) :
    mem.put options ok mem.current_buffer (.error .InsufficientSpace) payload =
      (.ok .SuccessfullWriteFlush,
        dispatch options ok ((sealing options mem mem.current_buffer).modify mem.current_buffer
          FlushBuffer.set_flush_in_progress) mem.current_buffer) := by
  obtain ⟨hsealed, hflush⟩ := FlushBuffer.is_open_iff.mp h.opened
  rw [put_seals ok payload hsealed, if_pos (h.drained _), hflush]
  rfl

/-- What a reservation in the current buffer gives, and that its `put` succeeds. -/
theorem Ready.logs (h : mem.Ready) (options : BufferRingOptions) (ok : Bool)
    (hlen : payload.len ≤ ONE_MEGABYTE_BLOCK) :
    ∃ result after msg, (mem.ring mem.current_buffer).reserve_space payload.len = some (result, after) ∧
      result ≠ .error .FailedReservation ∧ result ≠ .error .EncounteredSealedBuffer ∧
      ((mem.modify mem.current_buffer fun _ => after).put options ok mem.current_buffer result payload).1 =
        .ok msg := by
  obtain ⟨hsealed, hflush⟩ := FlushBuffer.is_open_iff.mp h.opened
  have hdecision := @FlushBuffer.reserve_decision_open _ payload.len hsealed hflush
  by_cases hfull : state_offset (mem.ring mem.current_buffer).state + payload.len > ONE_MEGABYTE_BLOCK
  · rw [if_pos hfull] at hdecision
    refine ⟨.error .InsufficientSpace, mem.ring mem.current_buffer, .SuccessfullWriteFlush, ?_, by decide,
      by decide, ?_⟩
    · rw [FlushBuffer.reserve_space, if_pos hlen, hdecision]
    · rw [modify_eq_self rfl, h.put_full]
  · rw [if_neg hfull] at hdecision
    let granted := (mem.ring mem.current_buffer).grant
      (reserved_word (mem.ring mem.current_buffer).state payload.len)
      (state_offset (mem.ring mem.current_buffer).state) payload.len
    refine ⟨.ok (state_offset (mem.ring mem.current_buffer).state), granted, .SuccessfullWrite, ?_, by simp,
      by simp, ?_⟩
    · rw [FlushBuffer.reserve_space, if_pos hlen, hdecision]
    · let granting := mem.modify mem.current_buffer fun _ => granted
      have hsealed' : state_sealed (granting.ring granting.current_buffer).state = false := by
        rw [modify_current, modify_ring_self, FlushBuffer.grant_state, state_sealed_reserved]
        exact hsealed
      have hput : granting.put options ok granting.current_buffer
          (.ok (state_offset (mem.ring mem.current_buffer).state)) payload = _ := put_open hsealed'
      exact congrArg Prod.fst hput

/-- A rotation leaves the current buffer, or takes a free one for it. -/
theorem sealing_current (options : BufferRingOptions) (self : BufferRing L) (b : Fin L) :
    let current := (sealing options self b).current_buffer
    current = self.current_buffer ∨ current ≠ b ∧ (self.ring current).is_available = true := by
  let claimed := self.claim b (self.ring b).data_len
  have hclaimed := self.claim_changed b (self.ring b).data_len
  have hcurrent := rotate_after_seal_current claimed b
  simp only at hcurrent ⊢
  unfold sealing
  simp only
  split
  next =>
    split at hcurrent
    next =>
      have hne : (claimed.rotate_after_seal b).2.current_buffer ≠ b := by
        intro heq
        rw [heq, hclaimed.target, FlushBuffer.is_available_of_sealed (state_sealed_or_sealed _)] at hcurrent
        cases hcurrent
      refine .inr ⟨hne, ?_⟩
      rw [← FlushBuffer.is_available_congr (hclaimed.others _ hne).state]
      exact hcurrent
    next => exact .inl hcurrent
  next => exact .inl rfl

/-- The buffers a rotation can still take. -/
def free (mem : BufferRing L) : Finset (Fin L) :=
  {c | c ≠ mem.current_buffer ∧ (mem.ring c).is_available = true}

/-- A megabyte that finds the current buffer empty fills it. -/
theorem Ready.fills (h : mem.Ready) (options : BufferRingOptions) (ok : Bool)
    (hlen : payload.len = ONE_MEGABYTE_BLOCK) (hempty : (mem.ring mem.current_buffer).size = 0)
    {result : Except BufferError Usize} {after : FlushBuffer L}
    (hreserve : (mem.ring mem.current_buffer).reserve_space payload.len = some (result, after)) :
    let mem' := ((mem.modify mem.current_buffer fun _ => after).put options ok mem.current_buffer result payload).2
    mem'.Ready ∧ mem'.free = mem.free ∧ (mem'.ring mem'.current_buffer).size ≠ 0 := by
  intro mem'
  let b := mem.current_buffer
  obtain ⟨hsealed, hflush⟩ := FlushBuffer.is_open_iff.mp h.opened
  have hdecision := @FlushBuffer.reserve_decision_open _ payload.len hsealed hflush
  have hfits : ¬ state_offset (mem.ring b).state + payload.len > ONE_MEGABYTE_BLOCK := by
    rw [FlushBuffer.size] at hempty
    rw [hempty, hlen]
    decide
  rw [if_neg hfits] at hdecision
  rw [FlushBuffer.reserve_space, hdecision, if_pos (BitVec.le_of_eq hlen)] at hreserve
  obtain ⟨rfl, rfl⟩ := Prod.mk.inj (Option.some.inj hreserve)
  let granted := (mem.ring b).grant (reserved_word (mem.ring b).state payload.len)
    (state_offset (mem.ring b).state) payload.len
  let x := (granted.write (state_offset (mem.ring b).state) payload).decrement_writers
  have hmem : Changed mem mem' b x := by
    let granting := mem.modify b fun _ => granted
    have hsealed' : state_sealed (granting.ring granting.current_buffer).state = false := by
      rw [modify_current, modify_ring_self, FlushBuffer.grant_state, state_sealed_reserved]
      exact hsealed
    have hput : granting.put options ok granting.current_buffer
        (.ok (state_offset (mem.ring b).state)) payload = _ := put_open hsealed'
    have hmem' : mem' = _ := congrArg Prod.snd hput
    rw [hmem']
    have hcopied := ((Changed.of_modify mem b fun _ => granted).modify
      (·.write (state_offset (mem.ring b).state) payload)).modify FlushBuffer.decrement_writers
    exact hcopied
  have hcurrent : mem'.current_buffer = b := put_copies_current ..
  have hstate : x.state = (mem.ring b).state + payload.len * OFFSET_ONE := reserved_word_sub_writer _ _
  refine ⟨⟨?_, fun c => ?_⟩, ?_, ?_⟩
  · rw [hcurrent, hmem.target, FlushBuffer.is_open_iff]
    have hsealed' : state_sealed x.state = state_sealed (mem.ring b).state :=
      (state_sealed_sub_writer _).trans (state_sealed_reserved ..)
    have hflush' : state_flush_in_progress x.state = state_flush_in_progress (mem.ring b).state :=
      (state_flush_in_progress_sub_writer _).trans (state_flush_in_progress_reserved ..)
    exact ⟨hsealed'.trans hsealed, hflush'.trans hflush⟩
  · by_cases hc : c = b
    · rw [hc, hmem.target, hstate, state_writers_add_offset]
      exact h.drained b
    · rw [(hmem.others c hc).state]
      exact h.drained c
  · unfold free
    rw [hcurrent]
    refine Finset.filter_congr fun c _ => and_congr_right fun hc => ?_
    rw [FlushBuffer.is_available_congr (hmem.others c hc).state]
  · have hblock : ONE_MEGABYTE_BLOCK.toNat = 1048576 := rfl
    have hsize := congrArg BitVec.toNat hempty
    rw [FlushBuffer.size] at hsize
    have hoffset : (state_offset (mem.ring b).state).toNat = 0 := hsize
    have hblock' : payload.len.toNat = 1048576 := by
      rw [hlen, hblock]
    have hgrows := state_offset_add_offset (mem.ring b).state payload.len (by omega)
    rw [hcurrent, hmem.target, FlushBuffer.size, hstate]
    intro hzero
    rw [hzero, hoffset, hblock'] at hgrows
    cases hgrows

/-- What the buffer holds is handed over by a megabyte that finds it used. -/
theorem Ready.hands_over (h : mem.Ready) {store : QuikIO} (hstore : options.io_instance = some store)
    (hauto : options.auto_flush = true) (ok : Bool) (hlen : payload.len = ONE_MEGABYTE_BLOCK)
    (hused : (mem.ring mem.current_buffer).size ≠ 0)
    {result : Except BufferError Usize} {after : FlushBuffer L}
    (hreserve : (mem.ring mem.current_buffer).reserve_space payload.len = some (result, after)) :
    let mem' := ((mem.modify mem.current_buffer fun _ => after).put options ok mem.current_buffer result payload).2
    (mem'.ring mem'.current_buffer).is_open = false ∨ mem'.Ready ∧ mem'.free ⊂ mem.free := by
  intro mem'
  let b := mem.current_buffer
  obtain ⟨hsealed, hflush⟩ := FlushBuffer.is_open_iff.mp h.opened
  have hfull : state_offset (mem.ring b).state + payload.len > ONE_MEGABYTE_BLOCK := by
    have hsize := (mem.ring b).size_lt
    have hpos : 0 < (mem.ring b).size.toNat := by
      by_contra hzero
      exact hused (BitVec.eq_of_toNat_eq (Nat.eq_zero_of_not_pos hzero))
    have hblock : ONE_MEGABYTE_BLOCK.toNat = 1048576 := rfl
    rw [FlushBuffer.size] at hsize hpos
    rw [gt_iff_lt, BitVec.lt_def, BitVec.toNat_add, hlen, hblock]
    omega
  have hdecision := @FlushBuffer.reserve_decision_open _ payload.len hsealed hflush
  rw [if_pos hfull] at hdecision
  rw [FlushBuffer.reserve_space, hdecision] at hreserve
  have hmem : mem' = dispatch options ok ((sealing options mem b).modify b FlushBuffer.set_flush_in_progress) b := by
    split at hreserve
    next =>
      cases hreserve
      have hsame : mem.modify mem.current_buffer (fun _ => mem.ring mem.current_buffer) = mem := modify_eq_self rfl
      simp only [mem', hsame, h.put_full]
      rfl
    next => cases hreserve
  obtain ⟨hlaunch, _⟩ := (mem.sealing_changed b options).dispatch hstore ok
  rw [if_pos hauto, ← hmem] at hlaunch
  have hcurrent : mem'.current_buffer = (sealing options mem b).current_buffer := by
    rw [hmem]
    exact (dispatch_fields options ok _ b).1
  have hclosed : (mem'.ring b).is_open = false := by
    rw [FlushBuffer.is_open, hlaunch.target_state]
    simp
  obtain hstays | ⟨hne, hfree⟩ := sealing_current options mem b
  · left
    rw [hcurrent, hstays]
    exact hclosed
  · right
    rw [← hcurrent] at hne hfree
    refine ⟨⟨?_, fun c => ?_⟩, ?_⟩
    · rw [FlushBuffer.is_open_congr (hlaunch.others _ hne).state]
      exact FlushBuffer.is_open_of_available hfree
    · by_cases hc : c = b
      · rw [hc, hlaunch.target_state, state_writers_or_flush]
        exact (state_writers_or_sealed _).trans (h.drained b)
      · rw [(hlaunch.others c hc).state]
        exact h.drained c
    · rw [Finset.ssubset_iff_of_subset]
      · refine ⟨mem'.current_buffer, ?_, ?_⟩
        · simp only [free, Finset.mem_filter, Finset.mem_univ, true_and]
          exact ⟨hne, hfree⟩
        · simp only [free, Finset.mem_filter, not_and, ne_eq, not_true_eq_false, false_implies, implies_true]
      · intro c hc
        simp only [free, Finset.mem_filter, Finset.mem_univ, true_and] at hc ⊢
        have hcb : c ≠ b := by
          rintro rfl
          exact absurd (FlushBuffer.is_open_of_available hc.2) (Bool.eq_false_iff.mp hclosed)
        rw [FlushBuffer.is_available_congr (hlaunch.others c hcb).state] at hc
        exact ⟨hcb, hc.2⟩

end Ready

end BufferRing

namespace Logger
variable {T : Type}

/-- A step of thread `t` or of the kernel. -/
def Action.own (t : T) : Action T → Prop
  | .log_message t' _ => t' = t
  | .go t' => t' = t
  | .run t' _ => t' = t
  | .complete _ _ => True

variable [DecidableEq T]

section Alone
variable {options : BufferRingOptions} {ok : Bool} {s s' : Logger T L} {t : T}

/-- The loop's next call, made. -/
theorem go_eq {l l' : Loop} {pc pc' : Pc L} {c : Call} (hl : s.loop t = l) (hpc : s.threads.pc t = pc)
    (hlog : log_message l pc = some (c, l')) (hpoll : l ≠ .poll)
    (hentry : entry options (s.threads.held t) (s.threads.msg t) c pc = some pc') :
    s.step options (.go t) =
      some { threads := { s.threads.note t c with pc := Function.update s.threads.pc t pc' }
             loop := Function.update s.loop t l' } := by
  have hpolls : ¬ (l = .poll ∧ options.io_instance.isNone = true) := fun h => hpoll h.1
  unfold step go
  simp only [hl, hpc]
  split
  next => cases hlog
  next =>
    rw [if_neg hpolls, hlog]
    simp only [Threads.step, hpc, hentry, Option.map_some]

omit [DecidableEq T] in
/-- The caller's own variables are not in the history. -/
theorem record_noted (s : Threads T L) (pc pc' : Pc L) :
    (s.record pc pc').held = s.held ∧ (s.record pc pc').msg = s.msg := by
  unfold Threads.record
  split <;> exact ⟨rfl, rfl⟩

/-- What a thread does inside a call of the ring, it does in its loop. -/
theorem reaches_alone {x : Pc L × BufferRing L}
    (h : StateTransition.Reaches (alone options ok) (s.threads.pc t, s.threads.mem) x) :
    ∃ s', Reaches (step options) (fun _ a => a.own t) s s' ∧
      s'.threads.pc = Function.update s.threads.pc t x.1 ∧ s'.threads.mem = x.2 ∧
      s'.threads.held = s.threads.held ∧ s'.threads.msg = s.threads.msg ∧ s'.loop = s.loop := by
  induction h with
  | refl => exact ⟨s, .refl, (Function.update_eq_self t s.threads.pc).symm, rfl, rfl, rfl, rfl⟩
  | @tail x y _ hstep ih =>
    obtain ⟨s', hreach, hpc, hmem, hheld, hmsg, hloop⟩ := ih
    have hnext : next options ok s'.threads.mem (s'.threads.pc t) = some y := by
      rw [hpc, Function.update_self, hmem]
      change alone options ok x = some y at hstep
      unfold alone at hstep
      split at hstep
      next => cases hstep
      next => exact hstep
    obtain ⟨hheld', hmsg'⟩ := record_noted s'.threads (s'.threads.pc t) y.1
    let after : Logger T L :=
      { s' with
        threads := { s'.threads.record (s'.threads.pc t) y.1 with
          mem := y.2, pc := Function.update s'.threads.pc t y.1 } }
    have hafter : s'.step options (.run t ok) = some after := by
      unfold step Threads.step
      simp only [hnext, Option.map_some]
      rfl
    refine ⟨after, .tail (.run t ok) hreach rfl hafter, ?_, rfl, hheld'.trans hheld, hmsg'.trans hmsg, hloop⟩
    change Function.update s'.threads.pc t y.1 = _
    rw [hpc, Function.update_idem]

/-- A reservation that neither failed nor met a sealed buffer is handed to `put`. -/
theorem log_message_puts {b : Fin L} {payload : Slice} {result : Except BufferError Usize}
    (hfailed : result ≠ .error .FailedReservation) (hsealed : result ≠ .error .EncounteredSealedBuffer) :
    log_message .reserving (.reserved b payload result) = some (.put, .putting) := by
  cases result with
  | ok offset => rfl
  | error e =>
    cases e with
    | FailedReservation => exact absurd rfl hfailed
    | EncounteredSealedBuffer => exact absurd rfl hsealed
    | _ => rfl

/-- Once round the loop of `log_message` by a thread whose reservation and `put` succeed. -/
theorem log_message_alone {payload : Slice} {result : Except BufferError Usize} {after : FlushBuffer L}
    {msg : BufferMsg} (hloop : s.loop t = .fetch) (hpc : s.threads.pc t = .idle)
    (hmsg : s.threads.msg t = some payload)
    (hreserve : (s.threads.mem.ring s.threads.mem.current_buffer).reserve_space payload.len = some (result, after))
    (hfailed : result ≠ .error .FailedReservation) (hsealed : result ≠ .error .EncounteredSealedBuffer) :
    let mem := s.threads.mem.modify s.threads.mem.current_buffer fun _ => after
    let r := mem.put options ok s.threads.mem.current_buffer result payload
    r.1 = .ok msg →
    ∃ s', Reaches (step options) (fun _ a => a.own t) s s' ∧ s'.loop = Function.update s.loop t .out ∧
      s'.threads.pc = s.threads.pc ∧ s'.threads.mem = r.2 := by
  intro mem r hr
  let b := s.threads.mem.current_buffer
  have hlen : payload.len ≤ ONE_MEGABYTE_BLOCK := by
    by_contra hlarge
    rw [FlushBuffer.reserve_space, if_neg hlarge] at hreserve
    cases hreserve
  -- ring.current_buffer
  let s₁ : Logger T L :=
    { threads := { s.threads.note t .current_buffer with pc := Function.update s.threads.pc t .idle }
      loop := Function.update s.loop t .reserve }
  have h₁ : s.step options (.go t) = some s₁ := go_eq hloop hpc rfl (by decide) rfl
  -- current.reserve_space
  let s₂ : Logger T L :=
    { threads := { s₁.threads.note t .reserve_space with
        pc := Function.update s₁.threads.pc t (.reserveLoad b payload) }
      loop := Function.update s₁.loop t .reserving }
  have hheld₁ : s₁.threads.held t = some b := Function.update_self ..
  have hmsg₁ : s₁.threads.msg t = some payload := hmsg
  have h₂ : s₁.step options (.go t) = some s₂ := by
    have hloop₁ : s₁.loop t = .reserve := Function.update_self ..
    have hpc₁ : s₁.threads.pc t = .idle := Function.update_self ..
    refine go_eq hloop₁ hpc₁ rfl (by decide) ?_
    rw [hheld₁, hmsg₁]
    exact if_pos hlen
  have hruns₂ : StateTransition.Reaches (alone options ok) (s₂.threads.pc t, s₂.threads.mem)
      (.reserved b payload result, mem) := by
    have hpc₂ : s₂.threads.pc t = .reserveLoad b payload := Function.update_self ..
    rw [hpc₂]
    exact reserve_space_alone b payload hreserve
  obtain ⟨s₃, hreach₃, hpc₃, hmem₃, _, _, hloop₃⟩ := reaches_alone hruns₂
  -- ring.put
  let call : PutCall L := { current := b, reserve_result := result, payload }
  let s₄ : Logger T L :=
    { threads := { s₃.threads.note t .put with pc := Function.update s₃.threads.pc t (Pc.putEntry call) }
      loop := Function.update s₃.loop t .putting }
  have h₄ : s₃.step options (.go t) = some s₄ := by
    have hloop₃' : s₃.loop t = .reserving := by
      rw [hloop₃]
      exact Function.update_self ..
    have hpc₃' : s₃.threads.pc t = .reserved b payload result := by
      rw [hpc₃]
      exact Function.update_self ..
    exact go_eq hloop₃' hpc₃' (log_message_puts hfailed hsealed) (by decide) rfl
  have hruns₄ : StateTransition.Reaches (alone options ok) (s₄.threads.pc t, s₄.threads.mem)
      (.returned call r.1, r.2) := by
    have hpc₄ : s₄.threads.pc t = Pc.putEntry call := Function.update_self ..
    have hmem₄ : s₄.threads.mem = mem := hmem₃
    rw [hpc₄, hmem₄]
    exact put_alone call mem
  obtain ⟨s₅, hreach₅, hpc₅, hmem₅, _, _, hloop₅⟩ := reaches_alone hruns₄
  -- the loop returns
  let s₆ : Logger T L :=
    { threads := { s₅.threads.note t .finish with pc := Function.update s₅.threads.pc t .idle }
      loop := Function.update s₅.loop t .out }
  have h₆ : s₅.step options (.go t) = some s₆ := by
    have hloop₅' : s₅.loop t = .putting := by
      rw [hloop₅]
      exact Function.update_self ..
    have hpc₅' : s₅.threads.pc t = .returned call (.ok msg) := by
      rw [hpc₅, hr]
      exact Function.update_self ..
    exact go_eq hloop₅' hpc₅' rfl (by decide) rfl
  have hreach₂ : Reaches (step options) (fun _ a => a.own t) s s₂ :=
    .tail (.go t) (.tail (.go t) .refl rfl h₁) rfl h₂
  have hreach₄ : Reaches (step options) (fun _ a => a.own t) s s₄ := .tail (.go t) (hreach₂.trans hreach₃) rfl h₄
  have hreach₆ : Reaches (step options) (fun _ a => a.own t) s s₆ := .tail (.go t) (hreach₄.trans hreach₅) rfl h₆
  refine ⟨s₆, hreach₆, ?_, ?_, ?_⟩
  · change Function.update s₅.loop t .out = _
    rw [hloop₅]
    change Function.update (Function.update s₃.loop t .putting) t .out = _
    rw [hloop₃]
    simp only [s₂, s₁, Function.update_idem]
  · change Function.update s₅.threads.pc t .idle = _
    rw [hpc₅]
    change Function.update (Function.update (Function.update s₃.threads.pc t _) t _) t .idle = _
    rw [hpc₃]
    simp only [s₂, s₁, Function.update_idem, ← hpc, Function.update_eq_self]
  · exact (Threads.note_mem ..).trans hmem₅

end Alone

section Returns
variable {options : BufferRingOptions} {s s' : Logger T L} {t : T}

/-- No thread is in a call of `log_message`. -/
def Quiet (s : Logger T L) : Prop := ∀ t, s.loop t = .out ∧ s.threads.pc t = .idle

/-- A thread has begun `log_message` while no other is in a call. -/
structure Lone (s : Logger T L) (t : T) (payload : Slice) : Prop where
  loop : s.loop t = .fetch
  pc : s.threads.pc t = .idle
  msg : s.threads.msg t = some payload
  len : payload.len ≤ ONE_MEGABYTE_BLOCK
  others : ∀ t', t' ≠ t → s.loop t' = .out ∧ s.threads.pc t' = .idle

omit [DecidableEq T] in
theorem Lone.idle {payload : Slice} (h : s.Lone t payload) (t' : T) :
    (s.loop t' = .out ∨ s.loop t' = .fetch) ∧ s.threads.pc t' = .idle := by
  by_cases ht : t' = t
  · rw [ht]
    exact ⟨.inr h.loop, h.pc⟩
  · exact ⟨.inl (h.others t' ht).1, (h.others t' ht).2⟩

/-- With nobody else in a call and no reservation outstanding, `log_message` of at most a megabyte can return if
the current buffer is open, and spins forever if it is closed, whatever the kernel completes. -/
theorem log_message_returns_iff {payload : Slice} (h : s.Lone t payload)
    (hdrained : ∀ b, state_writers (s.threads.mem.ring b).state = 0) :
    (∃ s', Reaches (step options) (fun _ a => a.own t) s s' ∧ s'.loop t = .out) ↔
      (s.threads.mem.ring s.threads.mem.current_buffer).is_open = true := by
  constructor
  · rintro ⟨s', hreach, hout⟩
    by_contra hclosed
    have hstalled : Stalled s := .of_idle (Bool.eq_false_iff.mpr hclosed) h.idle
    have hlogging : s.loop t ≠ .out := by
      rw [h.loop]
      decide
    exact (hstalled.reaches (hreach.mono fun _ _ _ => trivial)).2.loop t hlogging hout
  · intro hopen
    have hready : s.threads.mem.Ready := ⟨hopen, hdrained⟩
    obtain ⟨result, after, msg, hreserve, hfailed, hsealed, hput⟩ := hready.logs options true h.len
    obtain ⟨s', hreach, hloop, _⟩ := log_message_alone h.loop h.pc h.msg hreserve hfailed hsealed hput
    refine ⟨s', hreach, ?_⟩
    rw [hloop]
    exact Function.update_self ..

theorem Quiet.starts (h : s.Quiet) (options : BufferRingOptions) (t : T) (payload : Slice) :
    ∃ s', s.step options (.log_message t payload) = some s' ∧ s'.threads.mem = s.threads.mem ∧
      s'.loop = Function.update s.loop t .fetch ∧ s'.threads.pc = s.threads.pc ∧
      s'.threads.msg t = some payload := by
  refine ⟨{ threads := { s.threads.note t (.take payload) with pc := Function.update s.threads.pc t .idle }
            loop := Function.update s.loop t .fetch }, ?_, rfl, rfl, ?_, Function.update_self ..⟩
  · unfold step
    dsimp only
    rw [if_pos (h t).1]
    simp only [Threads.step, (h t).2, entry, Option.map_some]
  · change Function.update s.threads.pc t .idle = _
    rw [← (h t).2, Function.update_eq_self]

/-- A thread logs a payload while no other is in a call. -/
theorem Quiet.logs (h : s.Quiet) (hready : s.threads.mem.Ready) (options : BufferRingOptions) (t : T)
    (ok : Bool) (payload : Slice) (hlen : payload.len ≤ ONE_MEGABYTE_BLOCK) :
    ∃ s' result after, Reaches (step options) (fun _ a => a.own t) s s' ∧ s'.Quiet ∧
      (s.threads.mem.ring s.threads.mem.current_buffer).reserve_space payload.len = some (result, after) ∧
      s'.threads.mem = ((s.threads.mem.modify s.threads.mem.current_buffer fun _ => after).put options ok
        s.threads.mem.current_buffer result payload).2 := by
  obtain ⟨s₁, h₁, hmem₁, hloop₁, hpc₁, hmsg₁⟩ := h.starts options t payload
  obtain ⟨result, after, msg, hreserve, hfailed, hsealed, hput⟩ := hready.logs options ok hlen
  have hfetch : s₁.loop t = .fetch := by
    rw [hloop₁]
    exact Function.update_self ..
  have hidle : s₁.threads.pc t = .idle := by
    rw [hpc₁]
    exact (h t).2
  rw [← hmem₁] at hreserve hput
  obtain ⟨s', hreach, hloop, hpc, hmem⟩ := log_message_alone hfetch hidle hmsg₁ hreserve hfailed hsealed hput
  have hfirst : Reaches (step options) (fun _ a => a.own t) s s₁ := .tail (.log_message t payload) .refl rfl h₁
  rw [hmem₁] at hreserve hmem
  refine ⟨s', result, after, hfirst.trans hreach, fun t' => ?_, hreserve, hmem⟩
  rw [hloop, hpc, hloop₁, hpc₁, Function.update_idem]
  refine ⟨?_, (h t').2⟩
  by_cases ht : t' = t
  · subst t'
    exact Function.update_self ..
  · rw [Function.update_of_ne ht]
    exact (h t').1

/-- While the current buffer is open and free ones remain, megabytes use them up. -/
theorem Quiet.exhausts (h : s.Quiet) (hready : s.threads.mem.Ready) {store : QuikIO}
    (hstore : options.io_instance = some store) (hauto : options.auto_flush = true) (t : T) :
    ∃ s', Reaches (step options) (fun _ a => a.own t) s s' ∧ s'.Quiet ∧
      (s'.threads.mem.ring s'.threads.mem.current_buffer).is_open = false := by
  induction hfree : s.threads.mem.free using Finset.strongInduction generalizing s with
  | H free ih =>
    -- a used buffer is handed over and another one taken, or the ring is out of buffers
    have hused (s : Logger T L) (h : s.Quiet) (hready : s.threads.mem.Ready) (hfree : s.threads.mem.free = free)
        (hsize : (s.threads.mem.ring s.threads.mem.current_buffer).size ≠ 0) :
        ∃ s', Reaches (step options) (fun _ a => a.own t) s s' ∧ s'.Quiet ∧
          (s'.threads.mem.ring s'.threads.mem.current_buffer).is_open = false := by
      obtain ⟨s', result, after, hreach, hquiet, hreserve, hmem⟩ :=
        h.logs hready options t true (zeros ONE_MEGABYTE_BLOCK) (BitVec.le_refl _)
      have hover := hready.hands_over hstore hauto true rfl hsize hreserve
      simp only at hover
      rw [← hmem] at hover
      obtain hclosed | ⟨hready', hless⟩ := hover
      · exact ⟨s', hreach, hquiet, hclosed⟩
      · rw [hfree] at hless
        obtain ⟨s'', hreach', hquiet', hclosed⟩ := ih _ hless hquiet hready' rfl
        exact ⟨s'', hreach.trans hreach', hquiet', hclosed⟩
    by_cases hsize : (s.threads.mem.ring s.threads.mem.current_buffer).size = 0
    · obtain ⟨s', result, after, hreach, hquiet, hreserve, hmem⟩ :=
        h.logs hready options t true (zeros ONE_MEGABYTE_BLOCK) (BitVec.le_refl _)
      have hfills := hready.fills options true rfl hsize hreserve
      simp only at hfills
      rw [← hmem] at hfills
      obtain ⟨hready', hfree', hsize'⟩ := hfills
      obtain ⟨s'', hreach', hquiet', hclosed⟩ := hused s' hquiet hready' (hfree'.trans hfree) hsize'
      exact ⟨s'', hreach.trans hreach', hquiet', hclosed⟩
    · exact hused s h hready hfree hsize

/-- The kernel can finish all it holds without a thread taking notice. -/
theorem completes_all (options : BufferRingOptions) (s : Logger T L) (t : T) :
    ∃ s', Reaches (step options) (fun _ a => a.own t) s s' ∧ s'.threads.mem.io.kernel = [] ∧
      s'.loop = s.loop ∧ s'.threads.pc = s.threads.pc ∧ s'.threads.mem.ring = s.threads.mem.ring ∧
      s'.threads.mem.current_buffer = s.threads.mem.current_buffer := by
  induction hkernel : s.threads.mem.io.kernel generalizing s with
  | nil => exact ⟨s, .refl, hkernel, rfl, rfl, rfl, rfl⟩
  | cons e rest ih =>
    let written := s.threads.mem.fileAfter e e.len
    let mem : BufferRing L :=
      { s.threads.mem with
        file := written
        io := s.threads.mem.io.finish 0 { cqe := { entry := e, result := e.len }, file := written } }
    have hcomplete : s.threads.mem.complete 0 e.len = some mem := by
      unfold BufferRing.complete
      rw [hkernel]
      exact if_pos (le_refl _)
    let s₁ : Logger T L := { s with threads := { s.threads with mem } }
    have h₁ : s.step options (.complete 0 e.len) = some s₁ := by
      unfold step Threads.step
      simp only [hcomplete, Option.map_some]
      rfl
    have hrest : s₁.threads.mem.io.kernel = rest := by
      change s.threads.mem.io.kernel.eraseIdx 0 = rest
      rw [hkernel]
      rfl
    obtain ⟨s', hreach, hnone, hloop, hpc, hring, hcurrent⟩ := ih s₁ hrest
    exact ⟨s', (Reaches.tail _ .refl trivial h₁).trans hreach, hnone, hloop, hpc, hring, hcurrent⟩

/-- One thread that logs by itself stalls any ring that flushes to a store: when the ring has run out of buffers
and the kernel has finished every write, its next `log_message` never returns, nor does any other from then on;
no buffer is freed and no completion read. -/
theorem log_message_stalls (h : s.Quiet) (hready : s.threads.mem.Ready) {store : QuikIO}
    (hstore : options.io_instance = some store) (hauto : options.auto_flush = true) (t : T) :
    ∃ s₁, Reaches (step options) (fun _ a => a.own t) s s₁ ∧ s₁.threads.mem.io.kernel = [] ∧
      s₁.loop t ≠ .out ∧
      ∀ s₂, Reaches (step options) (fun _ _ => True) s₁ s₂ → Stuck s₁ s₂ ∧
        ∀ s₃ t', Reaches (step options) (fun _ _ => True) s₂ s₃ → s₂.loop t' ≠ .out → s₃.loop t' ≠ .out := by
  obtain ⟨s', hreach, hquiet, hclosed⟩ := h.exhausts hready hstore hauto t
  obtain ⟨s'', hreach', hnone, hloop, hpc, hring, hcurrent⟩ := completes_all options s' t
  have hquiet' : s''.Quiet := by
    intro t'
    rw [hloop, hpc]
    exact hquiet t'
  obtain ⟨s₁, h₁, hmem₁, hloop₁, hpc₁, _⟩ := hquiet'.starts options t (zeros 1)
  have hfetch : s₁.loop t = .fetch := by
    rw [hloop₁]
    exact Function.update_self ..
  have hstalled : Stalled s₁ := by
    refine .of_idle ?_ fun t' => ⟨?_, ?_⟩
    · rw [hmem₁, hring, hcurrent]
      exact hclosed
    · by_cases ht : t' = t
      · rw [ht]
        exact .inr hfetch
      · rw [hloop₁, Function.update_of_ne ht]
        exact .inl (hquiet' t').1
    · rw [hpc₁]
      exact (hquiet' t').2
  have hlast : Reaches (step options) (fun _ a => a.own t) s s₁ :=
    .tail (.log_message t (zeros 1)) (hreach.trans hreach') rfl h₁
  refine ⟨s₁, hlast, ?_, ?_, fun s₂ hreach₂ => ?_⟩
  · rw [hmem₁]
    exact hnone
  · rw [hfetch]
    decide
  · obtain ⟨hstalled₂, hstuck⟩ := hstalled.reaches hreach₂
    exact ⟨hstuck, fun s₃ t' hreach₃ hlogging => (hstalled₂.reaches hreach₃).2.loop t' hlogging⟩

end Returns

/-- A thread logs a payload by itself, with `r` steps of `reserve_space` and `n` of `put`. -/
def attempts (t : T) (payload : Slice) (r n : Nat) : List (Action T) :=
  [.log_message t payload, .go t, .go t] ++ List.replicate r (.run t true) ++ [.go t] ++
    List.replicate n (.run t true) ++ [.go t]

/-- A ring of one buffer: the second payload does not fit and submits it, and when the third one comes the write
has succeeded. -/
def logsThree : List (Action (Fin 2)) :=
  attempts 0 (zeros ONE_MEGABYTE_BLOCK) 2 2 ++ attempts 1 (zeros 1) 1 15 ++
    [.complete 0 1048576, .log_message 0 (zeros 1)]

theorem log_message_returns_iff_logsThree :
    ∃ s : Logger (Fin 2) 1,
      Reaches (step storeOptions) (fun _ _ => True) (init (.with_options storeOptions)) s ∧
        s.threads.mem.io.cq ≠ [] ∧
        ¬ ∃ s', Reaches (step storeOptions) (fun _ a => a.own 0) s s' ∧ s'.loop 0 = .out := by
  have hrun : (exec (step storeOptions) (fun _ _ => True) logsThree
      (init (T := Fin 2) (L := 1) (.with_options storeOptions))).any
      (fun s => decide ((s.loop 0 = .fetch ∧ (s.threads.pc 0).unoccupied = true) ∧
        (s.threads.msg 0).any (fun payload => payload.len == 1) = true ∧
        (∀ t, t ≠ 0 → s.loop t = .out ∧ (s.threads.pc t).unoccupied = true) ∧
        (∀ b, state_writers (s.threads.mem.ring b).state = 0) ∧
        (s.threads.mem.ring s.threads.mem.current_buffer).is_open = false ∧
        s.threads.mem.io.cq.isEmpty = false)) = true := by
    decide +kernel
  obtain ⟨s, hreach, hcheck⟩ := exists_of_exec hrun
  obtain ⟨⟨hloop, hpc⟩, hmsg, hothers, hdrained, hclosed, hunread⟩ := of_decide_eq_true hcheck
  obtain ⟨payload, hpayload, hlen⟩ := (Option.any_eq_true _ _).mp hmsg
  have hlone : s.Lone 0 payload := by
    refine ⟨hloop, Pc.unoccupied_iff.mp hpc, hpayload, ?_, fun t ht => ?_⟩
    · rw [beq_iff_eq.mp hlen]
      decide
    · exact ⟨(hothers t ht).1, Pc.unoccupied_iff.mp (hothers t ht).2⟩
  refine ⟨s, hreach, List.isEmpty_eq_false_iff.mp hunread, fun hreturns => ?_⟩
  rw [(log_message_returns_iff hlone hdrained).mp hreturns] at hclosed
  cases hclosed

/-- The ring of the example: full buffers go to a serialized store and are reported. -/
def logOptions : BufferRingOptions :=
  { BufferRingOptions.new with buffer_size := ONE_MEGABYTE_BLOCK, io_instance := some QuikIO.link, cq_tx := true }

theorem log_message_stalls_example :
    ∃ s₁ : Logger (Fin 5) 4, Reaches (step logOptions) (fun _ a => a.own 0) (init (.with_options logOptions)) s₁ ∧
      s₁.threads.mem.io.kernel = [] ∧
      ∀ s₂, Reaches (step logOptions) (fun _ _ => True) s₁ s₂ → s₂.loop 0 ≠ .out := by
  have hready : (BufferRing.with_options logOptions : BufferRing 4).Ready :=
    ⟨rfl, fun _ => state_writers_zero⟩
  have hquiet : (init (.with_options logOptions) : Logger (Fin 5) 4).Quiet := fun _ => ⟨rfl, rfl⟩
  have hstore : logOptions.io_instance = some QuikIO.link := rfl
  have hauto : logOptions.auto_flush = true := rfl
  obtain ⟨s₁, hreach, hnone, hlogging, hstuck⟩ := log_message_stalls hquiet hready hstore hauto 0
  exact ⟨s₁, hreach, hnone, fun s₂ hreach₂ => (hstuck s₂ hreach₂).1.loop 0 hlogging⟩

end Logger

end FlushRing
