import FlushRing.Client.Moves

open Transition

namespace FlushRing

variable {L : Nat}

namespace FlushBuffer

/-- A word with clear flags refuses a reservation for lack of space only. -/
theorem reserve_decision_open {state payload_size : Usize} (hsealed : state_sealed state = false)
    (hflush : state_flush_in_progress state = false) :
    reserve_decision state payload_size =
      if state_offset state + payload_size > ONE_MEGABYTE_BLOCK then .error .InsufficientSpace
      else .ok (state_offset state, reserved_word state payload_size) := by
  have hflags := (flags_clear_iff state).mpr ⟨hsealed, hflush⟩
  unfold reserve_decision
  rw [if_neg (not_not.mpr hflags)]

/-- An empty word grants every payload that fits a buffer, at offset 0. -/
theorem reserve_space_zero {self : FlushBuffer L} (hstate : self.state = 0) {payload_size : Usize}
    (hlen : payload_size ≤ ONE_MEGABYTE_BLOCK) :
    ∃ after, self.reserve_space payload_size = some (.ok 0, after) := by
  have hfits : ¬ state_offset 0#64 + payload_size > ONE_MEGABYTE_BLOCK := by
    rw [state_offset_zero, BitVec.zero_add]
    exact BitVec.not_lt.mpr hlen
  have hdecision : reserve_decision self.state payload_size = .ok (0, reserved_word 0 payload_size) := by
    rw [hstate]
    exact (reserve_decision_open state_sealed_zero state_flush_in_progress_zero).trans (if_neg hfits)
  refine ⟨self.grant (reserved_word 0 payload_size) 0 payload_size, ?_⟩
  rw [reserve_space, if_pos hlen, hdecision]

end FlushBuffer

namespace BufferRing

/-- No buffer but the current one is in use, and that one is open, holds at most a megabyte and has
`writers` reservations outstanding. -/
structure Calm (mem : BufferRing L) (writers : Nat) : Prop where
  others : ∀ c ≠ mem.current_buffer, (mem.ring c).state = 0
  unsealed : state_sealed (mem.ring mem.current_buffer).state = false
  unflushed : state_flush_in_progress (mem.ring mem.current_buffer).state = false
  writers : (state_writers (mem.ring mem.current_buffer).state).toNat = writers
  fits : (mem.ring mem.current_buffer).size.toNat ≤ 2 ^ 20

namespace Calm
variable {mem mem' : BufferRing L}

/-- A ring none of whose buffers is in use. -/
theorem of_empty (h : ∀ c, (mem.ring c).state = 0) : mem.Calm 0 where
  others c _ := h c
  unsealed := by
    rw [h]
    exact state_sealed_zero
  unflushed := by
    rw [h]
    exact state_flush_in_progress_zero
  writers := by
    rw [h]
    exact congrArg BitVec.toNat state_writers_zero
  fits := by
    rw [FlushBuffer.size, h]
    exact Nat.zero_le _

/-- Once the current buffer is reset, no buffer is in use. -/
theorem emptied {writers : Nat} {x : FlushBuffer L} (h : mem.Calm writers)
    (hmem : Changed mem mem' mem.current_buffer x.reset) (c : Fin L) : (mem'.ring c).state = 0 := by
  apply hmem.forall_ring (P := fun _ y => y.state = 0)
  · rfl
  · intro c hc y hy
    rw [hy.state]
    exact h.others c hc

/-- A reservation in the current buffer of a calm ring is the only one outstanding. -/
theorem granted {n offset new : Usize} (h : mem.Calm 0) (hlen : n ≤ ONE_MEGABYTE_BLOCK)
    (hdecision : FlushBuffer.reserve_decision (mem.ring mem.current_buffer).state n = .ok (offset, new)) :
    (mem.modify mem.current_buffer (·.grant new offset n)).Calm 1 := by
  obtain ⟨_, _, _, hfit, hnew⟩ := FlushBuffer.reserve_decision_ok hdecision
  have hblock : ONE_MEGABYTE_BLOCK.toNat = 1048576 := rfl
  have hfits := h.fits
  have hwriters := h.writers
  rw [FlushBuffer.size] at hfits
  rw [BitVec.le_def, hblock] at hlen
  rw [BitVec.le_def, BitVec.toNat_add, hblock] at hfit
  have hgrows := state_offset_reserved (mem.ring mem.current_buffer).state n (by omega) (by omega)
  have hcounts := state_writers_reserved (mem.ring mem.current_buffer).state n (by omega)
  rw [← hnew] at hgrows hcounts
  refine ⟨fun c hc => ?_, ?_, ?_, ?_, ?_⟩
  · have hc : c ≠ mem.current_buffer := hc
    rw [modify_ring, if_neg (Ne.symm hc)]
    exact h.others c hc
  · rw [modify_current, modify_ring_self, FlushBuffer.grant_state, hnew, state_sealed_reserved]
    exact h.unsealed
  · rw [modify_current, modify_ring_self, FlushBuffer.grant_state, hnew, state_flush_in_progress_reserved]
    exact h.unflushed
  · rw [modify_current, modify_ring_self, FlushBuffer.grant_state]
    omega
  · rw [modify_current, modify_ring_self, FlushBuffer.size, FlushBuffer.grant_state]
    omega

end Calm

section Storeless
variable {options : BufferRingOptions} {self : BufferRing L}

/-- Without a store a buffer that is handed over is reset. -/
theorem flush_storeless (hstore : options.io_instance = none) (ok : Bool) (b : Fin L) :
    flush options ok self b = (self.modify b FlushBuffer.set_flush_in_progress).reset_buffer b := by
  unfold flush
  rw [hstore]

/-- Without a store a dispatch resets the buffer. -/
theorem dispatch_storeless (hstore : options.io_instance = none) (ok : Bool) (b : Fin L) :
    dispatch options ok self b = self.reset_buffer b := by
  unfold dispatch
  rw [hstore]

/-- A `put` that handles a full buffer leaves the ring empty, whatever the rotation did. -/
theorem Calm.put_empties (h : self.Calm 0) (hstore : options.io_instance = none) (ok : Bool)
    (payload : Slice) (c : Fin L) :
    ((self.put options ok self.current_buffer (.error .InsufficientSpace) payload).2.ring c).state =
      0 := by
  have hwriters : state_writers (self.ring self.current_buffer).state = 0 :=
    BitVec.eq_of_toNat_eq h.writers
  rw [put_seals ok payload h.unsealed, if_pos hwriters, h.unflushed, dispatch_storeless hstore]
  have hsealing := self.sealing_changed self.current_buffer options
  exact h.emptied (hsealing.modify FlushBuffer.set_flush_in_progress).reset_buffer c

/-- A `put` on the granted reservation takes its writer off again. -/
theorem Calm.put_copies (h : self.Calm 1) (ok : Bool) (offset : Usize) (payload : Slice) :
    (self.put options ok self.current_buffer (.ok offset) payload).2.Calm 0 := by
  let b := self.current_buffer
  have hunsealed : ¬ (state_writers ((self.ring b).write offset payload).state = 1 ∧
      state_sealed ((self.ring b).write offset payload).state = true) := by
    intro hlast
    cases h.unsealed.symm.trans hlast.2
  have hput : (self.put options ok b (.ok offset) payload).2 =
      (self.modify b (·.write offset payload)).modify b FlushBuffer.decrement_writers := by
    rw [BufferRing.put_copies]
    simp only
    rw [if_neg hunsealed]
  have hmem := (Changed.of_modify self b (·.write offset payload)).modify FlushBuffer.decrement_writers
  have hwriters : (state_writers (self.ring b).state).toNat = 1 := h.writers
  have htake := state_writers_sub_writer (self.ring b).state (by omega)
  have hoffset := state_offset_sub_writer (self.ring b).state (by omega)
  rw [hput]
  refine ⟨fun c hc => ?_, ?_, ?_, ?_, ?_⟩
  · rw [(hmem.others c hc).state]
    exact h.others c hc
  · rw [modify_current, modify_current, hmem.target]
    exact (state_sealed_sub_writer _).trans h.unsealed
  · rw [modify_current, modify_current, hmem.target]
    exact (state_flush_in_progress_sub_writer _).trans h.unflushed
  · rw [modify_current, modify_current, hmem.target]
    change (state_writers ((self.ring b).state - WRITER_ONE)).toNat = 0
    omega
  · rw [modify_current, modify_current, hmem.target]
    change (state_offset ((self.ring b).state - WRITER_ONE)).toNat ≤ 2 ^ 20
    rw [hoffset]
    exact h.fits

/-- `flush_current` resets the buffer before it rotates. -/
theorem Calm.flush_current (h : self.Calm 0) (hstore : options.io_instance = none) (ok : Bool) :
    (self.flush_current options ok).2.Calm 0 := by
  by_cases hsize : (self.ring self.current_buffer).size = 0
  · have hsame : (self.flush_current options ok).2 = self := by
      simp [BufferRing.flush_current, hsize]
    rw [hsame]
    exact h
  · rw [flush_current_eq options ok hsize, flush_storeless hstore]
    have hclaimed := self.claim_changed self.current_buffer (self.ring self.current_buffer).size
    have hreset := (hclaimed.modify FlushBuffer.set_flush_in_progress).reset_buffer
    apply Calm.of_empty
    intro c
    rw [((rotate_after_seal_spec _ self.current_buffer).1.ring c).state]
    exact h.emptied hreset c

end Storeless

end BufferRing

open BufferRing

namespace Client

/-- The client reserves in the current buffer, hands the result to `put`, and flushes in between. -/
def plain (s : Client L) : Action L → Bool
  | .reserve_space buffer _ => s.calls.isEmpty && buffer == s.mem.current_buffer
  | .put _ _ => true
  | .flush_current _ => s.calls.isEmpty
  | _ => false

/-- How many writers a reservation result leaves until it is handed to `put`. -/
def writersOf (reserve_result : Except BufferError Usize) : Nat :=
  match reserve_result with
  | .ok _ => 1
  | .error _ => 0

/-- Between calls the ring is calm; a result at hand is one of the current buffer. -/
inductive Resting (s : Client L) : Prop where
  | idle (hcalls : s.calls = []) (hcalm : s.mem.Calm 0)
  | reserved (call : PutCall L) (hcalls : s.calls = [call])
      (hcurrent : call.current = s.mem.current_buffer)
      (hresult : ∀ e, call.reserve_result = .error e → e = .InsufficientSpace)
      (hcalm : s.mem.Calm (writersOf call.reserve_result))

section Steps
variable {options : BufferRingOptions} {s s' : Client L} {a : Action L}

/-- A reservation leaves the ring resting. -/
theorem Resting.reserve_step (hs : s.mem.Calm 0) (hcalls : s.calls = []) {payload : Slice}
    (h : s.reserve_space s.mem.current_buffer payload = some s') : s'.Resting := by
  unfold reserve_space FlushBuffer.reserve_space at h
  by_cases hlen : payload.len ≤ ONE_MEGABYTE_BLOCK
  · rw [if_pos hlen] at h
    cases hdecision : FlushBuffer.reserve_decision (s.mem.ring s.mem.current_buffer).state payload.len with
    | error e =>
      have hopen := @FlushBuffer.reserve_decision_open _ payload.len hs.unsealed hs.unflushed
      rw [hdecision] at h hopen
      obtain rfl := Option.some.inj h
      have hsame : s.mem.modify s.mem.current_buffer (fun _ => s.mem.ring s.mem.current_buffer) = s.mem :=
        modify_eq_self rfl
      refine .reserved _ (congrArg (· ++ [_]) hcalls) rfl (fun e' he' => ?_) ?_
      · obtain rfl := Except.error.inj he'
        split at hopen
        · exact Except.error.inj hopen
        · cases hopen
      · simp only [hsame]
        exact hs
    | ok grant =>
      rw [hdecision] at h
      obtain rfl := Option.some.inj h
      refine .reserved _ (congrArg (· ++ [_]) hcalls) rfl (fun e' he' => ?_) (hs.granted hlen hdecision)
      cases he'
  · rw [if_neg hlen] at h
    cases h

theorem reserve_space_stage {buffer : Fin L} {payload : Slice}
    (h : s.reserve_space buffer payload = some s') : s'.stage = s.stage := by
  unfold reserve_space at h
  split at h
  next =>
    obtain rfl := Option.some.inj h
    rfl
  next => cases h

theorem put_stage {i : Nat} {ok : Bool} (h : s.put options ok i = some s') : s'.stage = s.stage := by
  unfold put at h
  split at h
  next =>
    obtain rfl := Option.some.inj h
    rfl
  next => cases h

/-- What `put` does with the one result at hand. -/
theorem put_single {call : PutCall L} (hcalls : s.calls = [call]) {i : Nat} {ok : Bool}
    (h : s.put options ok i = some s') :
    s'.calls = [] ∧
      s'.mem = (s.mem.put options ok call.current call.reserve_result call.payload).2 := by
  unfold put at h
  rw [hcalls] at h
  cases i with
  | zero =>
    obtain rfl := Option.some.inj h
    exact ⟨rfl, rfl⟩
  | succ i => cases h

/-- A `put` leaves the ring resting, and every word 0 if there was no space. -/
theorem Resting.put_step (hs : s.Resting) (hstore : options.io_instance = none) {i : Nat} {ok : Bool}
    (h : s.put options ok i = some s') : s'.Resting ∧
      ∀ call ∈ s.calls, call.reserve_result = .error .InsufficientSpace →
        ∀ c, (s'.mem.ring c).state = 0 := by
  cases hs with
  | idle hcalls hcalm =>
    unfold put at h
    rw [hcalls] at h
    cases h
  | reserved call hcalls hcurrent hresult hcalm =>
    obtain ⟨hcalls', hmem⟩ := put_single hcalls h
    rw [hcurrent] at hmem
    cases hput : call.reserve_result with
    | error e =>
      obtain rfl := hresult e hput
      rw [hput] at hcalm hmem
      have hempty (c : Fin L) : (s'.mem.ring c).state = 0 := by
        rw [hmem]
        exact hcalm.put_empties hstore ok call.payload c
      exact ⟨.idle hcalls' (.of_empty hempty), fun _ _ _ => hempty⟩
    | ok offset =>
      rw [hput] at hcalm hmem
      refine ⟨.idle hcalls' ?_, fun call' hcall' hfull => ?_⟩
      · rw [hmem]
        exact hcalm.put_copies ok offset call.payload
      · rw [hcalls, List.mem_singleton] at hcall'
        rw [hcall', hput] at hfull
        cases hfull

/-- Every step leaves the ring resting. -/
theorem Resting.step (hs : s.Resting) (hstage : s.stage = .between) (hstore : options.io_instance = none)
    (hplain : plain s a = true) (h : Client.step options s a = some s') :
    s'.Resting ∧ s'.stage = .between := by
  cases a
  case reserve_space buffer payload =>
    rw [plain, Bool.and_eq_true, List.isEmpty_iff, beq_iff_eq] at hplain
    obtain ⟨hcalls, rfl⟩ := hplain
    have hreserve : s.reserve_space s.mem.current_buffer payload = some s' := by
      simpa [Client.step, hstage] using h
    refine ⟨?_, (reserve_space_stage hreserve).trans hstage⟩
    cases hs with
    | idle _ hcalm => exact .reserve_step hcalm hcalls hreserve
    | reserved call hcall => cases hcall.symm.trans hcalls
  case put i ok =>
    have hput : s.put options ok i = some s' := by
      simpa [Client.step, hstage] using h
    exact ⟨(hs.put_step hstore hput).1, (put_stage hput).trans hstage⟩
  case flush_current ok =>
    have hcalls : s.calls = [] := List.isEmpty_iff.mp hplain
    have hs' : some { s with mem := (s.mem.flush_current options ok).2 } = some s' := by
      simpa [Client.step, hstage] using h
    obtain rfl := Option.some.inj hs'
    refine ⟨?_, hstage⟩
    cases hs with
    | idle _ hcalm => exact .idle hcalls (hcalm.flush_current hstore ok)
    | reserved call hcall => cases hcall.symm.trans hcalls
  all_goals cases hplain

/-- Between the calls of one client every buffer but the current one is empty and the current one takes
reservations; a `put` that handled a full buffer leaves an empty one behind. -/
theorem storeless_never_stalls [NeZero L] (hstore : options.io_instance = none)
    (h : Reaches (Client.step options) (fun s a => plain s a = true) (init (with_options options)) s) :
    (s.calls = [] →
      (∀ c ≠ s.mem.current_buffer, (s.mem.ring c).state = 0) ∧
      let current := s.mem.ring s.mem.current_buffer
      state_sealed current.state = false ∧ state_flush_in_progress current.state = false ∧
        state_writers current.state = 0 ∧ state_offset current.state ≤ ONE_MEGABYTE_BLOCK ∧
        ∀ n ≤ ONE_MEGABYTE_BLOCK, ∃ result after, current.reserve_space n = some (result, after) ∧
          result ≠ .error .EncounteredSealedBuffer ∧ result ≠ .error .FailedReservation) ∧
    ∀ call ∈ s.calls, call.reserve_result = .error .InsufficientSpace →
      ∀ i ok s', Client.step options s (.put i ok) = some s' → ∀ n ≤ ONE_MEGABYTE_BLOCK,
        ∃ after, (s'.mem.ring s'.mem.current_buffer).reserve_space n = some (.ok 0, after) := by
  have hs : s.Resting ∧ s.stage = .between := by
    refine h.invariant (P := fun s => s.Resting ∧ s.stage = .between)
      (fun _ _ _ hs hplain h => hs.1.step hs.2 hstore hplain h) ⟨.idle rfl ?_, rfl⟩
    exact Calm.of_empty fun _ => rfl
  refine ⟨fun hcalls => ?_, fun call hcall hfull i ok s' hput n hlen => ?_⟩
  · have hcalm : s.mem.Calm 0 := by
      obtain ⟨_, hcalm⟩ | ⟨call, hcall, _, _, _⟩ := hs.1
      · exact hcalm
      · cases hcall.symm.trans hcalls
    refine ⟨hcalm.others, hcalm.unsealed, hcalm.unflushed, BitVec.eq_of_toNat_eq hcalm.writers, ?_, ?_⟩
    · exact hcalm.fits
    · intro n hlen
      unfold FlushBuffer.reserve_space
      rw [if_pos hlen, FlushBuffer.reserve_decision_open hcalm.unsealed hcalm.unflushed]
      split
      next e _ hdecision =>
        split at hdecision
        · obtain rfl := Except.error.inj hdecision
          refine ⟨_, _, rfl, ?_, ?_⟩ <;> decide
        · cases hdecision
      next => exact ⟨_, _, rfl, by simp, by simp⟩
  · have hput : s.put options ok i = some s' := by
      simpa [Client.step, hs.2] using hput
    exact FlushBuffer.reserve_space_zero ((hs.1.put_step hstore hput).2 call hcall hfull _) hlen

end Steps

/-- A ring without a store, everything else at its default. -/
def storelessOptions : BufferRingOptions := { storeOptions with io_instance := none }

/-- A client fills the first buffer, has it handled by the next `put`, and is refused once more for lack
of space. -/
def refill : List (Action 2) :=
  [.reserve_space 0 (zeros ONE_MEGABYTE_BLOCK), .put 0 true, .reserve_space 0 (zeros 1), .put 0 true,
    .reserve_space 1 (zeros 10), .put 0 true, .reserve_space 1 (zeros ONE_MEGABYTE_BLOCK)]

theorem storeless_never_stalls_refill :
    ∃ s : Client 2,
      Reaches (Client.step storelessOptions) (fun s a => plain s a = true)
        (init (with_options storelessOptions)) s ∧
      ∃ s', Client.step storelessOptions s (.put 0 true) = some s' ∧
        ∃ after, (s'.mem.ring s'.mem.current_buffer).reserve_space 10 = some (.ok 0, after) := by
  have hrun : (exec (Client.step storelessOptions) (fun s a => plain s a = true)
      refill (init (with_options storelessOptions))).any
      (fun s => s.calls.any (·.reserve_result == .error .InsufficientSpace) &&
        (Client.step storelessOptions s (.put 0 true)).isSome) = true := by
    decide +kernel
  obtain ⟨s, hreach, hcheck⟩ := exists_of_exec hrun
  simp only [Bool.and_eq_true, List.any_eq_true, beq_iff_eq, Option.isSome_iff_exists] at hcheck
  obtain ⟨⟨call, hcall, hfull⟩, s', hput⟩ := hcheck
  exact ⟨s, hreach, s', hput,
    (storeless_never_stalls rfl hreach).2 call hcall hfull 0 true s' hput 10 (by decide)⟩

end Client

end FlushRing
