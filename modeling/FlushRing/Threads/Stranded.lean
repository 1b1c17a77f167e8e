import FlushRing.Threads.Reservations

open Transition

namespace FlushRing

variable {L : Nat}

/-- A buffer with this word holds data and is open: only a later seal can dispatch it. -/
def Live (state : Usize) : Prop :=
  state_offset state ≠ 0 ∧ state_sealed state = false ∧ state_flush_in_progress state = false

def FlushCaller.rotating (b : Fin L) : FlushCaller L → Option (Fin L)
  | .flush_current => some b
  | _ => none

def ResetCaller.rotating (b : Fin L) : ResetCaller L → Option (Fin L)
  | .flush caller => caller.rotating b
  | _ => none

namespace Pc

/-- The buffer a thread has sealed and may yet swing the current pointer off. -/
def rotating : Pc L → Option (Fin L)
  | .putSize call => some call.current
  | .putClaim call _ => some call.current
  | .putStore call _ => some call.current
  | .rotateLoad _ sealed_pos => some sealed_pos
  | .rotateSize _ sealed_pos _ => some sealed_pos
  | .rotateNext _ current _ _ => some current
  | .rotateCheck _ current _ _ _ => some current
  | .rotateSwap _ current _ _ => some current
  | .currentLen b => some b
  | .currentClaim b _ => some b
  | .currentStore b _ => some b
  | .flushSet caller b => caller.rotating b
  | .submitData caller b => caller.rotating b
  | .submitOffset caller b _ => caller.rotating b
  | .submitPush caller b _ _ => caller.rotating b
  | .resetState caller b => caller.rotating b
  | .resetAddress caller b => caller.rotating b
  | _ => none

theorem rotating_afterRotate (caller : RotateCaller L) : (afterRotate caller).rotating = none := by
  cases caller <;> rfl

theorem rotating_afterFlush (b : Fin L) (caller : FlushCaller L) :
    (afterFlush b caller).rotating = caller.rotating b := by
  cases caller <;> rfl

theorem rotating_afterReset (b : Fin L) (caller : ResetCaller L) :
    (afterReset b caller).rotating = caller.rotating b := by
  cases caller with
  | put call => rfl
  | flush caller => exact rotating_afterFlush b caller
  | check_cque cqe rest => rfl

theorem rotating_afterOwning (options : BufferRingOptions) (call : PutCall L) :
    (afterOwning options call).rotating = none := by
  unfold afterOwning
  repeat' split
  all_goals rfl

theorem rotating_cqueEntry (options : BufferRingOptions) (cqe : Cqe L) (rest : List (Cqe L)) :
    (cqueEntry options cqe rest).rotating = none := by
  unfold cqueEntry
  repeat' split
  all_goals rfl

theorem rotating_putEntry (call : PutCall L) : (putEntry call).rotating = none := by
  unfold putEntry
  split <;> rfl

end Pc

theorem Entered.rotating {held : Option (Fin L)} {msg : Option Slice} {c : Call} {pc pc' : Pc L}
    (h : Entered held msg c pc pc') : pc'.rotating = none := by
  cases h
  case put b payload result => exact Pc.rotating_putEntry _
  all_goals rfl

section Steps
variable {options : BufferRingOptions} {ok : Bool} {mem mem' : BufferRing L} {pc pc' : Pc L} {b : Fin L}

/-- A thread sets out to rotate by sealing. -/
theorem Advances.rotating (h : Advances options mem pc pc') (hrotates : pc'.rotating = some b) :
    pc.rotating = some b ∨ (∃ call, pc = .putSeal call ∧ call.current = b) ∨ pc = .currentSeal b := by
  cases h
  case seal_won call _ =>
    obtain rfl := Option.some.inj hrotates
    exact .inr (.inl ⟨call, rfl, rfl⟩)
  case current_sealed b' =>
    obtain rfl := Option.some.inj hrotates
    exact .inr (.inr rfl)
  case flush_won call _ =>
    rw [Pc.rotating_afterOwning] at hrotates
    cases hrotates
  case rotated_before caller _ _ _ =>
    rw [Pc.rotating_afterRotate] at hrotates
    cases hrotates
  case rotate_exhausted caller _ _ =>
    rw [Pc.rotating_afterRotate] at hrotates
    cases hrotates
  case rotate_stored caller _ _ =>
    rw [Pc.rotating_afterRotate] at hrotates
    cases hrotates
  case submit_pushed caller b' _ _ =>
    rw [Pc.rotating_afterFlush] at hrotates
    exact .inl hrotates
  case address_reset caller b' =>
    rw [Pc.rotating_afterReset] at hrotates
    exact .inl hrotates
  case cque_takes cqe rest =>
    rw [Pc.rotating_cqueEntry] at hrotates
    cases hrotates
  all_goals first
    | exact .inl hrotates
    | cases hrotates

/-- A buffer becomes live only through a granted reservation of at least one byte. -/
theorem next_live (hpc : pc.WellFormed)
    (hroom : pc.Grants b (mem.ring b).state → (state_writers (mem.ring b).state).toNat + 1 < 2 ^ 24)
    (hrelease : pc.Releases b → 0 < (state_writers (mem.ring b).state).toNat)
    (h : next options ok mem pc = some (pc', mem')) (hlive : Live (mem'.ring b).state) :
    Live (mem.ring b).state ∨
      ∃ payload offset new, pc = .reserveExchange b payload (mem.ring b).state offset new ∧
        payload.len ≠ 0 := by
  rw [next_state b h] at hlive
  cases pc
  case reserveExchange b' payload state offset new =>
    by_cases hg : b' = b ∧ (mem.ring b).state = state
    · obtain ⟨rfl, rfl⟩ := hg
      by_cases hlen : payload.len = 0
      · left
        obtain ⟨hopen, hclear, _, hfit, hnew⟩ := FlushBuffer.reserve_decision_ok hpc
        have hroom := hroom ⟨rfl, rfl⟩
        have hoffset : (state_offset (mem.ring b').state).toNat + payload.len.toNat < 2 ^ 32 := by
          rw [hlen, state_offset_toNat]
          simp only [BitVec.toNat_zero, Nat.add_zero, BitVec.ofNat_eq_ofNat]
          omega
        have hword := state_offset_reserved _ _ hoffset hroom
        rw [hlen] at hword hnew
        refine ⟨?_, hopen, hclear⟩
        intro hzero
        apply hlive.1
        simp only [Pc.wordAfter, and_self, if_true]
        rw [hnew]
        apply BitVec.eq_of_toNat_eq
        rw [hword, hzero]
        rfl
      · exact .inr ⟨payload, offset, new, rfl, hlen⟩
    · left
      simpa [Pc.wordAfter, hg] using hlive
  case putDecrement call =>
    left
    by_cases hb : call.current = b
    · subst hb
      have hpos := hrelease rfl
      simpa [Pc.wordAfter, Live, state_offset_sub_writer _ hpos] using hlive
    · simpa [Pc.wordAfter, hb] using hlive
  all_goals left
  all_goals simp only [Pc.wordAfter] at hlive
  all_goals try exact hlive
  all_goals split at hlive
  all_goals try exact hlive
  all_goals simp [Live] at hlive

end Steps

namespace Threads

variable {T : Type} [Fintype T]

/-- A reservation of at least one byte is granted only in the current buffer, and not while a call that
has sealed that buffer is still on its way to swing the pointer off it. -/
def landsOnCurrent (s : Threads T L) : Action T → Bool
  | .run t _ =>
    match s.pc t with
    | .reserveExchange b payload state _ _ =>
      payload.len == 0 || (s.mem.ring b).state != state ||
        (b == s.mem.current_buffer && decide (∀ t', (s.pc t').rotating ≠ some b))
    | _ => true
  | _ => true

/-- A live buffer is the current one, and a buffer somebody is rotating away from is not live. -/
structure Anchored (s : Threads T L) : Prop where
  wellFormed : ∀ t, (s.pc t).WellFormed
  balanced : ∀ b, Balanced s.mem s.pc b
  rotating : ∀ b t, (s.pc t).rotating = some b → ¬ Live (s.mem.ring b).state
  live : ∀ b, Live (s.mem.ring b).state → b = s.mem.current_buffer

theorem anchored_init [NeZero L] (options : BufferRingOptions) :
    (init (BufferRing.with_options options) : Threads T L).Anchored where
  wellFormed _ := trivial
  balanced _ := .of_empty rfl rfl rfl
  rotating _ _ h := by cases h
  live _ h := by simp [Live, init, BufferRing.with_options, FlushBuffer.new_buffer] at h

section Steps
variable {options : BufferRingOptions} {s s' : Threads T L} {a : Action T} {b : Fin L}
variable {t : T} {ok : Bool} {pc : Pc L} {mem : BufferRing L}

/-- A buffer live after a step was live before it, or is current and has nobody rotating away. -/
theorem Anchored.live_before (hs : s.Anchored) (hlands : landsOnCurrent s (.run t ok) = true)
    (hroomy : roomy s (.run t ok) = true) (h : next options ok s.mem (s.pc t) = some (pc, mem))
    (hlive : Live (mem.ring b).state) :
    Live (s.mem.ring b).state ∨ (b = s.mem.current_buffer ∧
      (∃ payload state offset new, s.pc t = .reserveExchange b payload state offset new) ∧
      ∀ t', (s.pc t').rotating ≠ some b) := by
  have hrelease (hr : (s.pc t).Releases b) : 0 < (state_writers (s.mem.ring b).state).toNat :=
    (hs.balanced b).counted (Pc.holds_of_releases hr)
  obtain hbefore | ⟨payload, offset, new, hpc, hlen⟩ :=
    next_live (hs.wellFormed t) (roomy_run hroomy) hrelease h hlive
  · exact .inl hbefore
  · have hsome : ¬ payload.len = 0#64 := hlen
    have hcurrent : b = s.mem.current_buffer ∧ ∀ t', (s.pc t').rotating ≠ some b := by
      simpa [landsOnCurrent, hpc, hsome] using hlands
    exact .inr ⟨hcurrent.1, ⟨payload, _, offset, new, hpc⟩, hcurrent.2⟩

/-- A thread rotates away only from a buffer that is live no more. -/
theorem Anchored.rotating_run [DecidableEq T] (hs : s.Anchored)
    (hlands : landsOnCurrent s (.run t ok) = true)
    (hroomy : roomy s (.run t ok) = true) (h : next options ok s.mem (s.pc t) = some (pc, mem))
    (t' : T) (hrotates : (Function.update s.pc t pc t').rotating = some b) :
    ¬ Live (mem.ring b).state := by
  intro hlive
  have hbefore (hrotates : (s.pc t').rotating = some b) : False := by
    obtain hlive | ⟨_, _, hnone⟩ := hs.live_before hlands hroomy h hlive
    · exact hs.rotating b t' hrotates hlive
    · exact hnone t' hrotates
  obtain ⟨rfl, hnew⟩ | ⟨_, hold⟩ := Threads.update_cases (p := fun pc => pc.rotating = some b) hrotates
  · obtain hkeep | ⟨call, hput, rfl⟩ | hseal := (next_advances h).rotating hnew
    · exact hbefore hkeep
    · have hsealed := next_sealed call.current h (hs.wellFormed t')
      rw [hput] at hsealed
      simp [Pc.sealedAfter, hlive.2.1] at hsealed
    · have hsealed := next_sealed b h (hs.wellFormed t')
      rw [hseal] at hsealed
      simp [Pc.sealedAfter, hlive.2.1] at hsealed
  · exact hbefore hold

/-- The pointer is swung off a buffer only by a thread that is rotating away from it. -/
theorem Anchored.live_run (hs : s.Anchored) (hlands : landsOnCurrent s (.run t ok) = true)
    (hroomy : roomy s (.run t ok) = true) (h : next options ok s.mem (s.pc t) = some (pc, mem))
    (hlive : Live (mem.ring b).state) : b = mem.current_buffer := by
  obtain hbefore | ⟨hcurrent, ⟨payload, state, offset, new, hpc⟩, _⟩ :=
    hs.live_before hlands hroomy h hlive
  · have hcurrent := hs.live b hbefore
    obtain hsame | ⟨caller, current, size, new, hpc, hat, _⟩ := next_current h
    · rw [hsame]
      exact hcurrent
    · exact absurd hbefore (hs.rotating b t (by rw [hpc, hcurrent, hat]; rfl))
  · obtain hsame | ⟨_, _, _, _, hswap, _⟩ := next_current h
    · rw [hsame]
      exact hcurrent
    · rw [hpc] at hswap
      cases hswap

/-- Every step that meets the conditions keeps the live buffers current. -/
theorem Anchored.step [DecidableEq T] (hs : s.Anchored) (hlands : landsOnCurrent s a = true)
    (hdrained : resetsDrained s a = true) (hroomy : roomy s a = true)
    (h : Threads.step options s a = some s') : s'.Anchored := by
  obtain ⟨t, c, pc, rfl, hentry, rfl⟩ | ⟨t, ok, pc, mem, rfl, hnext, rfl⟩ |
    ⟨i, result, mem, rfl, hmem, rfl⟩ := step_cases h
  · have hentered := entry_entered hentry
    refine ⟨?_, fun b => ?_, fun b => ?_, fun b => ?_⟩
    · rw [Function.forall_update_iff s.pc (p := fun _ pc => pc.WellFormed)]
      exact ⟨hentered.wellFormed, fun t' _ => hs.wellFormed t'⟩
    · rw [note_mem]
      exact (hs.balanced b).call hentered
    · rw [note_mem]
      rw [Function.forall_update_iff s.pc (p := fun _ pc => pc.rotating = some b →
        ¬ Live (s.mem.ring b).state)]
      refine ⟨fun hrotates => ?_, fun t' _ => hs.rotating b t'⟩
      rw [hentered.rotating] at hrotates
      cases hrotates
    · rw [note_mem]
      exact hs.live b
  · refine ⟨?_, fun b => ?_, fun b => hs.rotating_run hlands hroomy hnext,
      fun b => hs.live_run hlands hroomy hnext⟩
    · rw [Function.forall_update_iff s.pc (p := fun _ pc => pc.WellFormed)]
      exact ⟨next_wellFormed hnext (hs.wellFormed t), fun t' _ => hs.wellFormed t'⟩
    · exact (hs.balanced b).run (hs.wellFormed t) (roomy_run hroomy) (resetsDrained_run hdrained) hnext
  · have hbalanced (b : Fin L) := (hs.balanced b).complete hmem
    obtain ⟨e, _, _, rfl⟩ := BufferRing.complete_cases hmem
    exact ⟨hs.wellFormed, hbalanced, hs.rotating, hs.live⟩

/-- As long as reservations are granted in the current buffer and no call is rotating away from it,
buffers are reset only without writers and the writer count has room, a buffer that holds data and is
neither sealed nor being flushed is the current one. -/
theorem live_is_current [NeZero L] [DecidableEq T]
    (h : Reaches (Threads.step options)
      (fun s a => landsOnCurrent s a = true ∧ resetsDrained s a = true ∧ roomy s a = true)
      (init (BufferRing.with_options options)) s)
    (hoffset : state_offset (s.mem.ring b).state ≠ 0)
    (hopen : state_sealed (s.mem.ring b).state = false)
    (hclear : state_flush_in_progress (s.mem.ring b).state = false) :
    b = s.mem.current_buffer := by
  have hs : s.Anchored := h.invariant (P := Anchored)
    (fun _ _ _ hs hok h => hs.step hok.1 hok.2.1 hok.2.2 h) (anchored_init options)
  exact hs.live b ⟨hoffset, hopen, hclear⟩

end Steps

theorem live_is_current_attempt :
    ∃ s : Threads (Fin 1) 2,
      Reaches (Threads.step storeOptions)
        (fun s a => landsOnCurrent s a = true ∧ resetsDrained s a = true ∧ roomy s a = true)
        (init (BufferRing.with_options storeOptions)) s ∧
      state_offset (s.mem.ring 0).state = 4 ∧ 0 = s.mem.current_buffer := by
  have hrun : (exec (Threads.step storeOptions)
      (fun s a => landsOnCurrent s a = true ∧ resetsDrained s a = true ∧ roomy s a = true)
      (attempt 0 (zeros 4) 2 2)
      (init (BufferRing.with_options storeOptions) : Threads (Fin 1) 2)).any
      (fun s => state_offset (s.mem.ring 0).state == 4 && !state_sealed (s.mem.ring 0).state &&
        !state_flush_in_progress (s.mem.ring 0).state) = true := by decide +kernel
  obtain ⟨s, hreach, hcheck⟩ := exists_of_exec hrun
  simp only [Bool.and_eq_true, Bool.not_eq_true', beq_iff_eq] at hcheck
  obtain ⟨⟨hoffset, hopen⟩, hclear⟩ := hcheck
  exact ⟨s, hreach, hoffset, live_is_current hreach (by rw [hoffset]; decide) hopen hclear⟩

/-- Thread 0 takes a reference to the first buffer. Thread 1 fills that buffer, seals it, rotates and
submits it, and polls its completion, which resets it. Thread 0 then logs a byte into it: all calls have
returned, and the byte is in an open buffer that is not current. -/
def staleReference : List (Action (Fin 2)) :=
  List.flatten [
    [.call 0 .current_buffer], attempt 1 (zeros ONE_MEGABYTE_BLOCK) 2 2, [.call 1 .finish],
    attempt 1 (zeros 1) 1 17, [.call 1 .finish, .complete 0 1048576, .call 1 .check_cque], steps 1 6,
    [.call 0 (.take (zeros 1)), .call 0 .reserve_space], steps 0 2, [.call 0 .put], steps 0 2]

theorem live_but_not_current :
    ∃ s : Threads (Fin 2) 2,
      Reaches (Threads.step storeOptions) (fun _ _ => True)
        (init (BufferRing.with_options storeOptions)) s ∧
      (∀ t, (s.pc t).done = true) ∧ state_offset (s.mem.ring 0).state = 1 ∧
      state_sealed (s.mem.ring 0).state = false ∧
      state_flush_in_progress (s.mem.ring 0).state = false ∧ s.mem.current_buffer = 1 := by
  have hrun : (exec (Threads.step storeOptions) (fun _ _ => True) staleReference
      (init (BufferRing.with_options storeOptions) : Threads (Fin 2) 2)).any
      (fun s => decide (∀ t, (s.pc t).done = true) && state_offset (s.mem.ring 0).state == 1 &&
        !state_sealed (s.mem.ring 0).state && !state_flush_in_progress (s.mem.ring 0).state &&
        s.mem.current_buffer == 1) = true := by decide +kernel
  obtain ⟨s, hreach, hcheck⟩ := exists_of_exec hrun
  simp only [Bool.and_eq_true, Bool.not_eq_true', beq_iff_eq, decide_eq_true_eq] at hcheck
  obtain ⟨⟨⟨⟨hdone, hoffset⟩, hopen⟩, hclear⟩, hcurrent⟩ := hcheck
  exact ⟨s, hreach, hdone, hoffset, hopen, hclear, hcurrent⟩

end Threads

end FlushRing
