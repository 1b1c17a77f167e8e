import FlushRing.Threads.Filling
import FlushRing.Threads.InFlight
import FlushRing.Threads.Lifecycle

open Transition

namespace FlushRing

variable {L : Nat}

/-- A thread about to reset a buffer holds a claim to its flush. -/
theorem Pc.tokens_of_resets {pc : Pc L} {b : Fin L} (hpc : pc.WellFormed) (h : pc.Resets b) :
    0 < pc.tokens b := by
  cases pc
  case resetState caller b' =>
    obtain rfl : b' = b := h
    rw [Pc.tokens_resetState b' b' caller hpc, if_pos rfl]
    exact Nat.succ_pos _
  all_goals cases h

theorem Pc.tokens_of_flushes (b : Fin L) (call : PutCall L) : 0 < (flushSet (.put call) b).tokens b := by
  simp [tokens, owns]

/-- The submission a thread makes next. -/
def Pc.submission : Pc L → Option (Submission L)
  | .submitPush _ buffer data_len offset => some { buffer, offset, data_len }
  | _ => none

/-- The submission a thread in `put` makes next. -/
def Pc.putSubmission : Pc L → Option (Submission L)
  | .submitPush (.put _) buffer data_len offset => some { buffer, offset, data_len }
  | _ => none

/-- The submission a thread in `flush_current` makes next. -/
def Pc.currentSubmission : Pc L → Option (Submission L)
  | .submitPush .flush_current buffer data_len offset => some { buffer, offset, data_len }
  | _ => none

/-- A submission that `put` makes next is the locked section of `submit`. -/
theorem Pc.submitPush_of_putSubmission {pc : Pc L} {sub : Submission L} (h : pc.putSubmission = some sub) :
    ∃ call, pc = .submitPush (.put call) sub.buffer sub.data_len sub.offset := by
  unfold putSubmission at h
  split at h
  next call buffer data_len offset =>
    obtain rfl := Option.some.inj h
    exact ⟨call, rfl⟩
  next => cases h

/-- A `put` about to submit a buffer holds a claim to its flush. -/
theorem Pc.tokens_of_putSubmission {pc : Pc L} {sub : Submission L} (h : pc.putSubmission = some sub) :
    0 < pc.tokens sub.buffer := by
  obtain ⟨call, rfl⟩ := submitPush_of_putSubmission h
  simp [tokens, owns]

theorem Pc.tokens_of_currentSubmission {pc : Pc L} {sub : Submission L}
    (h : pc.currentSubmission = some sub) : 0 < pc.tokens sub.buffer := by
  unfold currentSubmission at h
  split at h
  next buffer data_len offset =>
    obtain rfl := Option.some.inj h
    simp [tokens, owns]
  next => cases h

/-- The entry writes the memory of `b` to the file. -/
def Sqe.carries (b : Fin L) (e : Sqe L) : Bool :=
  match e.opcode with
  | .Write b' _ => b' == b && e.user_data == some b
  | _ => false

/-- The entries a step has added to the submission queue. -/
def pushes (mem mem' : BufferRing L) : List (Sqe L) := mem'.io.pushed.drop mem.io.pushed.length

/-- The thread is sending a failed write again. -/
def Pc.retries : Pc L → Bool
  | .cqueRetry _ _ _ => true
  | _ => false

/-- A submission queues its own entry, unless the queue is full. -/
theorem pushes_submit_raw (mem : BufferRing L) (store : QuikIO) (ok : Bool) (b : Fin L) (data_len offset : Usize) :
    (SQ_ENTRIES ≤ mem.io.sq.length ∧ pushes mem (mem.submit_raw store ok b data_len offset) = []) ∨
      (mem.io.sq.length < SQ_ENTRIES ∧
        pushes mem (mem.submit_raw store ok b data_len offset) = [mem.writeEntry store b data_len offset]) := by
  obtain ⟨hpush, hraw⟩ | ⟨io, hpush, hio, _⟩ := mem.submit_raw_cases store ok b data_len offset
  · refine .inl ⟨IoUring.push_eq_none hpush, ?_⟩
    rw [hraw, pushes, List.drop_length]
  · obtain ⟨hroom, rfl⟩ := IoUring.push_eq_some hpush
    refine .inr ⟨hroom, ?_⟩
    rw [pushes, hio, IoUring.submit_pushed, List.drop_left]

/-- A step other than a retry queues an entry only as a submission, which queues the write of its buffer. -/
theorem next_pushed {options : BufferRingOptions} {ok : Bool} {mem mem' : BufferRing L} {pc pc' : Pc L}
    (hretry : pc.retries = false) (h : next options ok mem pc = some (pc', mem')) :
    (pc.submission = none ∧ pushes mem mem' = []) ∨
      ∃ caller b' data_len offset, pc = .submitPush caller b' data_len offset ∧
        ((SQ_ENTRIES ≤ mem.io.sq.length ∧ pushes mem mem' = []) ∨
          (mem.io.sq.length < SQ_ENTRIES ∧ ∃ e, pushes mem mem' = [e] ∧ e.offset = offset ∧
            ∀ b, e.carries b = decide (b' = b))) := by
  have hio := next_io h
  cases pc
  case submitPush caller b' data_len offset =>
    refine .inr ⟨caller, b', data_len, offset, rfl, ?_⟩
    simp only [next] at h
    split at h
    next store hstore =>
      obtain ⟨_, rfl⟩ := Prod.mk.inj (Option.some.inj h)
      refine (pushes_submit_raw mem store ok b' data_len offset).imp_right fun hqueued => ?_
      refine ⟨hqueued.1, _, hqueued.2, rfl, fun b => ?_⟩
      simp only [Sqe.carries, BufferRing.writeEntry]
      by_cases hb : b' = b <;> simp [hb]
    next => cases h
  case cqueRetry cqe b' rest => cases hretry
  all_goals
    refine .inl ⟨rfl, ?_⟩
    rw [pushes, hio]
    exact List.drop_length

def RotateCaller.manual : RotateCaller L → Bool
  | .put _ => false
  | .flush_current => true

def FlushCaller.manual : FlushCaller L → Bool
  | .put _ => false
  | _ => true

def ResetCaller.manual : ResetCaller L → Bool
  | .flush caller => caller.manual
  | _ => false

/-- The thread is in a call that is not part of the automatic path: `flush_current`, or a client's own
`flush`. -/
def Pc.manual : Pc L → Bool
  | .rotateLoad caller _ => caller.manual
  | .rotateSize caller _ _ => caller.manual
  | .rotateNext caller _ _ _ => caller.manual
  | .rotateCheck caller _ _ _ _ => caller.manual
  | .rotateSwap caller _ _ _ => caller.manual
  | .rotateClaim caller _ _ => caller.manual
  | .rotateStore caller _ _ => caller.manual
  | .flushSet caller _ => caller.manual
  | .submitData caller _ => caller.manual
  | .submitOffset caller _ _ => caller.manual
  | .submitPush caller _ _ _ => caller.manual
  | .resetState caller _ => caller.manual
  | .resetAddress caller _ => caller.manual
  | .currentLoad => true
  | .currentSize _ => true
  | .currentSeal _ => true
  | .currentLen _ => true
  | .currentClaim _ _ => true
  | .currentStore _ _ => true
  | _ => false

/-- A call of the automatic path stays on it. -/
theorem Advances.manual {options : BufferRingOptions} {mem : BufferRing L} {pc pc' : Pc L}
    (h : Advances options mem pc pc') (hpc : pc.manual = false) : pc'.manual = false := by
  cases h
  case flush_won call _ =>
    unfold Pc.afterOwning
    repeat' split
    all_goals rfl
  case rotated_before caller _ _ _ => cases caller <;> rfl
  case rotate_exhausted caller _ _ => cases caller <;> rfl
  case rotate_stored caller _ _ => cases caller <;> rfl
  case submit_pushed caller _ _ _ =>
    cases caller with
    | put call => rfl
    | flush_current => cases hpc
    | client => cases hpc
  case address_reset caller _ =>
    cases caller with
    | put call => rfl
    | flush caller =>
      cases caller with
      | put call => rfl
      | flush_current => cases hpc
      | client => cases hpc
    | check_cque cqe rest => rfl
  case cque_takes cqe rest =>
    unfold Pc.cqueEntry
    repeat' split
    all_goals rfl
  all_goals first
    | rfl
    | exact hpc

/-- On the automatic path a buffer is sealed by `put`, whose thread becomes the sealer. -/
theorem next_seals {options : BufferRingOptions} {ok : Bool} {mem mem' : BufferRing L}
    {pc pc' : Pc L} {b : Fin L} (hpc : pc.WellFormed) (hmanual : pc.manual = false)
    (hopen : state_sealed (mem.ring b).state = false)
    (hsealed : state_sealed (mem'.ring b).state = true)
    (h : next options ok mem pc = some (pc', mem')) :
    ∃ call, pc = .putSeal call ∧ call.current = b ∧ pc' = .putSize call := by
  have hseal := next_sealed b h hpc
  rw [hsealed, hopen] at hseal
  cases next_advances h
  case seal_won call _ => exact ⟨call, rfl, by simpa [Pc.sealedAfter] using hseal, rfl⟩
  case seal_lost call hset =>
    have hb : call.current = b := by simpa [Pc.sealedAfter] using hseal
    rw [hb, hopen] at hset
    cases hset
  case current_sealed => cases hmanual
  all_goals simp [Pc.sealedAfter] at hseal

namespace Threads

variable {T : Type} [Fintype T]

/-- Ownership of flushes, the reservation ledger, the bytes copied and the order of seal, drain and flush, for
every buffer. -/
structure Sound (s : Threads T L) : Prop where
  owned : s.Owned
  fits : ∀ t, (s.pc t).Fits
  balanced : ∀ b, Balanced s.mem s.pc b
  orderly : ∀ b, Orderly s.mem s.pc b
  laid : ∀ b, Laid s.mem s.pc b

/-- No buffer is reset while a call is deciding on it. -/
def settled (s : Threads T L) : Action T → Bool
  | .run t _ =>
    match s.pc t with
    | .resetState _ b => decide (∀ t', (s.pc t').role.map Prod.fst ≠ some b)
    | _ => true
  | _ => true

/-- `flush_current` seals only an open buffer without writers, and no client calls `flush`. -/
def seizesOpen (s : Threads T L) : Action T → Bool
  | .run t _ =>
    match s.pc t with
    | .currentSeal b =>
      !state_sealed (s.mem.ring b).state && !state_flush_in_progress (s.mem.ring b).state &&
        state_writers (s.mem.ring b).state == 0
    | .flushSet .client _ => false
    | _ => true
  | _ => true

/-- A claim to the flush of a buffer means that its flush bit is on. -/
theorem Sound.flush_owned {s : Threads T L} (hs : s.Sound) {t : T} {b : Fin L}
    (htokens : 0 < (s.pc t).tokens b) : state_flush_in_progress (s.mem.ring b).state = true := by
  have hsingle := hs.owned.single b
  have hshare := share_le_sum (Pc.tokens b) s.pc t
  cases hflush : state_flush_in_progress (s.mem.ring b).state with
  | true => rfl
  | false =>
    have hzero : flushBit s.mem b = 0 := by rw [flushBit, hflush]; rfl
    omega

/-- A buffer whose flush bit is on is drained. -/
theorem drained_of_flushing {mem : BufferRing L} {pc : T → Pc L} {b : Fin L} (horderly : Orderly mem pc b)
    (hbalanced : Balanced mem pc b) (hlaid : Laid mem pc b)
    (hflush : state_flush_in_progress (mem.ring b).state = true) : Drained (mem.ring b) := by
  obtain ⟨hsealed, hzero⟩ := horderly.flushing hflush
  exact ⟨hsealed, hzero, hbalanced.drained hzero, hlaid.copied⟩

/-- Whoever holds a claim to the flush of a buffer finds it drained. -/
theorem Sound.drained {s : Threads T L} (hs : s.Sound) {t : T} {b : Fin L}
    (htokens : 0 < (s.pc t).tokens b) : Drained (s.mem.ring b) :=
  drained_of_flushing (hs.orderly b) (hs.balanced b) (hs.laid b) (hs.flush_owned htokens)

theorem sound_init [NeZero L] (options : BufferRingOptions) :
    (init (BufferRing.with_options options) : Threads T L).Sound where
  owned := owned_init
  fits _ := Pc.fits_of_putCall_none rfl
  balanced _ := .of_empty rfl rfl rfl
  orderly _ := .of_zero rfl
  laid _ := .of_empty rfl rfl rfl

section Steps
variable {options : BufferRingOptions} {s s' : Threads T L} {a : Action T}

/-- In a settled run no thread is deciding on a buffer that is reset. -/
theorem settled_run {t : T} {ok : Bool} {b : Fin L} (hsettled : settled s (.run t ok) = true)
    (hz : (s.pc t).Resets b) (t' : T) (r : Role) : (s.pc t').role ≠ some (b, r) := by
  intro hrole
  generalize hpc : s.pc t = p at hz
  cases p
  case resetState caller b' =>
    obtain rfl : b' = b := hz
    simp only [settled, hpc, decide_eq_true_eq] at hsettled
    exact hsettled t' (by rw [hrole]; rfl)
  all_goals cases hz

/-- The conditions on the steps are those the order of a filling's events needs. -/
theorem Sound.respects (hs : s.Sound) {t : T} {ok : Bool} (hsettled : settled s (.run t ok) = true)
    (hseizes : seizesOpen s (.run t ok) = true) (b : Fin L) : Respects s.mem s.pc b t where
  reset := settled_run hsettled
  seize hpc := by
    simpa [seizesOpen, hpc, and_assoc] using hseizes
  flush caller hpc hcaller := by
    cases caller with
    | put call => exact hs.flush_owned (t := t) (by rw [hpc]; exact Pc.tokens_of_flushes b call)
    | flush_current => exact absurd rfl hcaller
    | client => simp [seizesOpen, hpc] at hseizes

/-- `flush_current` is the first to turn on the flush bit of the buffer it has seized. -/
theorem Sound.flushFresh (hs : s.Sound) (hseizes : seizesOpen s a = true) :
    Threads.flushFresh s a = true := by
  cases a with
  | call t c => rfl
  | complete i result => rfl
  | run t ok =>
    cases hpc : s.pc t
    case flushSet caller b =>
      cases caller with
      | put call => simp [Threads.flushFresh, hpc]
      | flush_current =>
        have hclear := ((hs.orderly b).seizing t (by rw [hpc]; rfl)).1
        simp [Threads.flushFresh, hpc, hclear]
      | client => simp [seizesOpen, hpc] at hseizes
    all_goals simp [Threads.flushFresh, hpc]

variable [DecidableEq T]

/-- Every step that meets the conditions keeps the ring sound. -/
theorem Sound.step (hs : s.Sound) (hroomy : roomy s a = true) (hsettled : settled s a = true)
    (hseizes : seizesOpen s a = true) (h : Threads.step options s a = some s') : s'.Sound := by
  have howned := owned_step hs.owned (hs.flushFresh hseizes) h
  have hrest : (∀ t, (s'.pc t).Fits) ∧ (∀ b, Balanced s'.mem s'.pc b) ∧
      (∀ b, Orderly s'.mem s'.pc b) ∧ ∀ b, Laid s'.mem s'.pc b := by
    refine step_keeps_ring (P := fun mem pc => (∀ t, (pc t).Fits) ∧ (∀ b, Balanced mem pc b) ∧
      (∀ b, Orderly mem pc b) ∧ ∀ b, Laid mem pc b) h ?_ ?_ ?_
    · intro t c pc _ hentered
      refine ⟨?_, fun b => (hs.balanced b).call hentered, fun b => (hs.orderly b).call hentered.role,
        fun b => (hs.laid b).call hentered⟩
      rw [Function.forall_update_iff s.pc (p := fun _ pc => pc.Fits)]
      exact ⟨hentered.fits, fun t' _ => hs.fits t'⟩
    · rintro t ok pc mem rfl hnext
      have hpc := hs.owned.wellFormed t
      have hreset (b : Fin L) (hz : (s.pc t).Resets b) : state_writers (s.mem.ring b).state = 0 :=
        (hs.drained (Pc.tokens_of_resets hpc hz)).writers
      refine ⟨?_, fun b => ?_, fun b => ?_, fun b => ?_⟩
      · rw [Function.forall_update_iff s.pc (p := fun _ pc => pc.Fits)]
        exact ⟨(next_advances hnext).fits (hs.fits t), fun t' _ => hs.fits t'⟩
      · exact (hs.balanced b).run hpc (roomy_run hroomy) (hreset b) hnext
      · exact (hs.orderly b).run (hs.balanced b) hpc (hs.fits t) (hs.respects hsettled hseizes b) hnext
      · exact (hs.laid b).run (hs.balanced b) hpc (roomy_run hroomy) hnext
    · intro i result mem _ hmem
      exact ⟨hs.fits, fun b => (hs.balanced b).complete hmem, fun b => (hs.orderly b).complete hmem,
        fun b => (hs.laid b).complete hmem⟩
  exact ⟨howned, hrest.1, hrest.2.1, hrest.2.2.1, hrest.2.2.2⟩

/-- As long as `flush_current` seals only open buffers without writers, no buffer is reset under a call
that is deciding on it and the writer count has room, `flush_current` submits and resets only buffers
without writers, and every writer count is the number of reservations not yet released, so that no
`decrement_writers` borrows. -/
theorem flush_current_respects_writers [NeZero L]
    (h : Reaches (Threads.step options)
      (fun s a => seizesOpen s a = true ∧ settled s a = true ∧ roomy s a = true)
      (init (BufferRing.with_options options)) s) :
    (∀ t sub, (s.pc t).currentSubmission = some sub →
      state_writers (s.mem.ring sub.buffer).state = 0) ∧
    (∀ t b, s.pc t = .resetState (.flush .flush_current) b →
      state_writers (s.mem.ring b).state = 0) ∧
    (∀ b, (state_writers (s.mem.ring b).state).toNat = ∑ t, (s.pc t).holds b) ∧
    ∀ t call, s.pc t = .putDecrement call → 0 < (state_writers (s.mem.ring call.current).state).toNat := by
  have hs : s.Sound := h.invariant
    (fun s a s' hs hok => hs.step hok.2.2 hok.2.1 hok.1) (sound_init options)
  refine ⟨fun t sub hsub => ?_, fun t b hpc => ?_, fun b => (hs.balanced b).writers,
    fun t call hpc => ?_⟩
  · exact (hs.drained (Pc.tokens_of_currentSubmission hsub)).writers
  · exact (hs.drained (t := t) (by simp [hpc, Pc.tokens, Pc.owns])).writers
  · exact (hs.balanced call.current).counted (t := t) (by simp [hpc, Pc.holds])

/-- The calls of the automatic path. -/
def automatic : Action T → Bool
  | .call _ .flush_current => false
  | .call _ .flush => false
  | _ => true

omit [Fintype T] in
/-- Runs of the automatic path stay on it. -/
theorem manual_step (hs : ∀ t, (s.pc t).manual = false) (ha : automatic a = true)
    (h : Threads.step options s a = some s') : ∀ t, (s'.pc t).manual = false := by
  refine step_keeps_ring (P := fun _ pc => ∀ t, (pc t).manual = false) h ?_ ?_ ?_
  · rintro t c pc rfl hentered
    rw [Function.forall_update_iff s.pc (p := fun _ pc => pc.manual = false)]
    refine ⟨?_, fun t' _ => hs t'⟩
    generalize s.pc t = p at hentered
    cases hentered
    case put b payload result =>
      unfold Pc.putEntry
      split <;> rfl
    case flush_current => cases ha
    case flush => cases ha
    all_goals rfl
  · intro t ok pc mem _ hnext
    rw [Function.forall_update_iff s.pc (p := fun _ pc => pc.manual = false)]
    exact ⟨(next_advances hnext).manual (hs t), fun t' _ => hs t'⟩
  · intro i result mem _ _
    exact hs

omit [Fintype T] [DecidableEq T] in
/-- On the automatic path nobody seizes a buffer. -/
theorem seizesOpen_of_manual (hs : ∀ t, (s.pc t).manual = false) : seizesOpen s a = true := by
  cases a with
  | call t c => rfl
  | complete i result => rfl
  | run t ok =>
    have hmanual := hs t
    cases hpc : s.pc t
    all_goals rw [hpc] at hmanual
    case flushSet caller b =>
      cases caller
      case client => cases hmanual
      all_goals simp [seizesOpen, hpc]
    case currentSeal b => cases hmanual
    all_goals simp [seizesOpen, hpc]

/-- The ring stays sound in every run of the automatic path that meets the conditions. -/
theorem sound_of_automatic [NeZero L]
    (h : Reaches (Threads.step options)
      (fun s a => automatic a = true ∧ settled s a = true ∧ roomy s a = true)
      (init (BufferRing.with_options options)) s) : s.Sound ∧ ∀ t, (s.pc t).manual = false :=
  h.invariant (P := fun s => s.Sound ∧ ∀ t, (s.pc t).manual = false)
    (fun _ _ _ hs hok h =>
      ⟨hs.1.step hok.2.2 hok.2.1 (seizesOpen_of_manual hs.2) h, manual_step hs.2 hok.1 h⟩)
    ⟨sound_init options, fun _ => rfl⟩

/-- On the automatic path, as long as no buffer is reset under a call that is deciding on it and the
writer count has room, a buffer submitted by `put` is sealed, has no writers, and every range granted
since its last reset has been copied and holds its payload. -/
theorem put_submits_drained [NeZero L]
    (h : Reaches (Threads.step options)
      (fun s a => automatic a = true ∧ settled s a = true ∧ roomy s a = true)
      (init (BufferRing.with_options options)) s)
    {t : T} {sub : Submission L} (hsub : (s.pc t).putSubmission = some sub) :
    Drained (s.mem.ring sub.buffer) :=
  (sound_of_automatic h).1.drained (Pc.tokens_of_putSubmission hsub)

end Steps

/-- One thread fills the buffer; its next payload does not fit, so it seals the buffer and submits it. -/
def fillAndSubmit : List (Action (Fin 1)) :=
  attempt 0 (zeros ONE_MEGABYTE_BLOCK) 2 2 ++ [.call 0 .finish] ++ attempt 0 (zeros 1) 1 14

theorem put_submits_drained_fillAndSubmit :
    ∃ (s : Threads (Fin 1) 1) (sub : Submission 1),
      Reaches (Threads.step storeOptions)
        (fun s a => automatic a = true ∧ settled s a = true ∧ roomy s a = true)
        (init (BufferRing.with_options storeOptions)) s ∧
      (s.pc 0).putSubmission = some sub ∧ state_writers (s.mem.ring sub.buffer).state = 0 := by
  have hrun : (exec (Threads.step storeOptions)
      (fun s a => automatic a = true ∧ settled s a = true ∧ roomy s a = true) fillAndSubmit
      (init (BufferRing.with_options storeOptions) : Threads (Fin 1) 1)).any
      (fun s => (s.pc 0).putSubmission.isSome) = true := by decide +kernel
  obtain ⟨s, hreach, hsome⟩ := exists_of_exec hrun
  obtain ⟨sub, hsub⟩ := Option.isSome_iff_exists.mp hsome
  exact ⟨s, sub, hreach, hsub, (put_submits_drained hreach hsub).writers⟩

/-- Thread 1 seals the buffer that thread 0 has filled but not yet copied into. Thread 0 copies, is the
last writer and submits; the write completes and thread 2 resets the buffer. Thread 1 now finds no
writer and takes the flush, while thread 0 has reserved a byte of the next filling. -/
def staleSealer : List (Action (Fin 3)) :=
  List.flatten [
    [.call 0 (.take (zeros ONE_MEGABYTE_BLOCK)), .call 0 .current_buffer, .call 0 .reserve_space],
    steps 0 2, attempt 1 (zeros 1) 1 9, [.call 0 .put], steps 0 7,
    [.complete 0 1048576, .call 2 .check_cque], steps 2 4, steps 1 1,
    [.call 0 .finish, .call 0 (.take (zeros 1)), .call 0 .current_buffer, .call 0 .reserve_space],
    steps 0 2, steps 1 4]

theorem put_submits_open_buffer :
    ∃ (s : Threads (Fin 3) 1) (sub : Submission 1),
      Reaches (Threads.step storeOptions) (fun _ a => automatic a = true)
        (init (BufferRing.with_options storeOptions)) s ∧
      (s.pc 1).putSubmission = some sub ∧ state_sealed (s.mem.ring sub.buffer).state = false ∧
      state_writers (s.mem.ring sub.buffer).state = 1 ∧
      (s.mem.ring sub.buffer).filling.granted = [(0, 1)] ∧
      (s.mem.ring sub.buffer).filling.copied = [] := by
  have hrun : (exec (Threads.step storeOptions) (fun _ a => automatic a = true) staleSealer
      (init (BufferRing.with_options storeOptions) : Threads (Fin 3) 1)).any
      (fun s => (s.pc 1).putSubmission.any fun sub =>
        !state_sealed (s.mem.ring sub.buffer).state &&
        state_writers (s.mem.ring sub.buffer).state == 1 &&
        (s.mem.ring sub.buffer).filling.granted == [(0, 1)] &&
        (s.mem.ring sub.buffer).filling.copied.isEmpty) = true := by decide +kernel
  obtain ⟨s, hreach, hcheck⟩ := exists_of_exec hrun
  obtain ⟨sub, hsub, hstate⟩ := (Option.any_eq_true _ _).mp hcheck
  simp only [Bool.and_eq_true, Bool.not_eq_true', beq_iff_eq, List.isEmpty_iff] at hstate
  obtain ⟨⟨⟨hopen, hwriters⟩, hgranted⟩, hcopied⟩ := hstate
  exact ⟨s, sub, hreach, hsub, hopen, hwriters, hgranted, hcopied⟩

/-- One thread logs four bytes and then calls `flush_current`, up to the submission. -/
def flushAlone : List (Action (Fin 1)) :=
  attempt 0 (zeros 4) 2 2 ++ [.call 0 .finish, .call 0 .flush_current] ++ steps 0 9

theorem flush_current_respects_writers_flushAlone :
    ∃ (s : Threads (Fin 1) 1) (sub : Submission 1),
      Reaches (Threads.step storeOptions)
        (fun s a => seizesOpen s a = true ∧ settled s a = true ∧ roomy s a = true)
        (init (BufferRing.with_options storeOptions)) s ∧
      (s.pc 0).currentSubmission = some sub ∧ state_writers (s.mem.ring sub.buffer).state = 0 := by
  have hrun : (exec (Threads.step storeOptions)
      (fun s a => seizesOpen s a = true ∧ settled s a = true ∧ roomy s a = true) flushAlone
      (init (BufferRing.with_options storeOptions) : Threads (Fin 1) 1)).any
      (fun s => (s.pc 0).currentSubmission.isSome) = true := by decide +kernel
  obtain ⟨s, hreach, hsome⟩ := exists_of_exec hrun
  obtain ⟨sub, hsub⟩ := Option.isSome_iff_exists.mp hsome
  exact ⟨s, sub, hreach, hsub, (flush_current_respects_writers hreach).1 0 sub hsub⟩

/-- Thread 0 has reserved four bytes when thread 1 calls `flush_current`, which without a store resets
the buffer at once: thread 0 still holds its reservation and the word counts no writer. -/
theorem flush_current_resets_under_writer :
    ∃ s : Threads (Fin 2) 1,
      Reaches (Threads.step { BufferRingOptions.new with buffer_size := ONE_MEGABYTE_BLOCK })
        (fun _ _ => True)
        (init (BufferRing.with_options { BufferRingOptions.new with
          buffer_size := ONE_MEGABYTE_BLOCK })) s ∧
      (s.pc 0).holds 0 = 1 ∧ state_writers (s.mem.ring 0).state = 0 := by
  have hrun : (exec (Threads.step { BufferRingOptions.new with buffer_size := ONE_MEGABYTE_BLOCK })
      (fun _ _ => True)
      ([.call 0 (.take (zeros 4)), .call 0 .current_buffer, .call 0 .reserve_space] ++ steps 0 2 ++
        [.call 1 .flush_current] ++ steps 1 8)
      (init (BufferRing.with_options { BufferRingOptions.new with
        buffer_size := ONE_MEGABYTE_BLOCK }) : Threads (Fin 2) 1)).any
      (fun s => (s.pc 0).holds 0 == 1 && state_writers (s.mem.ring 0).state == 0) = true := by
    decide +kernel
  obtain ⟨s, hreach, hcheck⟩ := exists_of_exec hrun
  simp only [Bool.and_eq_true, beq_iff_eq] at hcheck
  exact ⟨s, hreach, hcheck.1, hcheck.2⟩

end Threads

end FlushRing
