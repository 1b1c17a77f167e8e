import FlushRing.Threads.Dispatch

/-! One filling of one buffer, from an empty open word on: the flush bit is a conserved claim that
passes from the thread that turned it on to the submission it makes, and a sealed buffer whose bit is
off has somebody left who will turn it on. -/

open Transition

namespace FlushRing

variable {L : Nat}

/-- The submissions of one buffer. -/
def submitted (b : Fin L) (submissions : List (Submission L)) : Nat :=
  submissions.countP (·.buffer = b)

/-- What has become of the submissions made so far: the entries they queued, with the ring each was queued in, and
the buffers whose entry a full queue refused. -/
structure Outcomes (L : Nat) where
  queued : List (Sqe L × BufferRing L) := []
  refused : List (Fin L) := []

namespace Pc

/-- The buffer whose entry the queue is too full for. -/
def refused (io : IoUring L) : Pc L → List (Fin L)
  | .submitPush _ b _ _ => if SQ_ENTRIES ≤ io.sq.length then [b] else []
  | _ => []

theorem owns_afterRotate (b : Fin L) (caller : RotateCaller L) : (afterRotate caller).owns b = 0 := by
  cases caller <;> rfl

theorem owns_afterFlush (b b' : Fin L) (caller : FlushCaller L) :
    (afterFlush b' caller).owns b = 0 := by
  cases caller <;> rfl

theorem owns_afterReset (b b' : Fin L) (caller : ResetCaller L) :
    (afterReset b' caller).owns b = 0 := by
  cases caller with
  | put call => rfl
  | flush caller => exact owns_afterFlush b b' caller
  | check_cque cqe rest => rfl

theorem owns_afterOwning (b : Fin L) (options : BufferRingOptions) (call : PutCall L) :
    (afterOwning options call).owns b = if call.current = b then 1 else 0 := by
  unfold afterOwning
  split
  · split <;> rfl
  · rfl

theorem owns_cqueEntry (b : Fin L) (options : BufferRingOptions) (cqe : Cqe L) (rest : List (Cqe L)) :
    (cqueEntry options cqe rest).owns b = 0 := by
  unfold cqueEntry
  repeat' split
  all_goals rfl

theorem owns_putEntry (b : Fin L) (call : PutCall L) : (putEntry call).owns b = 0 := by
  unfold putEntry
  split <;> rfl

end Pc

/-- A call that a client enters changes no ownership. -/
theorem Entered.owns {held : Option (Fin L)} {msg : Option Slice} {c : Call} {pc pc' : Pc L}
    (b : Fin L) (h : Entered held msg c pc pc') (hmanual : pc'.manual = false) :
    pc'.owns b = pc.owns b := by
  cases h
  case put b' payload result => exact Pc.owns_putEntry b _
  case flush => cases hmanual
  all_goals rfl

theorem Entered.role_before {held : Option (Fin L)} {msg : Option Slice} {c : Call} {pc pc' : Pc L}
    (h : Entered held msg c pc pc') : pc.role = none := by
  cases h
  all_goals rfl

section Steps
variable {options : BufferRingOptions} {ok : Bool} {mem mem' : BufferRing L} {pc pc' : Pc L} {b : Fin L}

/-- Turning the flush bit of `b` on makes the thread its owner, and submitting `b` spends the
ownership. -/
theorem next_owns (hpc : pc.WellFormed) (hmanual : pc.manual = false) (hreset : ¬ pc.Resets b)
    (hflush : ∀ caller, pc = .flushSet caller b →
      state_flush_in_progress (mem.ring b).state = true)
    (h : next options ok mem pc = some (pc', mem')) :
    pc'.owns b + submitted b pc.submission.toList + flushBit mem b = pc.owns b + flushBit mem' b := by
  have hbit : flushBit mem' b = (pc.flushingAfter b
      (state_flush_in_progress (mem.ring b).state)).toNat :=
    congrArg Bool.toNat (next_flushing b h hpc)
  rw [hbit]
  cases next_advances h
  case flush_won call hclear =>
    rw [Pc.owns_afterOwning]
    by_cases hb : call.current = b
    · subst hb
      simp [submitted, Pc.submission, Pc.owns, Pc.flushingAfter, flushBit, hclear]
    · simp [submitted, Pc.submission, Pc.owns, Pc.flushingAfter, flushBit, hb]
  case flush_lost call hset =>
    by_cases hb : call.current = b
    · subst hb
      simp [submitted, Pc.submission, Pc.owns, Pc.flushingAfter, flushBit, hset]
    · simp [submitted, Pc.submission, Pc.owns, Pc.flushingAfter, flushBit, hb]
  case flush_submits caller b' _ | flush_resets caller b' _ =>
    cases caller with
    | put call =>
      by_cases hb : b' = b
      · subst hb
        simp [submitted, Pc.submission, Pc.owns, Pc.flushingAfter, flushBit, hflush _ rfl]
      · simp [submitted, Pc.submission, Pc.owns, Pc.flushingAfter, flushBit, hb]
    | flush_current => cases hmanual
    | client => cases hmanual
  case submit_pushed caller b' data_len offset =>
    rw [Pc.owns_afterFlush]
    by_cases hb : b' = b
    · simp [submitted, Pc.submission, Pc.owns, Pc.flushingAfter, flushBit, hb]
    · simp [submitted, Pc.submission, Pc.owns, Pc.flushingAfter, flushBit, hb]
  case state_reset caller b' =>
    have hne : b' ≠ b := hreset
    have howns : (Pc.resetState caller b').owns b = 0 := by
      cases caller with
      | put call => exact if_neg hne
      | flush caller => exact if_neg hne
      | check_cque cqe rest => rfl
    rw [howns]
    simp [submitted, Pc.submission, Pc.owns, Pc.flushingAfter, flushBit, hne]
  case rotated_before | rotate_exhausted | rotate_stored =>
    rw [Pc.owns_afterRotate]
    rfl
  case address_reset caller b' =>
    rw [Pc.owns_afterReset]
    rfl
  case cque_takes cqe rest =>
    rw [Pc.owns_cqueEntry]
    rfl
  all_goals rfl

/-- Each submission of `b` queues one write of `b` or is refused. -/
theorem next_outcome (b : Fin L) (hretry : pc.retries = false) (h : next options ok mem pc = some (pc', mem')) :
    (pushes mem mem').countP (Sqe.carries b) + (pc.refused mem.io).count b =
      submitted b pc.submission.toList := by
  obtain ⟨hsub, hpushes⟩ | ⟨caller, b', data_len, offset, rfl, hoff⟩ := next_pushed hretry h
  · have hrefused : pc.refused mem.io = [] := by
      cases pc
      case submitPush => cases hsub
      all_goals rfl
    rw [hsub, hpushes, hrefused]
    rfl
  · obtain ⟨hfull, hpushes⟩ | ⟨hroom, e, hpushes, _, hcarries⟩ := hoff
    · simp [hpushes, Pc.refused, hfull, Pc.submission, submitted, List.count_cons]
    · simp [hpushes, Pc.refused, Nat.not_le.mpr hroom, Pc.submission, submitted, List.countP_cons, hcarries]

/-- A thread stops deciding on `b` only by turning its flush bit on or, as the sealer, by leaving the
flush to a writer it has seen. -/
theorem Advances.role_kept {r : Role} (h : Advances options mem pc pc') (hmanual : pc.manual = false)
    (hrole : pc.role = some (b, r)) :
    (∃ r', pc'.role = some (b, r')) ∨ (∃ call, pc = .putSetFlush call ∧ call.current = b) ∨
      state_writers (mem.ring b).state ≠ 0 := by
  cases h
  case put_occupied call hwriters =>
    obtain ⟨rfl, rfl⟩ := Prod.mk.inj (Option.some.inj hrole)
    exact .inr (.inr hwriters)
  case put_drained call _ =>
    obtain ⟨rfl, rfl⟩ := Prod.mk.inj (Option.some.inj hrole)
    exact .inl ⟨_, rfl⟩
  case flush_lost call _ =>
    obtain ⟨rfl, rfl⟩ := Prod.mk.inj (Option.some.inj hrole)
    exact .inr (.inl ⟨call, rfl, rfl⟩)
  case flush_won call _ =>
    obtain ⟨rfl, rfl⟩ := Prod.mk.inj (Option.some.inj hrole)
    exact .inr (.inl ⟨call, rfl, rfl⟩)
  case rotated_before caller _ _ _ => exact .inl ⟨r, by rw [Pc.role_afterRotate]; exact hrole⟩
  case rotate_exhausted caller _ _ => exact .inl ⟨r, by rw [Pc.role_afterRotate]; exact hrole⟩
  case rotate_stored caller _ _ => exact .inl ⟨r, by rw [Pc.role_afterRotate]; exact hrole⟩
  case flush_submits caller b' _ =>
    cases caller
    case flush_current => cases hmanual
    all_goals cases hrole
  case flush_resets caller b' _ =>
    cases caller
    case flush_current => cases hmanual
    all_goals cases hrole
  all_goals first
    | exact .inl ⟨r, hrole⟩
    | cases hrole

end Steps

namespace Threads

variable {T : Type} [Fintype T]

/-- The word of `b` is not reset. -/
def unreset (b : Fin L) (s : Threads T L) : Action T → Bool
  | .run t _ =>
    match s.pc t with
    | .resetState _ b' => b' != b
    | _ => true
  | _ => true

/-- The state of one filling of `b`: `owner` counts the flush bit as held by one thread or spent on one
submission, `pending` says that a sealed buffer with the bit off is being decided on or has writers. -/
structure Claimed (s : Threads T L) (b : Fin L) : Prop where
  wellFormed : ∀ t, (s.pc t).WellFormed
  fits : ∀ t, (s.pc t).Fits
  manual : ∀ t, (s.pc t).manual = false
  balanced : Balanced s.mem s.pc b
  orderly : Orderly s.mem s.pc b
  laid : Laid s.mem s.pc b
  owner : (∑ t, (s.pc t).owns b) + submitted b s.submissions = flushBit s.mem b
  pending : state_sealed (s.mem.ring b).state = true →
    state_flush_in_progress (s.mem.ring b).state = false →
    (∃ t r, (s.pc t).role = some (b, r)) ∨ state_writers (s.mem.ring b).state ≠ 0

/-- The history of the submissions; what `check_cque` queues again is not one of them. -/
def outcomes (log : Outcomes L) (s : Threads T L) (a : Action T) (s' : Threads T L) : Outcomes L :=
  match a with
  | .run t _ =>
    if (s.pc t).retries then log
    else
      { queued := log.queued ++ (pushes s.mem s'.mem).map fun e => (e, s.mem)
        refused := log.refused ++ (s.pc t).refused s.mem.io }
  | _ => log

/-- The history accounts for every submission of `b`, and each entry was queued when `b` was drained. -/
structure Accounted (s : Threads T L) (log : Outcomes L) (b : Fin L) : Prop where
  claimed : s.Claimed b
  count : log.queued.countP (·.1.carries b) + log.refused.count b = submitted b s.submissions
  drained : ∀ q ∈ log.queued, q.1.carries b = true → Drained (q.2.ring b)

section Claimed
variable {options : BufferRingOptions} {s s' : Threads T L} {a : Action T} {b : Fin L}

/-- The flush bit is on while a thread owns it. -/
theorem Claimed.flush_owned (hs : s.Claimed b) {t : T} (howns : 0 < (s.pc t).owns b) :
    state_flush_in_progress (s.mem.ring b).state = true := by
  have howner := hs.owner
  have hshare := share_le_sum (Pc.owns b) s.pc t
  cases hflush : state_flush_in_progress (s.mem.ring b).state with
  | true => rfl
  | false =>
    have hzero : flushBit s.mem b = 0 := by rw [flushBit, hflush]; rfl
    omega

/-- Within a filling only `put` flushes, and it has won the bit before. -/
theorem Claimed.flush_set (hs : s.Claimed b) {t : T} {caller : FlushCaller L}
    (hpc : s.pc t = .flushSet caller b) : state_flush_in_progress (s.mem.ring b).state = true := by
  refine hs.flush_owned (t := t) ?_
  have hmanual := hs.manual t
  rw [hpc] at hmanual ⊢
  cases caller with
  | put call => simp [Pc.owns]
  | flush_current => cases hmanual
  | client => cases hmanual

omit [Fintype T] in
/-- The step does not reset the buffer. -/
theorem unreset_run {t : T} {ok : Bool} (h : unreset b s (.run t ok) = true) : ¬ (s.pc t).Resets b := by
  intro hz
  generalize hpc : s.pc t = p at hz
  cases p
  case resetState caller b' =>
    obtain rfl : b' = b := hz
    simp [unreset, hpc] at h
  all_goals cases hz

/-- Within a filling every step respects the parts the others have. -/
theorem Claimed.respects (hs : s.Claimed b) {t : T} (hreset : ¬ (s.pc t).Resets b) :
    Respects s.mem s.pc b t where
  reset hz := absurd hz hreset
  seize hpc := by
    have hmanual := hs.manual t
    rw [hpc] at hmanual
    cases hmanual
  flush caller hpc _ := hs.flush_set hpc

variable [DecidableEq T]

omit [Fintype T] [DecidableEq T] in
/-- A step at the locked section of `submit` is recorded as a submission. -/
theorem record_submissions (s : Threads T L) (pc pc' : Pc L) :
    (s.record pc pc').submissions = s.submissions ++ pc.submission.toList := by
  cases pc
  case putClaim call padded => cases pc' <;> simp [record, Pc.submission]
  case currentClaim b len => cases pc' <;> simp [record, Pc.submission]
  all_goals simp [record, Pc.submission]

omit [Fintype T] in
/-- A thread that has not just been the stepping one keeps its role, and so does the stepping one unless
it turns the flush bit on or leaves the flush to a writer. -/
theorem role_holder_kept {t t₀ : T} {r : Role} {pc : Pc L}
    (hadvances : Advances options s.mem (s.pc t) pc) (hmanual : (s.pc t).manual = false)
    (hput : ∀ call, s.pc t = .putSetFlush call → call.current ≠ b)
    (hrole : (s.pc t₀).role = some (b, r)) :
    (∃ t' r, (Function.update s.pc t pc t').role = some (b, r)) ∨
      state_writers (s.mem.ring b).state ≠ 0 := by
  by_cases ht : t₀ = t
  · subst t₀
    obtain ⟨r', hkeep⟩ | ⟨call, hpc, hb⟩ | hwriters := hadvances.role_kept hmanual hrole
    · exact .inl ⟨t, r', by rw [Function.update_self]; exact hkeep⟩
    · exact absurd hb (hput call hpc)
    · exact .inr hwriters
  · exact .inl ⟨t₀, r, by rw [Function.update_of_ne ht]; exact hrole⟩

/-- A sealed buffer with writers keeps a writer, or its last writer takes up the flush. -/
theorem Claimed.writers_kept (hs : s.Claimed b) {t : T} {ok : Bool} {pc : Pc L} {mem : BufferRing L}
    (hreset : ¬ (s.pc t).Resets b) (hsealed : state_sealed (s.mem.ring b).state = true)
    (hwriters : state_writers (s.mem.ring b).state ≠ 0)
    (h : next options ok s.mem (s.pc t) = some (pc, mem)) :
    (∃ t' r, (Function.update s.pc t pc t').role = some (b, r)) ∨
      state_writers (mem.ring b).state ≠ 0 := by
  by_cases hr : (s.pc t).Releases b
  · have hword := next_released b h hr
    have hcount := state_writers_sub_writer _ (hs.balanced.counted (Pc.holds_of_releases hr))
    rw [← hword] at hcount
    by_cases hone : state_writers (s.mem.ring b).state = 1
    · left
      refine ⟨t, .last, ?_⟩
      rw [Function.update_self]
      have hadvances := next_advances h
      have hfits := hs.fits t
      generalize s.pc t = p at hr hadvances hfits
      cases hadvances
      case last_writer call _ _ =>
        obtain rfl : call.current = b := hr
        obtain ⟨offset, hresult⟩ : ∃ offset, call.reserve_result = .ok offset := hfits call rfl
        simp [Pc.role, PutCall.role, hresult]
      case not_last call hnot =>
        obtain rfl : call.current = b := hr
        exact absurd ⟨hone, hsealed⟩ hnot
      all_goals cases hr
    · right
      intro hzero
      rw [hzero] at hcount
      exact hone (BitVec.eq_of_toNat_eq hcount.symm)
  · right
    rw [(next_counts b h (Pc.not_grants (hs.wellFormed t) hsealed) hr hreset).1]
    exact hwriters

/-- A sealed buffer whose bit is off keeps somebody who will turn it on. -/
theorem Claimed.pending_run (hs : s.Claimed b) {t : T} {ok : Bool} {pc : Pc L} {mem : BufferRing L}
    (hreset : ¬ (s.pc t).Resets b)
    (h : next options ok s.mem (s.pc t) = some (pc, mem))
    (hsealed : state_sealed (mem.ring b).state = true)
    (hclear : state_flush_in_progress (mem.ring b).state = false) :
    (∃ t' r, (Function.update s.pc t pc t').role = some (b, r)) ∨
      state_writers (mem.ring b).state ≠ 0 := by
  have hflush := next_flushing b h (hs.wellFormed t)
  rw [hclear] at hflush
  have hput (call : PutCall L) (hpc : s.pc t = .putSetFlush call) : call.current ≠ b := by
    rintro rfl
    rw [hpc] at hflush
    simp [Pc.flushingAfter] at hflush
  have hbefore : state_flush_in_progress (s.mem.ring b).state = false := by
    generalize s.pc t = p at hflush hreset
    cases p
    case resetState caller b' =>
      have hne : b' ≠ b := hreset
      simpa [Pc.flushingAfter, hne] using hflush.symm
    case putSetFlush call => simpa using (Bool.or_eq_false_iff.mp hflush.symm).1
    case flushSet caller b' => simpa using (Bool.or_eq_false_iff.mp hflush.symm).1
    all_goals exact hflush.symm
  cases hopen : state_sealed (s.mem.ring b).state with
  | true =>
    obtain ⟨t₀, r, hrole⟩ | hwriters := hs.pending hopen hbefore
    · obtain hkeep | hwriters := role_holder_kept (next_advances h) (hs.manual t) hput hrole
      · exact .inl hkeep
      · exact hs.writers_kept hreset hopen hwriters h
    · exact hs.writers_kept hreset hopen hwriters h
  | false =>
    obtain ⟨call, _, rfl, rfl⟩ := next_seals (hs.wellFormed t) (hs.manual t) hopen hsealed h
    exact .inl ⟨t, .sealing, by rw [Function.update_self]; rfl⟩

/-- A call that a client enters keeps the state of the filling. -/
theorem Claimed.call (hs : s.Claimed b) {t : T} {c : Call} {pc : Pc L}
    (hmanual : ∀ t', (Function.update s.pc t pc t').manual = false)
    (h : Entered (s.held t) (s.msg t) c (s.pc t) pc) :
    Claimed { s.note t c with pc := Function.update s.pc t pc } b where
  wellFormed := by
    rw [Function.forall_update_iff s.pc (p := fun _ pc => pc.WellFormed)]
    exact ⟨h.wellFormed, fun t' _ => hs.wellFormed t'⟩
  fits := by
    rw [Function.forall_update_iff s.pc (p := fun _ pc => pc.Fits)]
    exact ⟨h.fits, fun t' _ => hs.fits t'⟩
  manual := hmanual
  balanced := by
    rw [note_mem]
    exact hs.balanced.call h
  orderly := by
    rw [note_mem]
    exact hs.orderly.call h.role
  laid := by
    rw [note_mem]
    exact hs.laid.call h
  owner := by
    rw [note_mem, note_submissions]
    have hown := h.owns b (by simpa using hmanual t)
    have hsum := sum_update_add (Pc.owns b) s.pc t pc
    have hbefore := hs.owner
    show (∑ t', (Function.update s.pc t pc t').owns b) + _ = _
    omega
  pending := by
    rw [note_mem]
    intro hsealed hclear
    refine (hs.pending hsealed hclear).imp_left ?_
    rintro ⟨t₀, r, hrole⟩
    refine ⟨t₀, r, ?_⟩
    have hne : t₀ ≠ t := by
      rintro rfl
      rw [h.role_before] at hrole
      cases hrole
    show (Function.update s.pc t pc t₀).role = _
    rw [Function.update_of_ne hne]
    exact hrole

/-- A step keeps the state of the filling: ownership is won with the bit and spent on the submission. -/
theorem Claimed.run (hs : s.Claimed b) {t : T} {ok : Bool} {pc : Pc L} {mem : BufferRing L}
    (hmanual : ∀ t', (Function.update s.pc t pc t').manual = false)
    (hroomy : roomy s (.run t ok) = true) (hreset : ¬ (s.pc t).Resets b)
    (h : next options ok s.mem (s.pc t) = some (pc, mem)) :
    Claimed { s.record (s.pc t) pc with mem, pc := Function.update s.pc t pc } b where
  wellFormed := by
    rw [Function.forall_update_iff s.pc (p := fun _ pc => pc.WellFormed)]
    exact ⟨next_wellFormed h (hs.wellFormed t), fun t' _ => hs.wellFormed t'⟩
  fits := by
    rw [Function.forall_update_iff s.pc (p := fun _ pc => pc.Fits)]
    exact ⟨(next_advances h).fits (hs.fits t), fun t' _ => hs.fits t'⟩
  manual := hmanual
  balanced := hs.balanced.run (hs.wellFormed t) (roomy_run hroomy) (fun hz => absurd hz hreset) h
  orderly := hs.orderly.run hs.balanced (hs.wellFormed t) (hs.fits t) (hs.respects hreset) h
  laid := hs.laid.run hs.balanced (hs.wellFormed t) (roomy_run hroomy) h
  owner := by
    have hmove := next_owns (hs.wellFormed t) (hs.manual t) hreset (fun _ => hs.flush_set) h
    have hsum := sum_update_add (Pc.owns b) s.pc t pc
    have hbefore := hs.owner
    rw [record_submissions]
    simp only [submitted, List.countP_append] at hmove hbefore ⊢
    omega
  pending := hs.pending_run hreset h

/-- Every step within the filling keeps its state. -/
theorem Claimed.step (hs : s.Claimed b) (ha : automatic a = true) (hroomy : roomy s a = true)
    (hunreset : unreset b s a = true) (h : Threads.step options s a = some s') : s'.Claimed b := by
  have hmanual := manual_step hs.manual ha h
  obtain ⟨t, c, pc, rfl, hentry, rfl⟩ | ⟨t, ok, pc, mem, rfl, hnext, rfl⟩ |
    ⟨i, result, mem, rfl, hmem, rfl⟩ := step_cases h
  · exact hs.call hmanual (entry_entered hentry)
  · exact hs.run hmanual hroomy (unreset_run hunreset) hnext
  · obtain ⟨e, _, _, rfl⟩ := BufferRing.complete_cases hmem
    exact ⟨hs.wellFormed, hs.fits, hs.manual, hs.balanced.complete hmem, hs.orderly.complete hmem,
      hs.laid.complete hmem, hs.owner, hs.pending⟩

omit [DecidableEq T] in
theorem claimed_init {mem : BufferRing L} (held : T → Option (Fin L)) (msg : T → Option Slice)
    (hword : (mem.ring b).state = 0) (hgranted : (mem.ring b).filling.granted = [])
    (hcopied : (mem.ring b).filling.copied = []) :
    Claimed { (init mem : Threads T L) with held, msg } b where
  wellFormed _ := trivial
  fits _ := Pc.fits_of_putCall_none rfl
  manual _ := rfl
  balanced := .of_empty hword hgranted hcopied
  orderly := .of_zero hword
  laid := .of_empty hword hgranted hcopied
  owner := by
    simp [init, Pc.owns, submitted, flushBit, hword]
  pending hsealed _ := by
    simp [init, hword] at hsealed

omit [DecidableEq T] in
/-- A buffer whose flush a thread owns is drained. -/
theorem Claimed.drained (hs : s.Claimed b) {t : T} (howns : 0 < (s.pc t).owns b) : Drained (s.mem.ring b) :=
  drained_of_flushing hs.orderly hs.balanced hs.laid (hs.flush_owned howns)

/-- A step adds to the history what has become of the submission it makes. -/
theorem Accounted.run {log : Outcomes L} (hs : s.Accounted log b) {t : T} {ok : Bool} {pc : Pc L}
    {mem : BufferRing L} (hretry : (s.pc t).retries = false)
    (hclaimed : Claimed { s.record (s.pc t) pc with mem, pc := Function.update s.pc t pc } b)
    (h : next options ok s.mem (s.pc t) = some (pc, mem)) :
    Accounted { s.record (s.pc t) pc with mem, pc := Function.update s.pc t pc }
      { queued := log.queued ++ (pushes s.mem mem).map fun e => (e, s.mem)
        refused := log.refused ++ (s.pc t).refused s.mem.io } b where
  claimed := hclaimed
  count := by
    have hnew := next_outcome b hretry h
    have hbefore := hs.count
    have hqueued : ((pushes s.mem mem).map fun e => (e, s.mem)).countP (·.1.carries b) =
        (pushes s.mem mem).countP (Sqe.carries b) := List.countP_map
    rw [record_submissions, List.countP_append, List.count_append, hqueued]
    simp only [submitted, List.countP_append] at hnew hbefore ⊢
    omega
  drained q hq hcarries := by
    obtain hold | hnew := List.mem_append.mp hq
    · exact hs.drained q hold hcarries
    · obtain ⟨e, he, rfl⟩ := List.mem_map.mp hnew
      obtain ⟨_, hnone⟩ | ⟨caller, b', data_len, offset, hpc, hoff⟩ := next_pushed hretry h
      · rw [hnone] at he
        cases he
      · obtain ⟨_, hnone⟩ | ⟨_, e', hone, _, hbuffer⟩ := hoff
        · rw [hnone] at he
          cases he
        · rw [hone, List.mem_singleton] at he
          subst e'
          rw [hbuffer b, decide_eq_true_eq] at hcarries
          subst b'
          exact hs.claimed.drained (t := t) (by simp [hpc, Pc.owns])

/-- Every step within the filling keeps the history in step with the submissions. -/
theorem Accounted.step {log : Outcomes L} (hs : s.Accounted log b) (ha : automatic a = true)
    (hroomy : roomy s a = true) (hunreset : unreset b s a = true) (h : Threads.step options s a = some s') :
    s'.Accounted (outcomes log s a s') b := by
  have hclaimed := hs.claimed.step ha hroomy hunreset h
  obtain ⟨t, c, pc, rfl, hentry, rfl⟩ | ⟨t, ok, pc, mem, rfl, hnext, rfl⟩ |
    ⟨i, result, mem, rfl, hmem, rfl⟩ := step_cases h
  · refine ⟨hclaimed, ?_, hs.drained⟩
    rw [note_submissions]
    exact hs.count
  · cases hretry : (s.pc t).retries with
    | true =>
      have hnone : (s.pc t).submission = none := by
        cases hpc : s.pc t
        case submitPush =>
          rw [hpc] at hretry
          cases hretry
        all_goals rfl
      simp only [outcomes, hretry, if_true]
      refine ⟨hclaimed, ?_, hs.drained⟩
      rw [record_submissions, hnone, Option.toList_none, List.append_nil]
      exact hs.count
    | false =>
      simp only [outcomes, hretry, Bool.false_eq_true, if_false]
      exact hs.run hretry hclaimed hnext
  · exact ⟨hclaimed, hs.count, hs.drained⟩

end Claimed

/-- Two threads with a payload each, one filling the only buffer and one finding it full. -/
def twoPayloads : Threads (Fin 2) 1 :=
  { (init (BufferRing.with_options storeOptions) : Threads (Fin 2) 1) with
    held := fun _ => some 0
    msg := fun t => some (if t = 0 then zeros ONE_MEGABYTE_BLOCK else zeros 1) }

end Threads

end FlushRing
