import FlushRing.Threads.Owner

/-! The length of a filling: the sealer measures the buffer to claim its slot, the submitter measures it
again to submit it, and between the two the offset of a sealed buffer stays where the seal found it. -/

open Transition

namespace FlushRing

variable {L : Nat}

namespace Pc

/-- The buffer whose size a thread reads next, or has read for a claim or a submission still to make. -/
def measuring : Pc L → Option (Fin L)
  | .putSize call => some call.current
  | .putClaim call _ => some call.current
  | .submitData _ b => some b
  | .submitOffset _ b _ => some b
  | .submitPush _ b _ _ => some b
  | _ => none

/-- The length a thread has read for the claim or the submission it is about to make. -/
def measured : Pc L → Option (Fin L × Usize)
  | .putClaim call padded => some (call.current, padded)
  | .submitOffset _ b data_len => some (b, data_len)
  | .submitPush _ b data_len _ => some (b, data_len)
  | _ => none

/-- A length in hand is that of the buffer being measured. -/
theorem measuring_of_measured {pc : Pc L} {b : Fin L} {len : Usize} (h : pc.measured = some (b, len)) :
    pc.measuring = some b := by
  unfold measured at h
  split at h
  case h_4 => cases h
  all_goals
    obtain ⟨rfl, rfl⟩ := Prod.mk.inj (Option.some.inj h)
    rfl

/-- A submission carries the length read before. -/
theorem measured_of_submission {pc : Pc L} {sub : Submission L} (h : pc.submission = some sub) :
    pc.measured = some (sub.buffer, sub.data_len) := by
  unfold submission at h
  split at h
  next caller buffer data_len offset =>
    obtain rfl := Option.some.inj h
    rfl
  next => cases h

/-- A thread that measures a buffer has sealed it in `put` or owns its flush. -/
theorem measuring_cases {pc : Pc L} {b : Fin L} (h : pc.measuring = some b) :
    pc.role = some (b, .sealing) ∨ 0 < pc.owns b := by
  unfold measuring at h
  split at h
  case h_6 => cases h
  case h_1 =>
    obtain rfl := Option.some.inj h
    exact .inl rfl
  case h_2 =>
    obtain rfl := Option.some.inj h
    exact .inl rfl
  all_goals
    obtain rfl := Option.some.inj h
    exact .inr (by simp [owns])

theorem measured_of_lands {pc : Pc L} (h : pc.lands = true) : pc.measured = none := by
  cases pc
  case putClaim call padded => cases h
  case submitOffset caller b data_len => cases h
  case submitPush caller b data_len offset => cases h
  all_goals rfl

theorem measured_putEntry (call : PutCall L) : (putEntry call).measured = none := by
  unfold putEntry
  split <;> rfl

end Pc

theorem Entered.measured {held : Option (Fin L)} {msg : Option Slice} {c : Call} {pc pc' : Pc L}
    (h : Entered held msg c pc pc') : pc'.measured = none := by
  cases h
  case put b payload result => exact Pc.measured_putEntry _
  all_goals rfl

/-- The length a thread has after a step it had before, or has just read off the buffer. -/
theorem Advances.measured {options : BufferRingOptions} {mem : BufferRing L} {pc pc' : Pc L} {b : Fin L}
    {len : Usize} (h : Advances options mem pc pc') (hlen : pc'.measured = some (b, len)) :
    pc.measuring = some b ∧ (pc.measured = some (b, len) ∨ len = (mem.ring b).data_len) := by
  cases h
  case put_sized call =>
    obtain ⟨rfl, rfl⟩ := Prod.mk.inj (Option.some.inj hlen)
    exact ⟨rfl, .inr rfl⟩
  case submit_data caller b' =>
    obtain ⟨rfl, rfl⟩ := Prod.mk.inj (Option.some.inj hlen)
    exact ⟨rfl, .inr rfl⟩
  case submit_offset caller b' data_len =>
    obtain ⟨rfl, rfl⟩ := Prod.mk.inj (Option.some.inj hlen)
    exact ⟨rfl, .inl rfl⟩
  case flush_won | rotated_before | rotate_exhausted | rotate_stored | submit_pushed | address_reset |
      cque_takes =>
    rw [Pc.measured_of_lands (by simp)] at hlen
    cases hlen
  all_goals cases hlen

namespace Threads

variable {T : Type} [Fintype T]

/-- Every length read of `b` for a claim or a submission, and every length it was submitted with, is the
length it has now. -/
structure Measured (mem : BufferRing L) (pc : T → Pc L) (submissions : List (Submission L)) (b : Fin L) :
    Prop where
  measured : ∀ t len, (pc t).measured = some (b, len) → len = (mem.ring b).data_len
  submitted : ∀ sub ∈ submissions, sub.buffer = b → sub.data_len = (mem.ring b).data_len

section Steps
variable {options : BufferRingOptions} {s s' : Threads T L} {a : Action T} {b : Fin L}
variable {t : T} {ok : Bool} {pc : Pc L} {mem : BufferRing L}

/-- A buffer is measured only once it is sealed. -/
theorem Claimed.sealed_of_measuring (hs : s.Claimed b) (h : (s.pc t).measuring = some b) :
    state_sealed (s.mem.ring b).state = true := by
  obtain hrole | howns := Pc.measuring_cases h
  · exact hs.orderly.sealed t _ hrole
  · exact (hs.orderly.flushing (hs.flush_owned howns)).1

/-- A submitted buffer has spent its flush bit on the submission, so it is sealed. -/
theorem Claimed.sealed_of_submitted (hs : s.Claimed b) {sub : Submission L} (hsub : sub ∈ s.submissions)
    (hb : sub.buffer = b) : state_sealed (s.mem.ring b).state = true := by
  have hpos : 0 < submitted b s.submissions :=
    List.countP_pos_iff.mpr ⟨sub, hsub, by simpa using hb⟩
  have howner := hs.owner
  cases hflush : state_flush_in_progress (s.mem.ring b).state with
  | true => exact (hs.orderly.flushing hflush).1
  | false =>
    have hzero : flushBit s.mem b = 0 := by rw [flushBit, hflush]; rfl
    omega

/-- The length of a sealed buffer stays until its reset. -/
theorem Claimed.data_len_kept (hs : s.Claimed b) (hreset : ¬ (s.pc t).Resets b)
    (hsealed : state_sealed (s.mem.ring b).state = true)
    (h : next options ok s.mem (s.pc t) = some (pc, mem)) :
    (mem.ring b).data_len = (s.mem.ring b).data_len :=
  congrArg (next_multiple_of · FOUR_KB_BLOCK)
    (next_keeps_offset hs.balanced (hs.wellFormed t) hreset hsealed h)

/-- `b` has been sealed with this offset in its word. -/
def SealedAt (s : Threads T L) (b : Fin L) (offset : Usize) : Prop :=
  state_sealed (s.mem.ring b).state = true ∧ state_offset (s.mem.ring b).state = offset

variable [DecidableEq T]

/-- A sealed buffer keeps its offset. -/
theorem SealedAt.step {offset : Usize} (hat : s.SealedAt b offset) (hs : s.Claimed b)
    (hunreset : unreset b s a = true) (h : Threads.step options s a = some s') :
    s'.SealedAt b offset := by
  refine step_keeps_ring (P := fun mem _ => state_sealed (mem.ring b).state = true ∧
    state_offset (mem.ring b).state = offset) h ?_ ?_ ?_
  · intro t c pc _ _
    exact hat
  · rintro t ok pc mem rfl hnext
    have hreset := unreset_run hunreset
    exact ⟨next_stays_sealed (hs.wellFormed t) hreset hat.1 hnext,
      (next_keeps_offset hs.balanced (hs.wellFormed t) hreset hat.1 hnext).trans hat.2⟩
  · intro i result mem _ hmem
    obtain ⟨e, _, _, rfl⟩ := BufferRing.complete_cases hmem
    exact hat

omit [Fintype T] in
/-- A call that a client enters reads no length. -/
theorem Measured.call {mem : BufferRing L} {pc : T → Pc L} {submissions : List (Submission L)}
    {pc' : Pc L} {held : Option (Fin L)} {msg : Option Slice} {c : Call}
    (hm : Measured mem pc submissions b) (h : Entered held msg c (pc t) pc') :
    Measured mem (Function.update pc t pc') submissions b where
  measured := by
    rw [Function.forall_update_iff pc (p := fun _ pc => ∀ len, pc.measured = some (b, len) →
      len = (mem.ring b).data_len)]
    refine ⟨fun len hlen => ?_, fun t' _ => hm.measured t'⟩
    rw [h.measured] at hlen
    cases hlen
  submitted := hm.submitted

/-- A step reads off the length of the sealed buffer and submits it. -/
theorem Measured.run (hm : Measured s.mem s.pc s.submissions b) (hs : s.Claimed b)
    (hreset : ¬ (s.pc t).Resets b) (h : next options ok s.mem (s.pc t) = some (pc, mem)) :
    Measured mem (Function.update s.pc t pc) (s.record (s.pc t) pc).submissions b where
  measured := by
    rw [Function.forall_update_iff s.pc (p := fun _ pc => ∀ len, pc.measured = some (b, len) →
      len = (mem.ring b).data_len)]
    refine ⟨fun len hlen => ?_, fun t' _ len hlen => ?_⟩
    · obtain ⟨hmeasuring, hbefore⟩ := (next_advances h).measured hlen
      rw [hs.data_len_kept hreset (hs.sealed_of_measuring hmeasuring) h]
      exact hbefore.elim (hm.measured t len) id
    · have hsealed := hs.sealed_of_measuring (Pc.measuring_of_measured hlen)
      rw [hs.data_len_kept hreset hsealed h]
      exact hm.measured t' len hlen
  submitted sub hsub hb := by
    rw [record_submissions, List.mem_append, Option.mem_toList] at hsub
    obtain hold | hnew := hsub
    · rw [hs.data_len_kept hreset (hs.sealed_of_submitted hold hb) h]
      exact hm.submitted sub hold hb
    · have hlen := Pc.measured_of_submission hnew
      rw [hb] at hlen
      have hsealed := hs.sealed_of_measuring (Pc.measuring_of_measured hlen)
      rw [hs.data_len_kept hreset hsealed h]
      exact hm.measured t _ hlen

/-- Every step within the filling keeps the lengths read equal to the buffer's. -/
theorem Measured.step (hm : Measured s.mem s.pc s.submissions b) (hs : s.Claimed b)
    (hunreset : unreset b s a = true) (h : Threads.step options s a = some s') :
    Measured s'.mem s'.pc s'.submissions b := by
  obtain ⟨t, c, pc, rfl, hentry, rfl⟩ | ⟨t, ok, pc, mem, rfl, hnext, rfl⟩ |
    ⟨i, result, mem, rfl, hmem, rfl⟩ := step_cases h
  · rw [note_mem, note_submissions]
    exact hm.call (entry_entered hentry)
  · exact hm.run hs (unreset_run hunreset) hnext
  · obtain ⟨e, _, _, rfl⟩ := BufferRing.complete_cases hmem
    exact ⟨hm.measured, hm.submitted⟩

/-- From any ring in which the word of `b` is 0, threads that reserve and put, in any order of their
steps in which `b` is not reset and the writer count has room: once `b` is sealed its offset stays, every
sealer in `put` advances `next_address_range` by the length of the sealed buffer, and every submission of
`b` has that length. -/
theorem claimed_slot_fits {mem : BufferRing L} {held : T → Option (Fin L)} {msg : T → Option Slice}
    {s₁ s₂ : Threads T L} (hword : (mem.ring b).state = 0)
    (hgranted : (mem.ring b).filling.granted = []) (hcopied : (mem.ring b).filling.copied = [])
    (h₁ : Reaches (Threads.step options)
      (fun s a => automatic a = true ∧ roomy s a = true ∧ unreset b s a = true)
      { (init mem : Threads T L) with held, msg } s₁)
    (hsealed : state_sealed (s₁.mem.ring b).state = true)
    (h₂ : Reaches (Threads.step options)
      (fun s a => automatic a = true ∧ roomy s a = true ∧ unreset b s a = true) s₁ s₂) :
    state_offset (s₂.mem.ring b).state = state_offset (s₁.mem.ring b).state ∧
    (∀ t ok call padded s₃, s₂.pc t = .putClaim call padded → call.current = b →
      Threads.step options s₂ (.run t ok) = some s₃ →
      s₃.mem.next_address_range = s₂.mem.next_address_range + (s₁.mem.ring b).data_len) ∧
    ∀ sub ∈ s₂.submissions, sub.buffer = b → sub.data_len = (s₁.mem.ring b).data_len := by
  have hinit : Measured mem (fun _ : T => Pc.idle) [] b := {
    measured := fun _ _ h => by cases h
    submitted := fun _ h => by cases h }
  obtain ⟨hclaimed, hmeasured⟩ : s₁.Claimed b ∧ Measured s₁.mem s₁.pc s₁.submissions b :=
    h₁.invariant (P := fun s => s.Claimed b ∧ Measured s.mem s.pc s.submissions b)
      (fun _ _ _ hs hok h => ⟨hs.1.step hok.1 hok.2.1 hok.2.2 h, hs.2.step hs.1 hok.2.2 h⟩)
      ⟨claimed_init held msg hword hgranted hcopied, hinit⟩
  obtain ⟨_, hmeasured, _, hoffset⟩ := h₂.invariant
    (P := fun s => s.Claimed b ∧ Measured s.mem s.pc s.submissions b ∧ s.SealedAt b
      (state_offset (s₁.mem.ring b).state))
    (fun _ _ _ hs hok h => ⟨hs.1.step hok.1 hok.2.1 hok.2.2 h, hs.2.1.step hs.1 hok.2.2 h,
      hs.2.2.step hs.1 hok.2.2 h⟩)
    ⟨hclaimed, hmeasured, hsealed, rfl⟩
  have hlen : (s₂.mem.ring b).data_len = (s₁.mem.ring b).data_len :=
    congrArg (next_multiple_of · FOUR_KB_BLOCK) hoffset
  refine ⟨hoffset, fun t ok call padded s₃ hpc hb hstep => ?_, fun sub hsub hb => ?_⟩
  · have hpadded : padded = (s₂.mem.ring b).data_len := by
      refine hmeasured.measured t padded ?_
      rw [hpc, ← hb]
      rfl
    simp only [Threads.step, hpc, next, Option.some.injEq] at hstep
    rw [← hstep, ← hlen, ← hpadded]
    rfl
  · rw [← hlen]
    exact hmeasured.submitted sub hsub hb

end Steps

/-- Thread 1 finds the buffer full and seals it while thread 0 still holds its reservation. -/
def sealFull : List (Action (Fin 2)) :=
  List.flatten [[.call 0 .reserve_space], steps 0 2, [.call 1 .reserve_space], steps 1 1, [.call 1 .put],
    steps 1 1]

/-- Thread 1 claims the slot and leaves the flush to thread 0, which submits the buffer. -/
def claimAndSubmit : List (Action (Fin 2)) :=
  List.flatten [steps 1 9, [.call 0 .put], steps 0 7]

theorem claimed_slot_fits_sealFull :
    ∃ s₁ s₂ : Threads (Fin 2) 1,
      Reaches (Threads.step storeOptions)
        (fun s a => automatic a = true ∧ roomy s a = true ∧ unreset 0 s a = true) twoPayloads s₁ ∧
      state_sealed (s₁.mem.ring 0).state = true ∧
      Reaches (Threads.step storeOptions)
        (fun s a => automatic a = true ∧ roomy s a = true ∧ unreset 0 s a = true) s₁ s₂ ∧
      s₂.submissions ≠ [] ∧
      ∀ sub ∈ s₂.submissions, sub.buffer = 0 → sub.data_len = (s₁.mem.ring 0).data_len := by
  have hrun : (exec (Threads.step storeOptions)
      (fun s a => automatic a = true ∧ roomy s a = true ∧ unreset 0 s a = true) sealFull twoPayloads).any
      (fun s₁ => state_sealed (s₁.mem.ring 0).state && (exec (Threads.step storeOptions)
        (fun s a => automatic a = true ∧ roomy s a = true ∧ unreset 0 s a = true) claimAndSubmit s₁).any
        (fun s₂ => !s₂.submissions.isEmpty)) = true := by decide +kernel
  obtain ⟨s₁, h₁, hcheck⟩ := exists_of_exec hrun
  rw [Bool.and_eq_true] at hcheck
  obtain ⟨s₂, h₂, hsome⟩ := exists_of_exec hcheck.2
  refine ⟨s₁, s₂, h₁, hcheck.1, h₂, by simpa using hsome, ?_⟩
  exact (claimed_slot_fits rfl rfl rfl h₁ hcheck.1 h₂).2.2

section Crowd

/-- As many threads as the writer count has values hold the buffer and an empty payload each, one more
thread a payload of one megabyte. -/
def waiting : Threads (Fin (2 ^ 24 + 1)) 1 :=
  { (init (BufferRing.with_options storeOptions) : Threads (Fin (2 ^ 24 + 1)) 1) with
    held := fun _ => some 0
    msg := fun t => some (if t.val = 2 ^ 24 then zeros ONE_MEGABYTE_BLOCK else zeros 0) }

/-- The first `n` of them have been granted their reservations. -/
def crowd (n : Nat) : Threads (Fin (2 ^ 24 + 1)) 1 :=
  { waiting with
    mem := { waiting.mem with
      ring := fun _ =>
        { (FlushBuffer.new_buffer ONE_MEGABYTE_BLOCK : FlushBuffer 1) with
          state := BitVec.ofNat 64 (n * 2 ^ 8)
          filling := { number := 0, granted := List.replicate n (0, 0), copied := [] } } }
    pc := fun t => if t.val < n then .reserved 0 (zeros 0) (.ok 0) else .idle }

/-- An empty reservation counts a writer and grants the offset 0. -/
theorem reserve_decision_crowd {n : Nat} (hn : n < 2 ^ 24) :
    FlushBuffer.reserve_decision (BitVec.ofNat 64 (n * 2 ^ 8)) 0 =
      .ok (0, BitVec.ofNat 64 ((n + 1) * 2 ^ 8)) := by
  have hword : (BitVec.ofNat 64 (n * 2 ^ 8)).toNat = n * 2 ^ 8 := by
    rw [BitVec.toNat_ofNat]
    omega
  have hzero : (0 : Usize).toNat = 0 := rfl
  have hclear : BitVec.ofNat 64 (n * 2 ^ 8) &&& (SEALED_BIT ||| FLUSH_IN_PROGRESS_BIT) = 0 := by
    rw [flags_clear_iff, ← Bool.not_eq_true, ← Bool.not_eq_true, state_sealed_iff,
      state_flush_in_progress_iff, hword]
    omega
  have hoffset : state_offset (BitVec.ofNat 64 (n * 2 ^ 8)) = 0 := by
    apply BitVec.eq_of_toNat_eq
    rw [state_offset_toNat, hword, hzero]
    omega
  have hnew : reserved_word (BitVec.ofNat 64 (n * 2 ^ 8)) 0 = BitVec.ofNat 64 ((n + 1) * 2 ^ 8) := by
    apply BitVec.eq_of_toNat_eq
    rw [reserved_word_toNat, hword, hzero, BitVec.toNat_ofNat]
    omega
  have hfits : ¬ (0 + 0 : Usize) > ONE_MEGABYTE_BLOCK := by decide
  rw [FlushBuffer.reserve_decision, if_neg (not_not.mpr hclear), hoffset, if_neg hfits, hnew]

/-- The next thread to reserve stands at `pc`. -/
def crowdAnd (t : Fin (2 ^ 24 + 1)) (pc : Pc 1) : Threads (Fin (2 ^ 24 + 1)) 1 :=
  { crowd t with pc := Function.update (crowd t).pc t pc }

@[simp] theorem crowdAnd_pc (t : Fin (2 ^ 24 + 1)) (pc : Pc 1) : (crowdAnd t pc).pc t = pc :=
  Function.update_self ..

theorem crowdAnd_reserved (t : Fin (2 ^ 24 + 1)) :
    Function.update (crowd t).pc t (.reserved 0 (zeros 0) (.ok 0)) = (crowd (t + 1)).pc := by
  funext t'
  by_cases ht : t' = t
  · subst t'
    simp [crowd]
  · have hne : t'.val ≠ t.val := fun h => ht (Fin.ext h)
    have hiff : t'.val < t.val ↔ t'.val < t.val + 1 := by omega
    simp only [Function.update_of_ne ht, crowd, hiff]

theorem crowd_granted (n : Nat) :
    (crowd n).mem.modify 0 (·.grant (BitVec.ofNat 64 ((n + 1) * 2 ^ 8)) 0 0) = (crowd (n + 1)).mem := by
  have hring : ((crowd n).mem.modify 0 (·.grant (BitVec.ofNat 64 ((n + 1) * 2 ^ 8)) 0 0)).ring =
      (crowd (n + 1)).mem.ring := by
    funext b
    obtain rfl : b = 0 := Subsingleton.elim b 0
    rw [BufferRing.modify_ring_self]
    simp [crowd, FlushBuffer.grant, List.replicate_succ']
  exact congrArg (fun ring => { (crowd n).mem with ring }) hring

/-- One more thread reserves. -/
theorem crowd_grows {t : Fin (2 ^ 24 + 1)} (ht : t.val < 2 ^ 24) :
    Reaches (Threads.step storeOptions) (fun s a => automatic a = true ∧ unreset 0 s a = true)
      (crowd t) (crowd (t + 1)) := by
  have hcall : Threads.step storeOptions (crowd t) (.call t .reserve_space) =
      some (crowdAnd t (.reserveLoad 0 (zeros 0))) := by
    have hidle : (crowd t).pc t = .idle := if_neg (Nat.lt_irrefl t.val)
    have hheld : (crowd t).held t = some 0 := rfl
    have hmsg : (crowd t).msg t = some (zeros 0) := congrArg some (if_neg (Nat.ne_of_lt ht))
    have hlen : (zeros 0).len ≤ ONE_MEGABYTE_BLOCK := by decide
    simp only [Threads.step, hidle, entry, hheld, hmsg, if_pos hlen]
    rfl
  have hload : Threads.step storeOptions (crowdAnd t (.reserveLoad 0 (zeros 0))) (.run t true) =
      some (crowdAnd t (.reserveExchange 0 (zeros 0) (BitVec.ofNat 64 (t * 2 ^ 8)) 0
        (BitVec.ofNat 64 ((t + 1) * 2 ^ 8)))) := by
    have hdecision : FlushBuffer.reserve_decision
        ((crowdAnd t (.reserveLoad 0 (zeros 0))).mem.ring 0).state (zeros 0).len = _ :=
      reserve_decision_crowd ht
    simp only [Threads.step, crowdAnd_pc, next, hdecision]
    simp only [crowdAnd, Function.update_idem, record]
    rfl
  have hexchange : Threads.step storeOptions (crowdAnd t (.reserveExchange 0 (zeros 0)
      (BitVec.ofNat 64 (t * 2 ^ 8)) 0 (BitVec.ofNat 64 ((t + 1) * 2 ^ 8)))) (.run t true) =
        some (crowd (t + 1)) := by
    have hloaded (pc : Pc 1) : ((crowdAnd t pc).mem.ring 0).state = BitVec.ofNat 64 (t * 2 ^ 8) := rfl
    have hgranted := crowd_granted t
    have hreserved := crowdAnd_reserved t
    simp only [Threads.step, crowdAnd_pc, next, if_pos (hloaded _)]
    simp only [crowdAnd, Function.update_idem, record]
    rw [hreserved]
    exact congrArg (fun mem => some { crowd (t + 1) with mem }) hgranted
  have hload_ok : unreset 0 (crowdAnd t (.reserveLoad 0 (zeros 0))) (.run t true) = true := by
    simp [unreset]
  refine .tail _ (.tail _ (.tail _ .refl ⟨rfl, rfl⟩ hcall) ⟨rfl, hload_ok⟩ hload) ⟨rfl, ?_⟩ hexchange
  simp [unreset]

/-- All threads of the crowd hold an empty reservation in the end. -/
theorem crowd_gathers {n : Nat} (hn : n ≤ 2 ^ 24) :
    Reaches (Threads.step storeOptions) (fun s a => automatic a = true ∧ unreset 0 s a = true)
      (crowd 0) (crowd n) := by
  induction n with
  | zero => exact .refl
  | succ n ih => exact (ih (by omega)).trans (crowd_grows (t := ⟨n, Nat.lt_succ_of_lt hn⟩) hn)

/-- The thread with the large payload finds no room and seals the buffer. -/
def sealCrowded : List (Action (Fin (2 ^ 24 + 1))) :=
  List.flatten [[.call (Fin.last _) .reserve_space], steps (Fin.last _) 1, [.call (Fin.last _) .put],
    steps (Fin.last _) 1]

/-- It claims a slot for the measured length and, seeing no writer, owns the flush; before it submits,
one of the writers leaves. -/
def leaveAndSubmit : List (Action (Fin (2 ^ 24 + 1))) :=
  List.flatten [steps (Fin.last _) 11, [.call 0 .put], steps 0 2, steps (Fin.last _) 3]

/-- The last reservation the count has no room for is carried into the offset, and the first writer to
leave the sealed buffer borrows it back: a block was claimed for the filling and nothing is submitted. -/
theorem claimed_slot_misfits :
    ∃ s₁ s₂ : Threads (Fin (2 ^ 24 + 1)) 1,
      Reaches (Threads.step storeOptions) (fun s a => automatic a = true ∧ unreset 0 s a = true)
        waiting s₁ ∧
      state_sealed (s₁.mem.ring 0).state = true ∧ state_offset (s₁.mem.ring 0).state = 1 ∧
      Reaches (Threads.step storeOptions) (fun s a => automatic a = true ∧ unreset 0 s a = true)
        s₁ s₂ ∧
      state_offset (s₂.mem.ring 0).state = 0 ∧ s₂.mem.next_address_range = FOUR_KB_BLOCK ∧
      s₂.submissions = [{ buffer := 0, offset := 0, data_len := 0 }] := by
  have hrun : (exec (Threads.step storeOptions)
      (fun s a => automatic a = true ∧ unreset 0 s a = true) sealCrowded (crowd (2 ^ 24))).any
      (fun s₁ => state_sealed (s₁.mem.ring 0).state && state_offset (s₁.mem.ring 0).state == 1 &&
        (exec (Threads.step storeOptions) (fun s a => automatic a = true ∧ unreset 0 s a = true)
          leaveAndSubmit s₁).any (fun s₂ => state_offset (s₂.mem.ring 0).state == 0 &&
            s₂.mem.next_address_range == FOUR_KB_BLOCK &&
            s₂.submissions == [{ buffer := 0, offset := 0, data_len := 0 }])) = true := by
    decide +kernel
  obtain ⟨s₁, h₁, hcheck⟩ := exists_of_exec hrun
  simp only [Bool.and_eq_true, beq_iff_eq] at hcheck
  obtain ⟨⟨hsealed, hone⟩, hrest⟩ := hcheck
  obtain ⟨s₂, h₂, hafter⟩ := exists_of_exec hrest
  simp only [Bool.and_eq_true, beq_iff_eq] at hafter
  obtain ⟨⟨hzero, hclaimed⟩, hsubmitted⟩ := hafter
  have hstart : waiting = crowd 0 := rfl
  refine ⟨s₁, s₂, ?_, hsealed, hone, h₂, hzero, hclaimed, hsubmitted⟩
  rw [hstart]
  exact (crowd_gathers (Nat.le_refl _)).trans h₁

end Crowd

end Threads

end FlushRing
