import FlushRing.Threads.Dispatch

/-! The slot claimed for a filling, from the sealer's `incrment_address` to the submission. -/

open Transition

namespace FlushRing

variable {L : Nat}

/-- The buffer a thread has sealed in `put` and not yet given its address. -/
def Pc.claiming : Pc L → Option (Fin L)
  | .putSize call => some call.current
  | .putClaim call _ => some call.current
  | .putStore call _ => some call.current
  | _ => none

/-- The slot a sealer has claimed and not yet stored. -/
def Pc.storing : Pc L → Option (Fin L × Usize)
  | .putStore call slot => some (call.current, slot)
  | _ => none

/-- The address a thread has read for the buffer it submits next. -/
def Pc.reading : Pc L → Option (Fin L × Usize)
  | .submitPush _ b _ offset => some (b, offset)
  | _ => none

namespace Pc

/-- A sealer that has its slot in hand is still claiming the buffer's address. -/
theorem claiming_of_storing {pc : Pc L} {b : Fin L} {slot : Usize} (h : pc.storing = some (b, slot)) :
    pc.claiming = some b := by
  unfold storing at h
  split at h
  next call slot' =>
    obtain ⟨rfl, rfl⟩ := Prod.mk.inj (Option.some.inj h)
    rfl
  next => cases h

theorem reading_of_putSubmission {pc : Pc L} {sub : Submission L} (h : pc.putSubmission = some sub) :
    pc.reading = some (sub.buffer, sub.offset) := by
  obtain ⟨call, rfl⟩ := submitPush_of_putSubmission h
  rfl

/-- A thread that has read the address of a buffer holds a claim to its flush. -/
theorem tokens_of_reading {pc : Pc L} {b : Fin L} {offset : Usize}
    (h : pc.reading = some (b, offset)) : 0 < pc.tokens b := by
  unfold reading at h
  split at h
  next caller b' data_len offset' =>
    obtain ⟨rfl, rfl⟩ := Prod.mk.inj (Option.some.inj h)
    simp [tokens, owns]
  next => cases h

/-- Only the sealer claims an address. -/
theorem role_of_claiming {pc : Pc L} {b : Fin L} (h : pc.claiming = some b) :
    pc.role = some (b, .sealing) := by
  unfold claiming at h
  split at h
  case h_4 => cases h
  all_goals
    obtain rfl := Option.some.inj h
    rfl

theorem claiming_of_lands {pc : Pc L} (h : pc.lands = true) : pc.claiming = none := by
  cases pc
  case putSize call => cases h
  case putClaim call padded => cases h
  case putStore call slot => cases h
  all_goals rfl

theorem reading_of_lands {pc : Pc L} (h : pc.lands = true) : pc.reading = none := by
  cases pc
  case submitPush caller b data_len offset => cases h
  all_goals rfl

theorem claiming_putEntry (call : PutCall L) : (putEntry call).claiming = none := by
  unfold putEntry
  split <;> rfl

end Pc

theorem Entered.claiming {held : Option (Fin L)} {msg : Option Slice} {c : Call} {pc pc' : Pc L}
    (h : Entered held msg c pc pc') : pc.claiming = none ∧ pc'.claiming = none := by
  cases h
  case put b payload result => exact ⟨rfl, Pc.claiming_putEntry _⟩
  all_goals exact ⟨rfl, rfl⟩

theorem Entered.reading {held : Option (Fin L)} {msg : Option Slice} {c : Call} {pc pc' : Pc L}
    (h : Entered held msg c pc pc') : pc'.reading = none := by
  cases h
  case put b payload result =>
    unfold Pc.putEntry
    split <;> rfl
  all_goals rfl

/-- A sealer has its slot from `incrment_address`. -/
theorem Advances.storing {options : BufferRingOptions} {mem : BufferRing L} {pc pc' : Pc L} {b : Fin L}
    {slot : Usize} (h : Advances options mem pc pc') (hstore : pc'.storing = some (b, slot)) :
    ∃ call padded, pc = .putClaim call padded ∧ call.current = b ∧ pc' = .putStore call slot := by
  cases h
  case put_claimed call padded =>
    obtain ⟨rfl, rfl⟩ := Prod.mk.inj (Option.some.inj hstore)
    exact ⟨call, padded, rfl, rfl, rfl⟩
  case flush_won | rotated_before | rotate_exhausted | rotate_stored | submit_pushed | address_reset |
      cque_takes =>
    have hclaims := Pc.claiming_of_storing hstore
    rw [Pc.claiming_of_lands (by simp)] at hclaims
    cases hclaims
  all_goals cases hstore

/-- A submitter has the offset it submits from `local_address`. -/
theorem Advances.reading {options : BufferRingOptions} {mem : BufferRing L} {pc pc' : Pc L} {b : Fin L}
    {offset : Usize} (h : Advances options mem pc pc') (hread : pc'.reading = some (b, offset)) :
    (∃ caller data_len, pc = .submitOffset caller b data_len) ∧
      offset = (mem.ring b).local_address := by
  cases h
  case submit_offset caller b' data_len =>
    obtain ⟨rfl, rfl⟩ := Prod.mk.inj (Option.some.inj hread)
    exact ⟨⟨caller, data_len, rfl⟩, rfl⟩
  case flush_won | rotated_before | rotate_exhausted | rotate_stored | submit_pushed | address_reset |
      cque_takes =>
    rw [Pc.reading_of_lands (by simp)] at hread
    cases hread
  all_goals cases hread

/-- A thread begins to claim by sealing an open buffer. -/
theorem Advances.claiming {options : BufferRingOptions} {mem : BufferRing L} {pc pc' : Pc L} {b : Fin L}
    (h : Advances options mem pc pc') (hclaims : pc'.claiming = some b) :
    pc.claiming = some b ∨
      ((∃ call, pc = .putSeal call ∧ call.current = b) ∧ state_sealed (mem.ring b).state = false) := by
  cases h
  case seal_won call hopen =>
    obtain rfl := Option.some.inj hclaims
    exact .inr ⟨⟨call, rfl, rfl⟩, hopen⟩
  case flush_won | rotated_before | rotate_exhausted | rotate_stored | submit_pushed | address_reset |
      cque_takes =>
    rw [Pc.claiming_of_lands (by simp)] at hclaims
    cases hclaims
  all_goals first
    | exact .inl hclaims
    | cases hclaims

/-- A thread ends its claim by storing the address. -/
theorem Advances.claims_on {options : BufferRingOptions} {mem : BufferRing L} {pc pc' : Pc L} {b : Fin L}
    (h : Advances options mem pc pc') (hclaims : pc.claiming = some b) :
    pc'.claiming = some b ∨ ∃ call slot, pc = .putStore call slot ∧ call.current = b := by
  cases h
  case put_rotates call slot _ =>
    obtain rfl := Option.some.inj hclaims
    exact .inr ⟨call, slot, rfl, rfl⟩
  case put_stays call slot _ =>
    obtain rfl := Option.some.inj hclaims
    exact .inr ⟨call, slot, rfl, rfl⟩
  all_goals first
    | exact .inl hclaims
    | cases hclaims

namespace Threads

variable {T : Type} [Fintype T]

/-- The address of a buffer is read, and otherwise written, only around the sealer's store: `submit`
does not read it while a thread is still claiming it, and once it is stored neither the second store of
a reset nor the `compare_exchange` of a rotation changes it. -/
def addressKept (s : Threads T L) : Action T → Bool
  | .run t _ =>
    match s.pc t with
    | .submitOffset _ b _ => decide (∀ t', (s.pc t').claiming ≠ some b)
    | .resetAddress _ b =>
      !state_sealed (s.mem.ring b).state || decide (∃ t', (s.pc t').claiming = some b)
    | .rotateStore _ _ new =>
      !state_sealed (s.mem.ring new).state || decide (∃ t', (s.pc t').claiming = some new) ||
        (s.mem.ring new).local_address != 0
    | _ => true
  | _ => true

/-- The slot recorded for the present filling of `b`, against the sealer's local value, the buffer's
address and the offset a submitter has read. -/
structure Addressed (mem : BufferRing L) (slot : Option Usize) (pc : T → Pc L) (b : Fin L) : Prop where
  claimed : ∀ t v, (pc t).storing = some (b, v) → slot = some v
  stored : state_sealed (mem.ring b).state = true → (∀ t, (pc t).claiming ≠ some b) →
    slot = some (mem.ring b).local_address
  read : ∀ t v, (pc t).reading = some (b, v) → slot = some v ∧ ∀ t', (pc t').claiming ≠ some b

omit [Fintype T] in
/-- Before any call on an open buffer there is no slot to account for. -/
theorem Addressed.of_idle {mem : BufferRing L} {slot : Option Usize} {b : Fin L}
    (hopen : state_sealed (mem.ring b).state = false) :
    Addressed mem slot (fun _ : T => Pc.idle) b where
  claimed _ _ h := by cases h
  stored h := by
    rw [hopen] at h
    cases h
  read _ _ h := by cases h

omit [Fintype T] in
theorem claiming_update [DecidableEq T] {pc : T → Pc L} {t : T} {pc' : Pc L} {b : Fin L} {t' : T}
    (h : (Function.update pc t pc' t').claiming = some b) :
    (t' = t ∧ pc'.claiming = some b) ∨ (t' ≠ t ∧ (pc t').claiming = some b) :=
  update_cases (p := fun pc => pc.claiming = some b) h

section Steps
variable [DecidableEq T] {options : BufferRingOptions} {s s' : Threads T L} {a : Action T} {b : Fin L}
variable {t : T} {ok : Bool} {pc : Pc L} {mem : BufferRing L}

omit [Fintype T] [DecidableEq T] in
/-- Only the sealer's claim and a reset change the recorded slot of a buffer. -/
theorem record_slot (hmanual : (s.pc t).manual = false) (hclaims : (s.pc t).claiming ≠ some b)
    (hreset : ¬ (s.pc t).Resets b) : (s.record (s.pc t) pc).slot b = s.slot b := by
  generalize s.pc t = p at hmanual hclaims hreset
  cases p
  case putClaim call padded =>
    have hne : b ≠ call.current := fun h => hclaims (by rw [h]; rfl)
    cases pc
    case putStore => simp [record, Function.update_of_ne hne]
    all_goals rfl
  case resetState caller b' =>
    have hne : b ≠ b' := fun h => hreset h.symm
    simp [record, Function.update_of_ne hne]
  case currentClaim => cases hmanual
  all_goals rfl

omit [Fintype T] in
/-- A call that a client enters leaves the addresses alone. -/
theorem Addressed.call {mem : BufferRing L} {slot : Option Usize} {pc : T → Pc L} {pc' : Pc L}
    (hs : Addressed mem slot pc b) {held : Option (Fin L)} {msg : Option Slice} {c : Call}
    (h : Entered held msg c (pc t) pc') : Addressed mem slot (Function.update pc t pc') b := by
  have hbefore (t' : T) : (Function.update pc t pc' t').claiming = (pc t').claiming := by
    by_cases ht : t' = t
    · subst t'
      rw [Function.update_self, h.claiming.1, h.claiming.2]
    · rw [Function.update_of_ne ht]
  constructor
  · rw [Function.forall_update_iff pc (p := fun _ pc => ∀ v, pc.storing = some (b, v) → slot = some v)]
    refine ⟨fun v hstore => ?_, fun t' _ => hs.claimed t'⟩
    have hclaims := Pc.claiming_of_storing hstore
    rw [h.claiming.2] at hclaims
    cases hclaims
  · intro hsealed hnone
    exact hs.stored hsealed fun t' => by
      rw [← hbefore t']
      exact hnone t'
  · simp only [hbefore]
    rw [Function.forall_update_iff pc (p := fun _ pc₁ => ∀ v, pc₁.reading = some (b, v) →
      slot = some v ∧ ∀ t', (pc t').claiming ≠ some b)]
    refine ⟨fun v hread => ?_, fun t' _ => hs.read t'⟩
    rw [h.reading] at hread
    cases hread

/-- The slot recorded for a filling is the one its sealer has in hand. -/
theorem claimed_run (hsound : s.Sound) (hmanual : (s.pc t).manual = false)
    (hsettled : settled s (.run t ok) = true) (hs : Addressed s.mem (s.slot b) s.pc b)
    (h : next options ok s.mem (s.pc t) = some (pc, mem)) {t' : T} {v : Usize}
    (hstore : (Function.update s.pc t pc t').storing = some (b, v)) :
    (s.record (s.pc t) pc).slot b = some v := by
  obtain ⟨rfl, hnew⟩ | ⟨ht, hold⟩ := update_cases (p := fun pc => pc.storing = some (b, v)) hstore
  · obtain ⟨call, padded, hpc, rfl, rfl⟩ := (next_advances h).storing hnew
    rw [hpc]
    simp [record]
  · have hrole := Pc.role_of_claiming (Pc.claiming_of_storing hold)
    rw [record_slot hmanual ?_ fun hz => settled_run hsettled hz t' _ hrole]
    · exact hs.claimed t' v hold
    · intro hclaims
      exact ht ((hsound.orderly b).sealer t' t _ _ hrole (Pc.role_of_claiming hclaims) (by decide)
        (by decide))

omit [DecidableEq T] in
/-- While nobody is claiming a sealed buffer its address stays as the sealer stored it. -/
theorem next_keeps_address (hmanual : (s.pc t).manual = false)
    (hkept : addressKept s (.run t ok) = true)
    (hsealed : state_sealed (s.mem.ring b).state = true) (hnone : ∀ t', (s.pc t').claiming ≠ some b)
    (h : next options ok s.mem (s.pc t) = some (pc, mem)) :
    (mem.ring b).local_address = (s.mem.ring b).local_address := by
  have hclaims := hnone t
  rw [next_address b h]
  cases hpc : s.pc t
  all_goals rw [hpc] at hclaims hmanual
  case putStore call slot =>
    have hne : call.current ≠ b := fun hb => hclaims (by rw [← hb]; rfl)
    exact if_neg hne
  case currentStore => cases hmanual
  case rotateStore caller slot new =>
    refine if_neg ?_
    rintro ⟨rfl, hzero⟩
    simp [addressKept, hpc, hsealed, hnone, hzero] at hkept
  case resetAddress caller b' =>
    refine if_neg ?_
    rintro rfl
    simp [addressKept, hpc, hsealed, hnone] at hkept
  all_goals rfl

/-- Once nobody is claiming a sealed buffer its address is the recorded slot. -/
theorem stored_run (hsound : s.Sound) (hmanual : (s.pc t).manual = false)
    (hkept : addressKept s (.run t ok) = true) (hs : Addressed s.mem (s.slot b) s.pc b)
    (h : next options ok s.mem (s.pc t) = some (pc, mem))
    (hsealed : state_sealed (mem.ring b).state = true)
    (hnone : ∀ t', (Function.update s.pc t pc t').claiming ≠ some b) :
    (s.record (s.pc t) pc).slot b = some (mem.ring b).local_address := by
  have hpc := hsound.owned.wellFormed t
  have hreset : ¬ (s.pc t).Resets b := by
    intro hz
    rw [next_sealed b h hpc] at hsealed
    generalize s.pc t = p at hz hsealed
    cases p
    case resetState caller b' =>
      obtain rfl : b' = b := hz
      simp [Pc.sealedAfter] at hsealed
    all_goals cases hz
  have hself := hnone t
  rw [Function.update_self] at hself
  cases hbefore : state_sealed (s.mem.ring b).state with
  | false =>
    obtain ⟨call, _, rfl, rfl⟩ := next_seals hpc hmanual hbefore hsealed h
    exact absurd rfl hself
  | true =>
    by_cases hclaims : ∀ t', (s.pc t').claiming ≠ some b
    · rw [record_slot hmanual (hclaims t) hreset, hs.stored hbefore hclaims,
        next_keeps_address hmanual hkept hbefore hclaims h]
    · push Not at hclaims
      obtain ⟨t₀, hclaims⟩ := hclaims
      obtain rfl : t₀ = t := by
        by_contra ht
        exact hnone t₀ (by rw [Function.update_of_ne ht]; exact hclaims)
      obtain hstill | ⟨call, slot, hput, rfl⟩ := (next_advances h).claims_on hclaims
      · exact absurd hstill hself
      · have hslot := hs.claimed t₀ slot (by rw [hput]; rfl)
        have haddress := next_address call.current h
        rw [hput] at haddress ⊢
        rw [haddress]
        simpa [record, Pc.addressAfter] using hslot

/-- An address that was read for a submission is the recorded slot, and stays so. -/
theorem read_run (hsound : s.Sound) (hmanual : (s.pc t).manual = false)
    (hkept : addressKept s (.run t ok) = true) (hs : Addressed s.mem (s.slot b) s.pc b)
    (h : next options ok s.mem (s.pc t) = some (pc, mem)) {t' : T} {v : Usize}
    (hread : (Function.update s.pc t pc t').reading = some (b, v)) :
    (s.record (s.pc t) pc).slot b = some v ∧
      ∀ t'', (Function.update s.pc t pc t'').claiming ≠ some b := by
  obtain ⟨rfl, hnew⟩ | ⟨ht, hold⟩ := update_cases (p := fun pc => pc.reading = some (b, v)) hread
  · obtain ⟨⟨caller, data_len, hpc⟩, rfl⟩ := (next_advances h).reading hnew
    have hnone : ∀ t', (s.pc t').claiming ≠ some b := by simpa [addressKept, hpc] using hkept
    have hsealed := (hsound.drained (t := t') (b := b) (by simp [hpc, Pc.tokens, Pc.owns])).sealed
    refine ⟨?_, fun t'' hclaims => ?_⟩
    · rw [record_slot hmanual (hnone t') (by rw [hpc]; exact id)]
      exact hs.stored hsealed hnone
    · obtain ⟨rfl, hnew⟩ | ⟨_, hold⟩ := claiming_update hclaims
      · obtain hkeep | ⟨⟨call, hput, _⟩, _⟩ := (next_advances h).claiming hnew
        · exact hnone t'' hkeep
        · rw [hpc] at hput
          cases hput
      · exact hnone t'' hold
  · obtain ⟨hslot, hnone⟩ := hs.read t' v hold
    have htokens := Pc.tokens_of_reading hold
    refine ⟨?_, fun t'' hclaims => ?_⟩
    · rw [record_slot hmanual (hnone t) ?_]
      · exact hslot
      · -- the resetting thread would hold a second claim to the flush
        intro hz
        have hpair := pair_le_sum (Pc.tokens b) s.pc ht
        have hreset := Pc.tokens_of_resets (hsound.owned.wellFormed t) hz
        have hsingle := hsound.owned.single b
        have hbit := flushBit_le_one s.mem b
        omega
    · obtain ⟨rfl, hnew⟩ | ⟨_, hold⟩ := claiming_update hclaims
      · obtain hkeep | ⟨_, hopen⟩ := (next_advances h).claiming hnew
        · exact hnone t'' hkeep
        · rw [(hsound.drained htokens).sealed] at hopen
          cases hopen
      · exact hnone t'' hold

/-- Soundness on the automatic path, with the slot of every buffer accounted for. -/
structure Claims (s : Threads T L) : Prop where
  sound : s.Sound
  manual : ∀ t, (s.pc t).manual = false
  addressed : ∀ b, Addressed s.mem (s.slot b) s.pc b

/-- A step keeps the slot of every buffer accounted for. -/
theorem Claims.run (hs : s.Claims) (hsettled : settled s (.run t ok) = true)
    (hkept : addressKept s (.run t ok) = true)
    (h : next options ok s.mem (s.pc t) = some (pc, mem)) (b : Fin L) :
    Addressed mem ((s.record (s.pc t) pc).slot b) (Function.update s.pc t pc) b where
  claimed _ _ hstore := claimed_run hs.sound (hs.manual t) hsettled (hs.addressed b) h hstore
  stored := stored_run hs.sound (hs.manual t) hkept (hs.addressed b) h
  read _ _ hread := read_run hs.sound (hs.manual t) hkept (hs.addressed b) h hread

/-- Every step of the automatic path that meets the conditions keeps the slots accounted for. -/
theorem Claims.step (hs : s.Claims) (ha : automatic a = true) (hsettled : settled s a = true)
    (hroomy : roomy s a = true) (hkept : addressKept s a = true)
    (h : Threads.step options s a = some s') : s'.Claims := by
  refine ⟨hs.sound.step hroomy hsettled (seizesOpen_of_manual hs.manual) h,
    manual_step hs.manual ha h, fun b => ?_⟩
  obtain ⟨t, c, pc, rfl, hentry, rfl⟩ | ⟨t, ok, pc, mem, rfl, hnext, rfl⟩ |
    ⟨i, result, mem, rfl, hmem, rfl⟩ := step_cases h
  · have hcall := (hs.addressed b).call (entry_entered hentry)
    rwa [← note_mem s t c, ← note_slot s t c] at hcall
  · exact hs.run hsettled hkept hnext b
  · obtain ⟨e, _, _, rfl⟩ := BufferRing.complete_cases hmem
    exact ⟨(hs.addressed b).claimed, (hs.addressed b).stored, (hs.addressed b).read⟩

/-- On the automatic path, as long as no buffer is reset under a call that is deciding on it, the
writer count has room and the address of a buffer is read and written in the order of `addressKept`,
every write that `put` submits goes to the slot claimed by the thread that sealed the filling: the entry it
queues, unless the queue is full, is the write of that buffer to that slot. -/
theorem put_submits_claimed_slot [NeZero L]
    (h : Reaches (Threads.step options)
      (fun s a => automatic a = true ∧ settled s a = true ∧ roomy s a = true ∧ addressKept s a = true)
      (init (BufferRing.with_options options)) s)
    {sub : Submission L} (hsub : (s.pc t).putSubmission = some sub) :
    s.slot sub.buffer = some sub.offset ∧
    ∀ ok s', Threads.step options s (.run t ok) = some s' →
      (SQ_ENTRIES ≤ s.mem.io.sq.length ∧ pushes s.mem s'.mem = []) ∨
      ∃ e, pushes s.mem s'.mem = [e] ∧ e.carries sub.buffer = true ∧ s.slot sub.buffer = some e.offset := by
  have hs : s.Claims := h.invariant (P := Claims)
    (fun _ _ _ hs hok h => hs.step hok.1 hok.2.1 hok.2.2.1 hok.2.2.2 h)
    ⟨sound_init options, fun _ => rfl, fun _ => .of_idle (by simp [init, BufferRing.with_options,
      FlushBuffer.new_buffer])⟩
  have hslot := ((hs.addressed sub.buffer).read t sub.offset (Pc.reading_of_putSubmission hsub)).1
  refine ⟨hslot, fun ok s' hstep => ?_⟩
  obtain ⟨call, hpc⟩ := Pc.submitPush_of_putSubmission hsub
  obtain ⟨pc, mem, hnext, rfl⟩ := run_cases hstep
  obtain ⟨hnone, _⟩ | ⟨caller, b, data_len, offset, hpush, hqueued⟩ := next_pushed (by rw [hpc]; rfl) hnext
  · rw [hpc] at hnone
    cases hnone
  · rw [hpc] at hpush
    cases hpush
    refine hqueued.imp_right fun hqueued => ?_
    obtain ⟨_, e, hpushes, hoffset, hcarries⟩ := hqueued
    exact ⟨e, hpushes, (hcarries _).trans (decide_eq_true rfl), by rw [hoffset]; exact hslot⟩

end Steps

theorem put_submits_claimed_slot_fillAndSubmit :
    ∃ (s s' : Threads (Fin 1) 1) (sub : Submission 1) (e : Sqe 1),
      Reaches (Threads.step storeOptions)
        (fun s a => automatic a = true ∧ settled s a = true ∧ roomy s a = true ∧
          addressKept s a = true)
        (init (BufferRing.with_options storeOptions)) s ∧
      (s.pc 0).putSubmission = some sub ∧ Threads.step storeOptions s (.run 0 true) = some s' ∧
      pushes s.mem s'.mem = [e] ∧ s.slot sub.buffer = some e.offset := by
  have hrun : (exec (Threads.step storeOptions)
      (fun s a => automatic a = true ∧ settled s a = true ∧ roomy s a = true ∧
        addressKept s a = true) fillAndSubmit
      (init (BufferRing.with_options storeOptions) : Threads (Fin 1) 1)).any
      (fun s => (s.pc 0).putSubmission.isSome && decide (s.mem.io.sq.length < SQ_ENTRIES) &&
        (Threads.step storeOptions s (.run 0 true)).isSome) = true := by decide +kernel
  obtain ⟨s, hreach, hcheck⟩ := exists_of_exec hrun
  simp only [Bool.and_eq_true, decide_eq_true_eq] at hcheck
  obtain ⟨⟨hsome, hroom⟩, hstep⟩ := hcheck
  obtain ⟨sub, hsub⟩ := Option.isSome_iff_exists.mp hsome
  obtain ⟨s', hstep⟩ := Option.isSome_iff_exists.mp hstep
  obtain ⟨hfull, _⟩ | ⟨e, hpushes, _, hslot⟩ := (put_submits_claimed_slot hreach hsub).2 true s' hstep
  · exact absurd hroom (Nat.not_lt.mpr hfull)
  · exact ⟨s, s', sub, e, hreach, hsub, hstep, hpushes, hslot⟩

/-- The first filling is submitted, completed and reset. In the second, thread 1 seals and claims the
slot at one megabyte, and before it stores the slot thread 0, the last writer, submits. -/
def lastWriterFirst : List (Action (Fin 2)) :=
  List.flatten [
    attempt 0 (zeros ONE_MEGABYTE_BLOCK) 2 2, [.call 0 .finish], attempt 1 (zeros 1) 1 15,
    [.call 1 .finish, .complete 0 1048576, .call 1 .check_cque], steps 1 6,
    [.call 0 (.take (zeros ONE_MEGABYTE_BLOCK)), .call 0 .current_buffer, .call 0 .reserve_space],
    steps 0 2, attempt 1 (zeros 1) 1 3, [.call 0 .put], steps 0 6]

theorem put_submits_stale_address :
    ∃ (s : Threads (Fin 2) 1) (sub : Submission 1),
      Reaches (Threads.step storeOptions) (fun _ a => automatic a = true)
        (init (BufferRing.with_options storeOptions)) s ∧
      (s.pc 0).putSubmission = some sub ∧ sub.offset = 0 ∧
      s.slot sub.buffer = some ONE_MEGABYTE_BLOCK := by
  have hrun : (exec (Threads.step storeOptions) (fun _ a => automatic a = true) lastWriterFirst
      (init (BufferRing.with_options storeOptions) : Threads (Fin 2) 1)).any
      (fun s => (s.pc 0).putSubmission.any fun sub =>
        sub.offset == 0 && s.slot sub.buffer == some ONE_MEGABYTE_BLOCK) = true := by decide +kernel
  obtain ⟨s, hreach, hcheck⟩ := exists_of_exec hrun
  obtain ⟨sub, hsub, hstate⟩ := (Option.any_eq_true _ _).mp hcheck
  simp only [Bool.and_eq_true, beq_iff_eq] at hstate
  exact ⟨s, sub, hreach, hsub, hstate.1, hstate.2⟩

end Threads

end FlushRing
