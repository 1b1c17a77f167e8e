import FlushRing.Client.Flight
import FlushRing.Client.Regions

open Transition Extents

namespace FlushRing

variable {L : Nat}

/-- The range of the file a buffer is written to, padding included. -/
def FlushBuffer.region (self : FlushBuffer L) : Extent :=
  { start := self.local_address.toNat, len := self.data_len.toNat }

/-- The data of a buffer is in the region its write covers. -/
theorem FlushBuffer.placed_in_region (self : FlushBuffer L) : self.placed.stop ≤ self.region.stop := by
  have hpadded := self.data_len_toNat
  simp only [Extent.stop, placed, region]
  omega

/-- The range of the file a message reports. -/
def Sent.extent (m : Sent L) : Extent := { start := m.file_offset.toNat, len := m.byte_count.toNat }

namespace BufferRing

/-- Sealed buffers and reported ranges lie below the next address and do not overlap. -/
structure Mapped (mem : BufferRing L) : Prop where
  below : ∀ b, state_sealed (mem.ring b).state = true →
    (mem.ring b).region.stop ≤ mem.next_address_range.toNat
  apart : ∀ b c, b ≠ c → state_sealed (mem.ring b).state = true →
    state_sealed (mem.ring c).state = true → (mem.ring b).region.Apart (mem.ring c).region
  reported : ∀ m ∈ mem.sent, m.extent.stop ≤ mem.next_address_range.toNat
  spared : ∀ m ∈ mem.sent, ∀ b, state_sealed (mem.ring b).state = true →
    m.extent.Apart (mem.ring b).region

theorem mapped_init [NeZero L] (options : BufferRingOptions) :
    (with_options options : BufferRing L).Mapped where
  below b h := by
    rw [show ((with_options options : BufferRing L).ring b).state = 0#64 from rfl,
      state_sealed_zero] at h
    cases h
  apart b c _ h := by
    rw [show ((with_options options : BufferRing L).ring b).state = 0#64 from rfl,
      state_sealed_zero] at h
    cases h
  reported m hm := by cases hm
  spared m hm := by cases hm

namespace Mapped
variable {mem mem' : BufferRing L} {b : Fin L} {x : FlushBuffer L} {store : QuikIO} {ok : Bool}

/-- A step that seals nothing and reports nothing. -/
theorem keep (h : mem.Mapped)
    (hring : ∀ c, state_sealed (mem'.ring c).state = true →
      state_sealed (mem.ring c).state = true ∧ (mem'.ring c).region = (mem.ring c).region)
    (hle : mem.next_address_range.toNat ≤ mem'.next_address_range.toNat)
    (hsent : mem'.sent = mem.sent) : mem'.Mapped where
  below c hc := by
    obtain ⟨hbefore, hregion⟩ := hring c hc
    rw [hregion]
    exact (h.below c hbefore).trans hle
  apart c d hne hc hd := by
    obtain ⟨hbefore, hregion⟩ := hring c hc
    obtain ⟨hbefore', hregion'⟩ := hring d hd
    rw [hregion, hregion']
    exact h.apart c d hne hbefore hbefore'
  reported m hm := by
    rw [hsent] at hm
    exact (h.reported m hm).trans hle
  spared m hm c hc := by
    rw [hsent] at hm
    obtain ⟨hbefore, hregion⟩ := hring c hc
    rw [hregion]
    exact h.spared m hm c hbefore

/-- A buffer is sealed at the next address, which moves past its padded data. -/
theorem sealed (h : mem.Mapped) (hregion : (mem'.ring b).region.start = mem.next_address_range.toNat)
    (hclaim : (mem'.ring b).region.stop ≤ mem'.next_address_range.toNat)
    (hring : ∀ c ≠ b, state_sealed (mem'.ring c).state = true → mem'.ring c = mem.ring c)
    (hsent : mem'.sent = mem.sent) : mem'.Mapped := by
  have hle : mem.next_address_range.toNat ≤ mem'.next_address_range.toNat := by
    unfold Extent.stop at hclaim
    omega
  have habove (c : Fin L) (hc : c ≠ b) (hsealed : state_sealed (mem'.ring c).state = true) :
      (mem'.ring c).region.stop ≤ (mem'.ring b).region.start := by
    have heq := hring c hc hsealed
    rw [heq] at hsealed ⊢
    rw [hregion]
    exact h.below c hsealed
  refine ⟨fun c hc => ?_, fun c d hne hc hd => ?_, fun m hm => ?_, fun m hm c hc => ?_⟩
  · by_cases hcb : c = b
    · rw [hcb]
      exact hclaim
    · have heq := hring c hcb hc
      rw [heq] at hc ⊢
      exact (h.below c hc).trans hle
  · by_cases hcb : c = b
    · subst c
      exact (Extent.apart_of_le (habove d hne.symm hd)).symm
    · by_cases hdb : d = b
      · subst d
        exact Extent.apart_of_le (habove c hne hc)
      · have heq := hring c hcb hc
        have heq' := hring d hdb hd
        rw [heq] at hc ⊢
        rw [heq'] at hd ⊢
        exact h.apart c d hne hc hd
  · rw [hsent] at hm
    exact (h.reported m hm).trans hle
  · rw [hsent] at hm
    by_cases hcb : c = b
    · subst c
      apply Extent.apart_of_le
      rw [hregion]
      exact h.reported m hm
    · have heq := hring c hcb hc
      rw [heq] at hc ⊢
      exact h.spared m hm c hc

/-- A `put` seals its buffer and claims the padded data. -/
theorem claimed (h : mem.Mapped) (hclaim : mem.Claimed mem' b)
    (hle : mem.next_address_range.toNat ≤ mem'.next_address_range.toNat)
    (hregion : (mem'.ring b).region = ((mem.ring b).sealed_at mem.next_address_range).region)
    (hothers : ∀ c ≠ b, (mem.ring c).Kept (mem'.ring c)) (hsent : mem'.sent = mem.sent) :
    mem'.Mapped := by
  refine h.sealed ?_ ?_ (fun c hc hsealed => (hothers c hc).eq_of_still_sealed hsealed) hsent
  · rw [hregion]
    rfl
  · rw [hregion, FlushBuffer.region, FlushBuffer.data_len, FlushBuffer.sealed_at_size]
    exact hclaim.padded hle

theorem changed (h : mem.Mapped) (hmem : Changed mem mem' b x)
    (hx : state_sealed x.state = true →
      state_sealed (mem.ring b).state = true ∧ x.region = (mem.ring b).region)
    (hle : mem.next_address_range.toNat ≤ mem'.next_address_range.toNat) : mem'.Mapped := by
  refine h.keep (fun c hc => ?_) hle hmem.sent
  by_cases hcb : c = b
  · subst c
    rw [hmem.target] at hc ⊢
    exact hx hc
  · have heq := (hmem.others c hcb).eq_of_still_sealed hc
    rw [heq] at hc ⊢
    exact ⟨hc, rfl⟩

theorem launched (h : mem.Mapped) (hmem : Launched store ok mem mem' b x)
    (hsealed : state_sealed (mem.ring b).state = true) (hx : x.region = (mem.ring b).region)
    (hle : mem.next_address_range.toNat ≤ mem'.next_address_range.toNat) : mem'.Mapped := by
  have hring := hmem.forall_ring (P := fun c y => state_sealed y.state = true →
    state_sealed (mem.ring c).state = true ∧ y.region = (mem.ring c).region)
    (fun sqe _ => ⟨hsealed, by
      rw [← hx]
      simp [FlushBuffer.region, FlushBuffer.data_len, FlushBuffer.size]⟩)
    (fun c _ y hy hc => by
      obtain rfl := hy.eq_of_still_sealed hc
      exact ⟨hc, rfl⟩)
  exact h.keep hring hle hmem.sent

/-- A sealed buffer is reported and reset. -/
theorem reported_reset (h : mem.Mapped) (hsealed : state_sealed (mem.ring b).state = true)
    (haddress : mem'.next_address_range = mem.next_address_range)
    (hring : ∀ c ≠ b, mem'.ring c = mem.ring c)
    (hopen : state_sealed (mem'.ring b).state = false)
    (hsent : ∀ m ∈ mem'.sent, m ∈ mem.sent ∨ m.extent = (mem.ring b).placed) : mem'.Mapped := by
  have hother {c : Fin L} (hc : state_sealed (mem'.ring c).state = true) : c ≠ b := by
    rintro rfl
    rw [hopen] at hc
    cases hc
  refine ⟨fun c hc => ?_, fun c d hne hc hd => ?_, fun m hm => ?_, fun m hm c hc => ?_⟩
  · have heq := hring c (hother hc)
    rw [heq] at hc ⊢
    rw [haddress]
    exact h.below c hc
  · have heq := hring c (hother hc)
    have heq' := hring d (hother hd)
    rw [heq] at hc ⊢
    rw [heq'] at hd ⊢
    exact h.apart c d hne hc hd
  · rw [haddress]
    obtain hm | hm := hsent m hm
    · exact h.reported m hm
    · rw [hm]
      exact (mem.ring b).placed_in_region.trans (h.below b hsealed)
  · have hcb := hother hc
    have heq := hring c hcb
    rw [heq] at hc ⊢
    obtain hm | hm := hsent m hm
    · exact h.spared m hm c hc
    · rw [hm]
      exact (h.apart b c hcb.symm hsealed hc).mono (Nat.le_refl _) (mem.ring b).placed_in_region

end Mapped

/-- A message tells the truth: its range is where a write of its filling was submitted and done, and it
holds the payloads in the order of their reservations. -/
structure Delivered (mem : BufferRing L) (m : Sent L) : Prop where
  reserved : m.byte_count.toNat = m.filling.reserved
  written : ∃ c ∈ mem.io.completed, c.cqe.entry ∈ mem.io.pushed ∧
    c.cqe.entry.user_data = some m.buffer ∧ c.cqe.entry.filling = m.filling.number ∧
    c.cqe.entry.offset = m.file_offset ∧ 0 ≤ c.cqe.result ∧ m.byte_count.toNat ≤ c.cqe.result.toNat
  contents : load mem.file m.extent = m.filling.contents

/-- A message stays true while its part of the file does. -/
theorem Delivered.mono {mem mem' : BufferRing L} {m : Sent L} (h : mem.Delivered m)
    (hfile : load mem'.file m.extent = load mem.file m.extent)
    (hpushed : ∀ e ∈ mem.io.pushed, e ∈ mem'.io.pushed)
    (hcompleted : ∀ c ∈ mem.io.completed, c ∈ mem'.io.completed) : mem'.Delivered m where
  reserved := h.reserved
  written := by
    obtain ⟨c, hc, hpush, hrest⟩ := h.written
    exact ⟨c, hcompleted c hc, hpushed _ hpush, hrest⟩
  contents := hfile.trans h.contents

end BufferRing

open BufferRing

namespace Client

/-- A call of `reserve_space`, `put` or `check_cque`, or the kernel. -/
def logging : Action L → Bool
  | .flush_current _ => false
  | a => automatic a

/-- The kernel fails a write, or writes its full length. -/
def wholeWrites (s : Client L) : Action L → Bool
  | .complete i result =>
    match s.mem.io.kernel[i]? with
    | some e => e.user_data.isNone || result < 0 || result == e.len
    | none => true
  | _ => true

/-- What the messages sent so far, the buffers and the writes in flight satisfy in between. -/
structure Delivers (store : QuikIO) (s : Client L) : Prop where
  steady : s.Steady
  polls : s.stage.polls = true
  few : emptyGrants s.calls ≤ 2 ^ 23
  flight : Flight store s.mem s.stage.polled
  mapped : s.mem.Mapped
  arrived : ∀ cqe ∈ s.mem.io.cq ++ s.stage.polled, 0 ≤ cqe.result → ∀ b, cqe.user_data = some b →
    load s.mem.file (s.mem.ring b).placed = load (s.mem.ring b).buf.bytes (s.mem.ring b).data
  sent : ∀ m ∈ s.mem.sent, s.mem.Delivered m
  past : ∀ m ∈ s.mem.sent, m.filling.number < (s.mem.ring m.buffer).filling.number
  once : s.mem.sent.Pairwise fun m m' => (m.buffer, m.filling.number) ≠ (m'.buffer, m'.filling.number)

theorem delivers_init [NeZero L] (options : BufferRingOptions) (store : QuikIO) :
    (init (with_options options) : Client L).Delivers store where
  steady := steady_init options
  polls := rfl
  few := Nat.zero_le _
  flight := flight_init options store
  mapped := mapped_init options
  arrived cqe hcqe := by cases hcqe
  sent m hm := by cases hm
  past m hm := by cases hm
  once := .nil

section Steps
variable {options : BufferRingOptions} {store : QuikIO} {s s' : Client L} {a : Action L}

theorem not_syncs {stage : Stage L} (h : stage.polls = true) (b : Fin L) : ¬ stage.syncs b := by
  cases stage <;> first
    | exact id
    | cases h

/-- A buffer being flushed is sealed and has no reservation outstanding. -/
theorem Delivers.sealed (hs : s.Delivers store) {b : Fin L}
    (hflush : state_flush_in_progress (s.mem.ring b).state = true) :
    state_sealed (s.mem.ring b).state = true ∧ outstanding s.calls b = [] := by
  obtain ⟨houts, hsealed | hsyncs⟩ := hs.steady.flushing b hflush
  · exact ⟨hsealed, houts⟩
  · exact absurd hsyncs (not_syncs hs.polls b)

/-- A buffer that is reset has no reservation outstanding. -/
theorem Delivers.reset_drained (hs : s.Delivers store) (b : Fin L) (hresets : s.stage.resets b) :
    outstanding s.calls b = [] := by
  obtain ⟨cqe, rest, hstage, huser, _⟩ | hstage := Stage.resets_cases hresets
  · have hflight := hs.flight
    rw [hstage] at hflight
    have hwrite := hflight.write (unread_flying (List.mem_append_right _ List.mem_cons_self)) huser
    exact (hs.sealed hwrite.2.1).2
  · have hpolls := hs.polls
    rw [hstage] at hpolls
    cases hpolls

/-- Every step keeps the fillings. -/
theorem Delivers.steady_step (hs : s.Delivers store) (hlog : logging a = true)
    (h : Moves options store s a s') : s'.Steady := by
  refine hs.steady.step ?_ ?_ ?_ hs.reset_drained h
  · intro b payload ha
    exact hs.steady.room hs.few b
  · intro b hb
    cases a <;> first
      | exact absurd hlog Bool.false_ne_true
      | cases hb
  · rintro b ok rfl
    cases hlog

/-- A call leaves the buffers in flight alone, but for the one whose completion it handles. -/
theorem Delivers.ring_kept (hs : s.Delivers store) (hlog : logging a = true)
    (h : Moves options store s a s') {c : Fin L}
    (hflush : state_flush_in_progress (s.mem.ring c).state = true) :
    s'.mem.ring c = s.mem.ring c ∨ s'.mem.ring c = (s.mem.ring c).reset := by
  have hpolls := hs.polls
  cases h
  case granted b payload offset new _ _ hdecision =>
    have hmem : Changed s.mem _ b _ := .of_modify s.mem b (·.grant new offset payload.len)
    exact .inl (flushing_kept hmem.others (FlushBuffer.reserve_decision_ok hdecision).2.1 hflush)
  case put_seals hstage _ _ hopen _ hmem _ =>
    exact .inl (flushing_kept hmem.others (hs.steady.open_clear hstage hopen) hflush)
  case put_launches hclear _ hmem _ => exact .inl (flushing_kept hmem.others hclear hflush)
  case put_discards hclear _ hmem _ => exact .inl (flushing_kept hmem.others hclear hflush)
  case copies hcall hresult _ hmem _ =>
    exact .inl (flushing_kept hmem.others (hs.steady.granted_clear hcall hresult) hflush)
  case copy_launches hclear _ hmem _ => exact .inl (flushing_kept hmem.others hclear hflush)
  case copy_discards hclear _ hmem _ => exact .inl (flushing_kept hmem.others hclear hflush)
  case flushes | current_launches | sync_launches => cases hlog
  case retries =>
    rw [retry_ring]
    exact .inl rfl
  case succeeds b _ _ _ =>
    rw [reset_buffer_ring, report_ring]
    split
    · exact .inr rfl
    · exact .inl rfl
  case sync_resets hstage _ => cases hstage ▸ hpolls
  case completes hmem =>
    obtain ⟨e, _, _, rfl⟩ := complete_cases hmem
    exact .inl rfl
  all_goals exact .inl rfl

/-- A write that has not failed was done in full. -/
theorem wholeWrites_len {i : Nat} {result : Int} {e : Sqe L}
    (hwhole : wholeWrites s (.complete i result) = true) (he : s.mem.io.kernel[i]? = some e)
    (huser : e.user_data ≠ none) (hresult : 0 ≤ result) : result = e.len := by
  have hnone : e.user_data.isNone = false := by
    rw [Option.isNone_eq_false_iff, Option.isSome_iff_ne_none]
    exact huser
  simp only [wholeWrites, he, hnone, Bool.false_or, Bool.or_eq_true, decide_eq_true_eq,
    beq_iff_eq] at hwhole
  omega

/-- Every step keeps the writes in flight. -/
theorem Delivers.flight_step (hs : s.Delivers store) (hlog : logging a = true)
    (hwhole : wholeWrites s a = true) (h : Moves options store s a s') :
    Flight store s'.mem s'.stage.polled := by
  refine hs.steady.flight_step hs.flight (fun b hb => ?_) (fun b hstage => ?_) ?_ h
  · cases a <;> first
      | exact absurd hlog Bool.false_ne_true
      | cases hb
  · have hpolls := hs.polls
    rw [hstage] at hpolls
    cases hpolls
  · rintro i result rfl e b he hb hresult
    have huser : e.user_data ≠ none := by
      rw [hb]
      exact Option.some_ne_none b
    have hlen := wholeWrites_len hwhole he huser hresult
    have hflying : e ∈ s.mem.flying s.stage.polled :=
      List.mem_append_left _ (List.mem_append_left _ (List.mem_append_right _
        (List.mem_of_getElem? he)))
    have hle := FlushBuffer.size_le_entry_len (hs.steady.filled b).fits store b
    rw [← (hs.flight.write hflying hb).1] at hle
    omega

/-- A copy leaves the region of its buffer. -/
theorem Delivers.copied_region (hs : s.Delivers store) {i : Nat} {call : PutCall L} {offset : Usize}
    (hcall : s.calls[i]? = some call) (hresult : call.reserve_result = .ok offset) :
    ((s.mem.ring call.current).write offset call.payload).decrement_writers.region =
      (s.mem.ring call.current).region := by
  have hpos : 0 < (state_writers (s.mem.ring call.current).state).toNat := by
    rw [(hs.steady.filled call.current).writers, (outstanding_erase_ok hcall hresult).length_eq]
    exact Nat.succ_pos _
  have hsize : ((s.mem.ring call.current).write offset call.payload).decrement_writers.size =
      (s.mem.ring call.current).size := state_offset_sub_writer _ hpos
  rw [FlushBuffer.region, FlushBuffer.data_len, hsize]
  rfl

/-- Every step keeps the regions apart. -/
theorem Delivers.mapped_step (hs : s.Delivers store) (hlog : logging a = true)
    (hle : s.mem.next_address_range.toNat ≤ s'.mem.next_address_range.toNat)
    (h : Moves options store s a s') : s'.mem.Mapped := by
  have hmapped := hs.mapped
  have hpolls := hs.polls
  have hzero {P : Prop} (h : state_sealed 0#64 = true) : P := by
    rw [state_sealed_zero] at h
    cases h
  cases h
  case granted b payload offset new _ _ hdecision =>
    refine hmapped.changed (.of_modify s.mem b (·.grant new offset payload.len)) (fun hsealed => ?_) hle
    obtain ⟨hopen, _, _, _, rfl⟩ := FlushBuffer.reserve_decision_ok hdecision
    rw [FlushBuffer.grant_state, state_sealed_reserved, hopen] at hsealed
    cases hsealed
  case put_seals call mem _ _ _ _ _ hmem hclaim =>
    refine hmapped.claimed hclaim hle ?_ hmem.others hmem.sent
    rw [hmem.target]
  case put_launches call mem _ _ _ _ _ _ _ hmem hclaim =>
    have htarget := hmem.forall_ring (P := fun c y => c = call.current →
        y.region = ((s.mem.ring call.current).sealed_at s.mem.next_address_range).region)
      (fun sqe _ => by simp [FlushBuffer.region, FlushBuffer.data_len, FlushBuffer.size])
      (fun c hc _ _ h => absurd h hc) call.current rfl
    exact hmapped.claimed hclaim hle htarget hmem.others hmem.sent
  case put_discards hmem _ => exact hmapped.changed hmem hzero hle
  case copies hcall hresult _ hmem _ =>
    exact hmapped.changed hmem (fun hsealed =>
      ⟨(state_sealed_sub_writer _).symm.trans hsealed, hs.copied_region hcall hresult⟩) hle
  case copy_launches hcall hresult _ hsealed _ _ hmem _ =>
    exact hmapped.launched hmem hsealed (hs.copied_region hcall hresult) hle
  case copy_discards hmem _ => exact hmapped.changed hmem hzero hle
  case flushes | current_launches | sync_launches | wait_starts | sync_starts | read_submits =>
    cases hlog
  case drains => exact hmapped.keep (fun _ hc => ⟨hc, rfl⟩) hle rfl
  case retries b _ _ _ =>
    refine hmapped.keep (fun c hc => ?_) hle ?_
    · rw [retry_ring] at hc ⊢
      exact ⟨hc, rfl⟩
    · simp only [retry]
      split <;> rfl
  case succeeds cqe rest b hstage huser _ =>
    have hflight := hs.flight
    rw [hstage] at hflight
    have hwrite := hflight.write (unread_flying (List.mem_append_right _ List.mem_cons_self)) huser
    have hring (c : Fin L) : ((s.mem.report options b).reset_buffer b).ring c =
        if b = c then (s.mem.ring c).reset else s.mem.ring c := by
      rw [reset_buffer_ring, report_ring]
    refine hmapped.reported_reset (hs.sealed hwrite.2.1).1 ?_ (fun c hc => ?_) ?_ (fun m hm => ?_)
    · exact report_address options s.mem b
    · rw [hring, if_neg (Ne.symm hc)]
    · rw [hring, if_pos rfl]
      exact state_sealed_zero
    · have hm : m ∈ (s.mem.report options b).sent := hm
      unfold report at hm
      split at hm
      · obtain hm | hm := List.mem_append.mp hm
        · exact .inl hm
        · right
          rw [List.mem_singleton.mp hm]
          rfl
      · exact .inl hm
  case wait_drains hstage | wait_tests hstage | sync_refused hstage | sync_submits hstage _ | sync_ends hstage _ |
      sync_resets hstage _ | read_takes hstage _ =>
    cases hstage ▸ hpolls
  case completes hmem =>
    obtain ⟨e, _, _, rfl⟩ := complete_cases hmem
    exact hmapped.keep (fun _ hc => ⟨hc, rfl⟩) hle rfl
  all_goals exact hmapped

/-- An answer of the kernel spares what does not overlap the buffer it writes. -/
theorem Delivers.file_spared (hs : s.Delivers store) {e : Sqe L} {result : Int} {d : Extent}
    (he : e ∈ s.mem.io.kernel) (hle : result ≤ e.len)
    (hapart : ∀ c, e.user_data = some c → state_sealed (s.mem.ring c).state = true →
      d.Apart (s.mem.ring c).region) :
    load (s.mem.fileAfter e result) d = load s.mem.file d := by
  have hflying : e ∈ s.mem.flying s.stage.polled :=
    List.mem_append_left _ (List.mem_append_left _ (List.mem_append_right _ he))
  obtain ⟨_, hopcode⟩ | ⟨c, hentry, hflush, _, _⟩ := hs.flight.stored e hflying
  · have hsame : s.mem.fileAfter e result = s.mem.file := by
      unfold fileAfter
      split
      next c len heq => exact absurd heq (hopcode c len)
      next => rfl
    rw [hsame]
  · have huser : e.user_data = some c := by
      rw [hentry]
      rfl
    have hwritten : Extent.Apart { start := (s.mem.ring c).placed.start, len := result.toNat } d := by
      refine (hapart c huser (hs.sealed hflush).1).symm.mono ?_ ?_
      · exact Nat.le_refl _
      · have hlen := (s.mem.ring c).entry_len_le store c
        rw [← hentry] at hlen
        simp only [Extent.stop, FlushBuffer.placed, FlushBuffer.region]
        omega
    rw [fileAfter_entry hentry]
    exact load_fill_apart _ _ hwritten.symm

/-- Unread successes have left their data in the file, and later writes spare it. -/
theorem Delivers.arrived_step (hs : s.Delivers store) (hlog : logging a = true)
    (hwhole : wholeWrites s a = true) (hflight : Flight store s'.mem s'.stage.polled)
    (h : Moves options store s a s') :
    ∀ cqe ∈ s'.mem.io.cq ++ s'.stage.polled, 0 ≤ cqe.result → ∀ b, cqe.user_data = some b →
      load s'.mem.file (s'.mem.ring b).placed =
        load (s'.mem.ring b).buf.bytes (s'.mem.ring b).data := by
  intro cqe hcqe hresult b hb
  by_cases hcomplete : ∃ i result, a = .complete i result
  · obtain ⟨i, result, rfl⟩ := hcomplete
    cases h
    case completes mem hmem =>
      obtain ⟨e, he, hle, rfl⟩ := complete_cases hmem
      have hkernel := List.mem_of_getElem? he
      have hcqe : cqe ∈ s.mem.io.cq ++ [{ entry := e, result }] ++ s.stage.polled := hcqe
      obtain hcqe | rfl : cqe ∈ s.mem.io.cq ++ s.stage.polled ∨ cqe = { entry := e, result } := by
        simp only [List.mem_append, List.mem_singleton] at hcqe ⊢
        tauto
      · have hsealed := (hs.sealed (hs.flight.write (unread_flying hcqe) hb).2.1).1
        have hspared := hs.file_spared (d := (s.mem.ring b).placed) hkernel hle fun c hc hother =>
          (hs.mapped.apart b c (hs.flight.kernel_ne_unread hkernel hcqe hc hb).symm hsealed
            hother).mono (Nat.le_refl _) (s.mem.ring b).placed_in_region
        exact hspared.trans (hs.arrived cqe hcqe hresult b hb)
      · have hflying : e ∈ s.mem.flying s.stage.polled :=
          List.mem_append_left _ (List.mem_append_left _ (List.mem_append_right _ hkernel))
        have hentry := (hs.flight.write hflying hb).1
        have hlen : result = e.len := by
          refine wholeWrites_len hwhole he ?_ hresult
          rw [show e.user_data = some b from hb]
          exact Option.some_ne_none b
        refine fileAfter_load hentry ?_
        have hle := FlushBuffer.size_le_entry_len (hs.steady.filled b).fits store b
        rw [← hentry] at hle
        omega
  · have hcomplete : ∀ i result, a ≠ .complete i result := fun i result ha =>
      hcomplete ⟨i, result, ha⟩
    have hbefore := h.unread hcomplete cqe hcqe
    rw [h.file hcomplete]
    obtain hsame | hreset := hs.ring_kept hlog h (hs.flight.write (unread_flying hbefore) hb).2.1
    · rw [hsame]
      exact hs.arrived cqe hbefore hresult b hb
    · have hflush := (hflight.write (unread_flying hcqe) hb).2.1
      rw [hreset] at hflush
      cases (state_flush_in_progress_zero).symm.trans hflush

/-- A message was sent before, or reports the buffer that `check_cque` resets for a success. -/
theorem Moves.mem_sent (h : Moves options store s a s') {m : Sent L} (hm : m ∈ s'.mem.sent) :
    m ∈ s.mem.sent ∨
      ∃ b cqe rest, s.stage = .polling (cqe :: rest) ∧ cqe.user_data = some b ∧ 0 ≤ cqe.result ∧
        s'.mem = (s.mem.send b (s.mem.ring b).local_address (s.mem.ring b).size).reset_buffer b ∧
        m = ⟨(s.mem.ring b).local_address, (s.mem.ring b).size, b, (s.mem.ring b).filling⟩ := by
  obtain hsame | ⟨b, cqe, rest, hstage, huser, hresult, hmem, _⟩ := h.sent
  · rw [hsame] at hm
    exact .inl hm
  · rw [hmem] at hm
    obtain hm | hm := List.mem_append.mp hm
    · exact .inl hm
    · exact .inr ⟨b, cqe, rest, hstage, huser, hresult, hmem, List.mem_singleton.mp hm⟩

/-- What messages report stays in the file, and a new one reports what has arrived. -/
theorem Delivers.sent_step (hs : s.Delivers store) (h : Moves options store s a s') :
    ∀ m ∈ s'.mem.sent, s'.mem.Delivered m := by
  obtain ⟨hpushed, hcompleted⟩ := h.grows
  have hold (m : Sent L) (hm : m ∈ s.mem.sent) : s'.mem.Delivered m := by
    refine (hs.sent m hm).mono ?_ hpushed hcompleted
    by_cases hcomplete : ∃ i result, a = .complete i result
    · obtain ⟨i, result, rfl⟩ := hcomplete
      cases h
      case completes mem hmem =>
        obtain ⟨e, he, hle, rfl⟩ := complete_cases hmem
        exact hs.file_spared (List.mem_of_getElem? he) hle fun c _ hsealed =>
          hs.mapped.spared m hm c hsealed
    · rw [h.file fun i result ha => hcomplete ⟨i, result, ha⟩]
  intro m hm
  obtain hm | ⟨b, cqe, rest, hstage, huser, hresult, hmem, rfl⟩ := h.mem_sent hm
  · exact hold m hm
  · have hunread : cqe ∈ s.mem.io.cq ++ s.stage.polled := by
      rw [hstage]
      exact List.mem_append_right _ List.mem_cons_self
    have hfilled := hs.steady.filled b
    rw [(hs.sealed (hs.flight.write (unread_flying hunread) huser).2.1).2] at hfilled
    have hbefore : s.mem.Delivered
        ⟨(s.mem.ring b).local_address, (s.mem.ring b).size, b, (s.mem.ring b).filling⟩ := by
      refine ⟨hfilled.reserved.symm, ?_, (hs.arrived cqe hunread hresult b huser).trans
        hfilled.contents⟩
      obtain ⟨c, hc, hentry, hpush, hnonneg, hsize, _⟩ :=
        hs.flight.answered cqe hunread hresult b huser
      refine ⟨c, hc, hpush, ?_, ?_, ?_, hnonneg, hsize⟩
      all_goals rw [hentry]
      all_goals rfl
    refine hbefore.mono ?_ hpushed hcompleted
    rw [hmem]
    rfl

/-- The filling a message reports has ended. -/
theorem Delivers.past_step (hs : s.Delivers store) (h : Moves options store s a s') :
    ∀ m ∈ s'.mem.sent, m.filling.number < (s'.mem.ring m.buffer).filling.number := by
  intro m hm
  obtain hm | ⟨b, cqe, rest, _, _, _, hmem, rfl⟩ := h.mem_sent hm
  · exact (hs.past m hm).trans_le (h.number_le m.buffer)
  · rw [hmem, reset_buffer_ring, if_pos rfl]
    exact Nat.lt_succ_self _

/-- Every filling is reported once. -/
theorem Delivers.once_step (hs : s.Delivers store) (h : Moves options store s a s') :
    s'.mem.sent.Pairwise fun m m' => (m.buffer, m.filling.number) ≠ (m'.buffer, m'.filling.number) := by
  obtain hsame | ⟨b, cqe, rest, _, _, _, hmem, _⟩ := h.sent
  · rw [hsame]
    exact hs.once
  · rw [hmem]
    refine List.pairwise_append.mpr ⟨hs.once, List.pairwise_singleton _ _, fun m hm m' hm' heq => ?_⟩
    rw [List.mem_singleton.mp hm'] at heq
    obtain ⟨hbuffer, hnumber⟩ := Prod.mk.inj heq
    have hpast := hs.past m hm
    rw [hbuffer, hnumber] at hpast
    exact Nat.lt_irrefl _ hpast

/-- Every step that meets the conditions keeps what is in flight and what was reported in order. -/
theorem Delivers.step (hs : s.Delivers store) (hstore : options.io_instance = some store)
    (hlog : logging a = true) (hroomy : roomy s a = true) (hwrap : noWrap options s a = true)
    (hwhole : wholeWrites s a = true) (h : Client.step options s a = some s') :
    s'.Delivers store := by
  have hmoves := step_moves hstore h
  have hauto : automatic a = true := by
    cases a <;> first
      | rfl
      | cases hlog
  have hflight := hs.flight_step hlog hwhole hmoves
  exact {
    steady := hs.steady_step hlog hmoves
    polls := hmoves.stays_polling hauto hs.polls
    few := few_step hs.few hroomy hmoves
    flight := hflight
    mapped := hs.mapped_step hlog (noWrap_step hwrap h) hmoves
    arrived := hs.arrived_step hlog hwhole hflight hmoves
    sent := hs.sent_step hmoves
    past := hs.past_step hmoves
    once := hs.once_step hmoves }

theorem sent_kept {ok : Client L → Action L → Prop} (hstore : options.io_instance = some store)
    (h : Reaches (Client.step options) ok s s') {m : Sent L} (hm : m ∈ s.mem.sent) : m ∈ s'.mem.sent := by
  refine h.invariant (P := fun t => m ∈ t.mem.sent) (fun t a t' hm _ hstep => ?_) hm
  obtain hsame | ⟨b, _, _, _, _, _, hmem, _⟩ := (step_moves hstore hstep).sent
  · rw [hsame]
    exact hm
  · rw [hmem]
    exact List.mem_append_left _ hm

/-- A filling is reported at most once. What a message reports was written in full where it was submitted,
and from then on the file holds the payloads of the filling there, in the order of their reservations. -/
theorem reported_fillings_stay [NeZero L] (hstore : options.io_instance = some store)
    (h : Reaches (Client.step options)
      (fun s a => logging a = true ∧ roomy s a = true ∧ noWrap options s a = true ∧
        wholeWrites s a = true)
      (init (with_options options)) s) :
    (s.mem.sent.Pairwise fun m m' => (m.buffer, m.filling.number) ≠ (m'.buffer, m'.filling.number)) ∧
      ∀ m ∈ s.mem.sent, ∀ t, Reaches (Client.step options)
        (fun s a => logging a = true ∧ roomy s a = true ∧ noWrap options s a = true ∧
          wholeWrites s a = true) s t → m ∈ t.mem.sent ∧ t.mem.Delivered m := by
  have hdelivers {t : Client L} (ht : Reaches (Client.step options)
      (fun s a => logging a = true ∧ roomy s a = true ∧ noWrap options s a = true ∧
        wholeWrites s a = true) (init (with_options options)) t) : t.Delivers store :=
    ht.invariant (P := Delivers store)
      (fun _ _ _ hs hok hstep => hs.step hstore hok.1 hok.2.1 hok.2.2.1 hok.2.2.2 hstep)
      (delivers_init options store)
  refine ⟨(hdelivers h).once, fun m hm t ht => ?_⟩
  have hkept := sent_kept hstore ht hm
  exact ⟨hkept, (hdelivers (h.trans ht)).sent m hkept⟩

end Steps

/-- A ring with a completion channel. -/
def channelOptions : BufferRingOptions := { storeOptions with cq_tx := true }

/-- Three bytes are written; the next payload seals their buffer, and its write fails once. -/
def reportThree : List (Action 2) :=
  [.reserve_space 0 { len := 3, byte := fun i => .ofNat (i + 7) }, .put 0 true,
    .reserve_space 0 (zeros ONE_MEGABYTE_BLOCK), .put 0 true, .complete 0 (-5), .check_cque,
    .resume true, .resume true, .complete 0 4096, .resume true, .resume true]

theorem reported_fillings_stay_reportThree :
    ∃ s : Client 2,
      Reaches (Client.step channelOptions)
        (fun s a => logging a = true ∧ roomy s a = true ∧ noWrap channelOptions s a = true ∧
          wholeWrites s a = true)
        (init (with_options channelOptions)) s ∧
      ∃ m ∈ s.mem.sent, m.byte_count = 3 ∧ m.filling.contents = [7, 8, 9] ∧
        load s.mem.file m.extent = m.filling.contents := by
  have hrun : (exec (Client.step channelOptions)
      (fun s a => logging a = true ∧ roomy s a = true ∧ noWrap channelOptions s a = true ∧
        wholeWrites s a = true)
      reportThree (init (with_options channelOptions))).any
      (fun s => s.mem.sent.any fun m => m.byte_count == 3 && m.filling.contents == [7, 8, 9]) =
        true := by
    decide +kernel
  obtain ⟨s, hreach, hcheck⟩ := exists_of_exec hrun
  simp only [Bool.and_eq_true, List.any_eq_true, beq_iff_eq] at hcheck
  obtain ⟨m, hm, hcount, hcontents⟩ := hcheck
  have hstore : channelOptions.io_instance = some QuikIO.new := rfl
  obtain ⟨_, hstays⟩ := reported_fillings_stay hstore hreach
  exact ⟨s, hreach, m, hm, hcount, hcontents, (hstays m hm s .refl).2.contents⟩

end Client

end FlushRing
