import FlushRing.Client.Flight

open Transition

namespace FlushRing

variable {L : Nat}

/-- No call is in progress. -/
def Stage.returned : Stage L → Bool
  | .between => true
  | _ => false

theorem Stage.eq_between {stage : Stage L} (h : stage.returned = true) : stage = .between := by
  cases stage <;> first
    | rfl
    | cases h

/-- The entry is a write of this filling of `b`. -/
def Sqe.writes (e : Sqe L) (b : Fin L) (filling : Nat) : Prop := e.user_data = some b ∧ e.filling = filling

instance (e : Sqe L) (b : Fin L) (filling : Nat) : Decidable (e.writes b filling) :=
  inferInstanceAs (Decidable (_ ∧ _))

/-- A buffer being flushed has a write of its filling among the entries in flight, unless some `f_sync`
on it is going on, and it keeps one for the retry of any write in flight. -/
structure Traced (flying : List (Sqe L)) (syncs : Prop) (b : Fin L) (x : FlushBuffer L) : Prop where
  write : state_flush_in_progress x.state = true →
    (∃ e ∈ flying, e.writes b x.filling.number) ∨ syncs
  aged : ∀ e ∈ flying, e.user_data = some b → e.filling ≤ x.filling.number
  stored : ∀ e ∈ flying, e.user_data = some b → ∃ sqe, x.sqe = some sqe ∧ sqe.user_data = some b ∧
    sqe.filling ≤ x.filling.number ∧ (e.filling = x.filling.number → sqe.filling = x.filling.number)

namespace Traced
variable {flying flying' : List (Sqe L)} {syncs syncs' : Prop} {b : Fin L} {x y : FlushBuffer L}

/-- A change to neither the flush bit nor the filling nor the entry. -/
theorem congr (h : Traced flying syncs b x)
    (hflush : state_flush_in_progress y.state = state_flush_in_progress x.state)
    (hfilling : y.filling.number = x.filling.number) (hsqe : y.sqe = x.sqe) :
    Traced flying syncs b y where
  write := by
    rw [hflush, hfilling]
    exact h.write
  aged := by
    rw [hfilling]
    exact h.aged
  stored := by
    rw [hfilling, hsqe]
    exact h.stored

theorem kept (h : Traced flying syncs b x) (hkept : x.Kept y) : Traced flying syncs b y :=
  h.congr (by rw [hkept.state]) (by rw [hkept.filling]) hkept.sqe

/-- Entries of other buffers come and go. -/
theorem moved (h : Traced flying syncs b x)
    (hmem : ∀ e, e.user_data = some b → (e ∈ flying' ↔ e ∈ flying))
    (hsyncs : syncs → state_flush_in_progress x.state = true → syncs') : Traced flying' syncs' b x where
  write hflush := by
    refine (h.write hflush).imp ?_ fun hin => hsyncs hin hflush
    rintro ⟨e, he, hwrites⟩
    exact ⟨e, (hmem e hwrites.1).mpr he, hwrites⟩
  aged e he hb := h.aged e ((hmem e hb).mp he) hb
  stored e he hb := h.stored e ((hmem e hb).mp he) hb

/-- Entries of the buffer go away while it is synced, or once it is no longer flushed. -/
theorem less (h : Traced flying syncs b x) (hmem : ∀ e ∈ flying', e ∈ flying)
    (hwrite : state_flush_in_progress x.state = true → syncs') : Traced flying' syncs' b x where
  write hflush := .inr (hwrite hflush)
  aged e he hb := h.aged e (hmem e he) hb
  stored e he hb := h.stored e (hmem e he) hb

/-- A reset buffer needs no trace. -/
theorem reset (h : Traced flying syncs b x) (hmem : ∀ e ∈ flying', e ∈ flying) :
    Traced flying' syncs' b x.reset where
  write hflush := by cases (state_flush_in_progress_zero).symm.trans hflush
  aged e he hb := Nat.le_succ_of_le (h.aged e (hmem e he) hb)
  stored e he hb := by
    have haged := h.aged e (hmem e he) hb
    obtain ⟨sqe, hsqe, huser, hold, _⟩ := h.stored e (hmem e he) hb
    refine ⟨sqe, hsqe, huser, Nat.le_succ_of_le hold, fun hnew => ?_⟩
    have hnew : e.filling = x.filling.number + 1 := hnew
    omega

/-- The buffer's write is queued and stored. -/
theorem launch (h : Traced flying syncs b x) {sqe : Sqe L} (hsqe : y.sqe = some sqe)
    (hwrites : sqe.writes b x.filling.number) (hfilling : y.filling.number = x.filling.number)
    (hmem : ∀ e, e ∈ flying' ↔ e = sqe ∨ e ∈ flying) : Traced flying' syncs' b y where
  write _ := .inl ⟨sqe, (hmem sqe).mpr (.inl rfl), by rwa [hfilling]⟩
  aged e he hb := by
    rw [hfilling]
    obtain rfl | he := (hmem e).mp he
    · exact hwrites.2.le
    · exact h.aged e he hb
  stored e he hb := by
    rw [hfilling]
    exact ⟨sqe, hsqe, hwrites.1, hwrites.2.le, fun _ => hwrites.2⟩

/-- A failed write makes way for the stored entry. -/
theorem retried (h : Traced flying syncs b x) {e sqe : Sqe L} {rest : List (Sqe L)}
    (hb : e.user_data = some b) (hsqe : x.sqe = some sqe)
    (hflying : ∀ e', e' ∈ flying ↔ e' = e ∨ e' ∈ rest)
    (hmem : ∀ e', e' ∈ flying' ↔ e' = sqe ∨ e' ∈ rest) : Traced flying' syncs b x := by
  obtain ⟨sqe', hsqe', hbuffer, hold, hnew⟩ := h.stored e ((hflying e).mpr (.inl rfl)) hb
  obtain rfl : sqe = sqe' := Option.some.inj (hsqe.symm.trans hsqe')
  refine ⟨fun hflush => (h.write hflush).imp_left ?_, fun e' he' hb' => ?_, fun e' he' hb' => ?_⟩
  · rintro ⟨e', he', hwrites⟩
    obtain rfl | he' := (hflying e').mp he'
    · exact ⟨sqe, (hmem sqe).mpr (.inl rfl), hbuffer, hnew hwrites.2⟩
    · exact ⟨e', (hmem e').mpr (.inr he'), hwrites⟩
  · obtain rfl | he' := (hmem e').mp he'
    · exact hold
    · exact h.aged e' ((hflying e').mpr (.inr he')) hb'
  · obtain rfl | he' := (hmem e').mp he'
    · exact ⟨e', hsqe, hb', hold, id⟩
    · exact h.stored e' ((hflying e').mpr (.inr he')) hb'

/-- A failed write is lost to a full queue, but another one of the filling is in flight. -/
theorem lost (h : Traced flying syncs b x) (hmem : ∀ e ∈ flying', e ∈ flying)
    (hwrite : ∃ e ∈ flying', e.writes b x.filling.number) : Traced flying' syncs' b x where
  write _ := .inl hwrite
  aged e he hb := h.aged e (hmem e he) hb
  stored e he hb := h.stored e (hmem e he) hb

end Traced

open BufferRing

namespace Client

/-- A `put` with this reservation result wins the flush of its buffer. -/
def owns (mem : BufferRing L) (call : PutCall L) : Bool :=
  let state := (mem.ring call.current).state
  !state_flush_in_progress state &&
    match call.reserve_result with
    | .error .InsufficientSpace => !state_sealed state && state_writers state == 0
    | .error _ => false
    | .ok _ => state_writers state == 1 && state_sealed state

/-- The buffer whose write a call of `put`, `flush`, `flush_current` or `check_cque` is to queue next. -/
def submits (s : Client L) : Action L → Option (Fin L)
  | .put i _ => s.calls[i]?.bind fun call => if owns s.mem call then some call.current else none
  | .flush b _ => some b
  | .flush_current ok => s.target (.flush_current ok)
  | .resume _ =>
    match s.stage with
    | .polling (cqe :: _) => if cqe.result < 0 then cqe.user_data else none
    | _ => none
  | _ => none

/-- Completions of buffers are taken by `check_cque` only, and by `f_sync` those of its buffer. -/
def keeps (s : Client L) : Action L → Bool
  | .resume _ =>
    match s.stage with
    | .waiting caller => s.mem.io.cq.all fun cqe => cqe.user_data.isNone || cqe.user_data == caller
    | .reading => s.mem.io.cq.head?.all (·.user_data.isNone)
    | _ => true
  | _ => true

/-- Every buffer is traced. -/
def Tracked (s : Client L) : Prop :=
  ∀ b, Traced (s.mem.flying s.stage.polled) (s.stage.syncs b) b (s.mem.ring b)

theorem tracked_init [NeZero L] (options : BufferRingOptions) :
    (init (with_options options) : Client L).Tracked := by
  intro b
  refine ⟨fun hflush => ?_, fun e he => ?_, fun e he => ?_⟩
  · cases (state_flush_in_progress_zero).symm.trans hflush
  · cases he
  · cases he

section Steps
variable {options : BufferRingOptions} {store : QuikIO} {s s' : Client L} {a : Action L}

/-- The entry of a completion in hand is in flight. -/
theorem mem_flying_cons {mem : BufferRing L} {cqe : Cqe L} {rest : List (Cqe L)} (e : Sqe L) :
    e ∈ mem.flying (cqe :: rest) ↔ e = cqe.entry ∨ e ∈ mem.flying rest := by
  have hmiddle : (mem.flying (cqe :: rest)).Perm (cqe.entry :: mem.flying rest) := List.perm_middle
  rw [hmiddle.mem_iff, List.mem_cons]

/-- A pushed entry is in flight. -/
theorem mem_flying_push {mem mem' : BufferRing L} {polled : List (Cqe L)} {sqe : Sqe L} {io : IoUring L}
    {ok : Bool} (hpush : mem.io.push sqe = some io) (hio : mem'.io = io.submit ok) (e : Sqe L) :
    e ∈ mem'.flying polled ↔ e = sqe ∨ e ∈ mem.flying polled := by
  rw [flying, hio, List.mem_append, (io.entries_submit ok).mem_iff,
    (IoUring.entries_push hpush).mem_iff, List.mem_cons, or_assoc, flying, List.mem_append]

/-- An entry that belongs to no buffer joins those in flight. -/
theorem mem_flying_push_none {mem mem' : BufferRing L} {polled : List (Cqe L)} {sqe e : Sqe L}
    {io : IoUring L} {ok : Bool} (hpush : mem.io.push sqe = some io) (hio : mem'.io = io.submit ok)
    (hsqe : sqe.user_data = none) (he : e.user_data ≠ none) :
    e ∈ mem'.flying polled ↔ e ∈ mem.flying polled := by
  rw [mem_flying_push hpush hio]
  refine or_iff_right ?_
  rintro rfl
  exact he hsqe

/-- A launch that finds room, or a buffer that has a write in flight already. -/
theorem Tracked.launched (hs : s.Tracked) {ok : Bool} {mem : BufferRing L} {b : Fin L}
    {x : FlushBuffer L} (hmem : Launched store ok s.mem mem b x)
    (hfilling : x.filling.number = (s.mem.ring b).filling.number) (hsqe : x.sqe = (s.mem.ring b).sqe)
    {syncs : Fin L → Prop} (hsyncs : ∀ c, s.stage.syncs c → syncs c)
    (hroom : s.mem.io.sq.length < SQ_ENTRIES ∨
      (∃ e ∈ s.mem.flying s.stage.polled, e.writes b (s.mem.ring b).filling.number) ∨ syncs b)
    (c : Fin L) : Traced (mem.flying s.stage.polled) (syncs c) c (mem.ring c) := by
  obtain ⟨hpush, hio, htarget⟩ | ⟨io, hpush, hio, htarget⟩ := hmem.outcome
  · have hflying : mem.flying s.stage.polled = s.mem.flying s.stage.polled := by
      rw [flying, flying, hio]
    rw [hflying]
    by_cases hc : c = b
    · subst c
      rw [htarget]
      have hfull := IoUring.push_eq_none hpush
      have htraced := hs b
      refine ⟨fun _ => ?_, ?_, ?_⟩
      · obtain hroom | hroom := hroom
        · omega
        · rw [FlushBuffer.set_flush_in_progress_filling, hfilling]
          exact hroom
      · rw [FlushBuffer.set_flush_in_progress_filling, hfilling]
        exact htraced.aged
      · rw [FlushBuffer.set_flush_in_progress_filling, FlushBuffer.set_flush_in_progress_sqe, hfilling,
          hsqe]
        exact htraced.stored
    · exact ((hs c).kept (hmem.others c hc)).moved (fun _ _ => Iff.rfl) fun hin _ => hsyncs c hin
  · have hflying (e : Sqe L) : e ∈ mem.flying s.stage.polled ↔
        e = x.entry store b ∨ e ∈ s.mem.flying s.stage.polled := mem_flying_push hpush hio e
    by_cases hc : c = b
    · subst c
      have hsqe : (mem.ring b).sqe = some (x.entry store b) := by
        rw [htarget]
      refine (hs b).launch hsqe ⟨rfl, hfilling⟩ ?_ hflying
      · rw [htarget]
        exact hfilling
    · refine ((hs c).kept (hmem.others c hc)).moved (fun e hb => ?_) fun hin _ => hsyncs c hin
      rw [hflying]
      refine or_iff_right ?_
      rintro rfl
      exact hc (Option.some.inj hb).symm

/-- A launch of a call that runs to its end leaves no completion in hand. -/
theorem Tracked.hands_over (hs : s.Tracked) {ok : Bool} {mem : BufferRing L} {b : Fin L}
    {x : FlushBuffer L} (hstage : s.stage = .between) (hmem : Launched store ok s.mem mem b x)
    (hfilling : x.filling.number = (s.mem.ring b).filling.number) (hsqe : x.sqe = (s.mem.ring b).sqe)
    (hroom : s.mem.io.sq.length < SQ_ENTRIES ∨
      ∃ e ∈ s.mem.flying s.stage.polled.tail, e.writes b (s.mem.ring b).filling.number)
    (c : Fin L) : Traced (mem.flying s.stage.polled) (s.stage.syncs c) c (mem.ring c) := by
  have hpolled : s.stage.polled.tail = s.stage.polled := by
    rw [hstage]
    rfl
  rw [hpolled] at hroom
  exact hs.launched hmem hfilling hsqe (fun _ => id) (hroom.imp_right .inl) c

/-- A change to one buffer keeps the traces of the others. -/
theorem Tracked.changed (hs : s.Tracked) {mem : BufferRing L} {b : Fin L} {x : FlushBuffer L}
    (hmem : Changed s.mem mem b x)
    (hx : Traced (s.mem.flying s.stage.polled) (s.stage.syncs b) b x) (c : Fin L) :
    Traced (mem.flying s.stage.polled) (s.stage.syncs c) c (mem.ring c) := by
  have hflying : mem.flying s.stage.polled = s.mem.flying s.stage.polled := by
    rw [flying, flying, hmem.io]
  rw [hflying]
  exact hmem.forall_ring (P := fun c y => Traced (s.mem.flying s.stage.polled) (s.stage.syncs c) c y)
    hx (fun c _ _ hy => (hs c).kept hy) c

/-- A step that leaves the buffers alone and moves entries that belong to none. -/
theorem Tracked.same (hs : s.Tracked) (hring : s'.mem.ring = s.mem.ring)
    (hmem : ∀ e, e.user_data ≠ none →
      (e ∈ s'.mem.flying s'.stage.polled ↔ e ∈ s.mem.flying s.stage.polled))
    (hsyncs : ∀ c, s.stage.syncs c → state_flush_in_progress (s'.mem.ring c).state = true →
      s'.stage.syncs c) : s'.Tracked := by
  intro c
  have hsyncs := hsyncs c
  rw [hring] at hsyncs ⊢
  refine (hs c).moved (fun e hb => hmem e ?_) hsyncs
  rw [hb]
  exact Option.some_ne_none c

/-- The wait of `f_sync` drops the completions of its own buffer. -/
theorem Tracked.wait (hs : s.Tracked) {caller : Option (Fin L)} (hstage : s.stage = .waiting caller)
    (hcq : ∀ cqe ∈ s.mem.io.cq, cqe.user_data = none ∨ cqe.user_data = caller)
    (hsyncs : ∀ c, s.stage.syncs c → state_flush_in_progress (s.mem.ring c).state = true →
      (s.wait caller).stage.syncs c) : (s.wait caller).Tracked := by
  have hmem (e : Sqe L) : e ∈ s.mem.flying s.stage.polled ↔
      e ∈ (s.wait caller).mem.flying (s.wait caller).stage.polled ∨
        ∃ cqe ∈ s.mem.io.cq, cqe.entry = e := by
    rw [polled_wait, hstage]
    simp [Stage.polled, flying, IoUring.entries, Client.wait, drain, IoUring.drain, or_assoc]
  intro c
  have htraced := hs c
  by_cases hc : caller = some c
  · refine htraced.less (fun e he => (hmem e).mpr (.inl he)) fun _ => ?_
    simp only [Client.wait, drain]
    split
    · exact Stage.syncs_waited hc
    · exact hc
  · refine htraced.moved (fun e hb => ?_) (hsyncs c)
    rw [hmem]
    refine (or_iff_left ?_).symm
    rintro ⟨cqe, hcqe, rfl⟩
    have hb : cqe.user_data = some c := hb
    obtain hnone | hcaller := hcq cqe hcqe
    · rw [hnone] at hb
      cases hb
    · exact hc (hcaller.symm.trans hb)

section Handled
variable {mem : BufferRing L} {cqe : Cqe L} {rest : List (Cqe L)} {b : Fin L}

/-- A failed write of `b` is retried. -/
theorem traced_retry {ok : Bool}
    (hs : ∀ c, Traced (mem.flying (cqe :: rest)) False c (mem.ring c)) (huser : cqe.user_data = some b)
    (hroom : mem.io.sq.length < SQ_ENTRIES ∨
      ∃ e ∈ mem.flying rest, e.writes b (mem.ring b).filling.number) (c : Fin L) :
    Traced ((mem.retry ok b).flying rest) False c ((mem.retry ok b).ring c) := by
  obtain ⟨sqe, hsqe, hbuffer, _⟩ := (hs b).stored cqe.entry ((mem_flying_cons _).mpr (.inl rfl)) huser
  have hio : (mem.retry ok b).io = ((mem.io.push sqe).getD mem.io).submit ok := by
    simp only [BufferRing.retry, hsqe]
  rw [retry_ring]
  cases hpush : mem.io.push sqe with
  | none =>
    have hfull := IoUring.push_eq_none hpush
    have hmem (e : Sqe L) : e ∈ (mem.retry ok b).flying rest ↔ e ∈ mem.flying rest := by
      rw [flying, hio, hpush, Option.getD_none, List.mem_append, (mem.io.entries_submit ok).mem_iff,
        flying, List.mem_append]
    by_cases hc : c = b
    · subst c
      refine (hs b).lost (fun e he => (mem_flying_cons e).mpr (.inr ((hmem e).mp he))) ?_
      obtain hroom | ⟨e, he, hwrites⟩ := hroom
      · omega
      · exact ⟨e, (hmem e).mpr he, hwrites⟩
    · refine (hs c).moved (fun e hb => ?_) fun hin _ => hin
      rw [hmem, mem_flying_cons]
      refine (or_iff_right ?_).symm
      rintro rfl
      exact hc (Option.some.inj (hb.symm.trans huser))
  | some io =>
    rw [hpush, Option.getD_some] at hio
    have hmem (e : Sqe L) : e ∈ (mem.retry ok b).flying rest ↔ e = sqe ∨ e ∈ mem.flying rest :=
      mem_flying_push hpush hio e
    by_cases hc : c = b
    · subst c
      exact (hs b).retried huser hsqe mem_flying_cons hmem
    · refine (hs c).moved (fun e hb => ?_) fun hin _ => hin
      rw [hmem, mem_flying_cons, or_iff_right, or_iff_right]
      · rintro rfl
        exact hc (Option.some.inj (hb.symm.trans huser))
      · rintro rfl
        exact hc (Option.some.inj (hb.symm.trans hbuffer))

/-- A buffer whose write has succeeded is reset. -/
theorem traced_reset (hs : ∀ c, Traced (mem.flying (cqe :: rest)) False c (mem.ring c))
    (huser : cqe.user_data = some b) (c : Fin L) :
    Traced (((mem.report options b).reset_buffer b).flying rest) False c
      (((mem.report options b).reset_buffer b).ring c) := by
  have hflying : ((mem.report options b).reset_buffer b).flying rest = mem.flying rest := by
    have hio : ((mem.report options b).reset_buffer b).io = mem.io := report_io options mem b
    rw [flying, flying, hio]
  rw [hflying, reset_buffer_ring, report_ring]
  split
  next => exact (hs c).reset fun e he => (mem_flying_cons e).mpr (.inr he)
  next hc =>
    refine (hs c).moved (fun e hb => ?_) fun hin _ => hin
    rw [mem_flying_cons]
    refine (or_iff_right ?_).symm
    rintro rfl
    exact hc (Option.some.inj (huser.symm.trans hb))

end Handled

/-- Buffers stay traced while every write to be queued finds room, or its buffer has another one in
flight, and only the right calls take completions of buffers. -/
theorem Tracked.step (hs : s.Tracked)
    (hroom : ∀ b, s.submits a = some b → s.mem.io.sq.length < SQ_ENTRIES ∨
      ∃ e ∈ s.mem.flying s.stage.polled.tail, e.writes b (s.mem.ring b).filling.number)
    (hkeeps : keeps s a = true) (h : Moves options store s a s') : s'.Tracked := by
  have hstays (c : Fin L) := h.stays_synced (b := c)
  cases h
  case granted b payload offset new _ _ hdecision =>
    obtain ⟨_, _, _, _, hnew⟩ := FlushBuffer.reserve_decision_ok hdecision
    have hflush : state_flush_in_progress new =
        state_flush_in_progress (s.mem.ring b).state := by
      rw [hnew, state_flush_in_progress_reserved]
    exact hs.changed (.of_modify s.mem b (·.grant new offset payload.len)) ((hs b).congr hflush rfl rfl)
  case put_seals hmem _ =>
    exact hs.changed hmem ((hs _).congr (state_flush_in_progress_or_sealed _) rfl rfl)
  case put_launches i ok call mem hstage hcall hresult hopen hdrained hclear _ hmem _ =>
    have hsubmits : s.submits (.put i ok) = some call.current := by
      simp [submits, hcall, owns, hresult, hopen, hdrained, hclear]
    exact hs.hands_over hstage hmem rfl rfl (hroom _ hsubmits)
  case put_discards hmem _ => exact hs.changed hmem ((hs _).reset fun _ => id)
  case copies hmem _ =>
    exact hs.changed hmem ((hs _).congr (state_flush_in_progress_sub_writer _) rfl rfl)
  case copy_launches i ok call mem offset hstage hcall hresult hlast hsealed hclear _ hmem _ =>
    have hsubmits : s.submits (.put i ok) = some call.current := by
      simp [submits, hcall, owns, hresult, hlast, hsealed, hclear]
    exact hs.hands_over hstage hmem rfl rfl (hroom _ hsubmits)
  case copy_discards call mem offset _ _ _ _ _ _ hmem _ =>
    have hcopied := (hs call.current).congr (y := (s.mem.ring call.current).write offset call.payload)
      rfl rfl rfl
    exact hs.changed hmem (hcopied.reset fun _ => id)
  case flushes b ok mem hstage hmem _ => exact hs.hands_over hstage hmem rfl rfl (hroom b rfl)
  case current_launches ok mem hstage hsize hmem _ =>
    exact hs.hands_over hstage hmem rfl rfl (hroom s.mem.current_buffer (if_neg hsize))
  case drains ok hstage =>
    refine hs.same rfl (fun e _ => ?_) hstays
    rw [hstage]
    simp only [drain, Stage.polled_drained]
    simp [Stage.polled, flying, IoUring.drain, IoUring.entries]
  case ignores cqe rest hstage huser =>
    refine hs.same rfl (fun e he => ?_) hstays
    rw [hstage]
    refine ((mem_flying_cons e).trans (or_iff_right ?_)).symm
    rintro rfl
    exact he huser
  case retries ok cqe rest b hstage huser hresult =>
    have hroom := hroom b (by simp [submits, hstage, hresult, huser])
    rw [hstage] at hroom
    refine traced_retry (fun c => ?_) huser hroom
    have htraced := hs c
    rw [hstage] at htraced
    exact htraced
  case succeeds cqe rest b hstage huser hresult =>
    refine traced_reset (fun c => ?_) huser
    have htraced := hs c
    rw [hstage] at htraced
    exact htraced
  case sync_launches b ok mem hstage hmem _ =>
    have hpolled : s.stage.polled = [] := congrArg Stage.polled hstage
    have hsyncs (c : Fin L) (hin : s.stage.syncs c) : (Stage.waiting (some b)).syncs c := by
      rw [hstage] at hin
      cases hin
    have hin : (Stage.waiting (some b)).syncs b := rfl
    have hlaunched := hs.launched hmem rfl rfl hsyncs (.inr (.inr hin))
    rw [hpolled] at hlaunched
    exact hlaunched
  case wait_drains caller ok hstage =>
    have hcq : ∀ cqe ∈ s.mem.io.cq, cqe.user_data = none ∨ cqe.user_data = caller := by
      simpa [keeps, hstage] using hkeeps
    exact hs.wait hstage hcq hstays
  case wait_tests caller ok hstage =>
    refine hs.same rfl (fun _ _ => ?_) hstays
    rw [hstage]
    simp only [Stage.polled_tested]
    exact Iff.rfl
  case sync_refused caller ok hstage =>
    refine hs.same rfl (fun _ _ => ?_) hstays
    rw [hstage, Stage.polled_failed]
    exact Iff.rfl
  case sync_submits caller ok io hstage hpush =>
    refine hs.same rfl (fun e he => ?_) hstays
    simp only [Stage.polled_submitted, hstage]
    exact mem_flying_push_none hpush rfl rfl he
  case polls hstage | wait_starts hstage | sync_starts hstage | sync_ends hstage _ =>
    refine hs.same rfl (fun _ _ => ?_) hstays
    rw [hstage]
    exact Iff.rfl
  case sync_resets b ok hstage _ =>
    intro c
    have htraced := hs c
    rw [hstage] at htraced
    rw [reset_buffer_ring]
    split
    next => exact htraced.reset fun _ => id
    next hc =>
      refine htraced.moved (fun _ _ => Iff.rfl) fun hin _ => ?_
      exact absurd (Option.some.inj hin) hc
  case read_submits len offset ok io hstage hpush =>
    refine hs.same rfl (fun e he => ?_) hstays
    simp only [Stage.polled_reading, hstage]
    exact mem_flying_push_none hpush rfl rfl he
  case read_takes cqe rest hstage hcq =>
    have hnone : cqe.user_data = none := by
      simpa [keeps, hstage, hcq] using hkeeps
    refine hs.same rfl (fun e he => ?_) hstays
    rw [hstage]
    simp only [Stage.polled, flying, IoUring.entries, hcq, List.map_nil, List.append_nil, List.map_cons,
      List.mem_append, List.mem_cons]
    refine or_congr_right (or_iff_right ?_).symm
    rintro rfl
    exact he hnone
  case completes i result mem hmem =>
    obtain ⟨e, he, _, rfl⟩ := complete_cases hmem
    refine hs.same rfl (fun e' _ => ?_) hstays
    have hentries := IoUring.entries_finish (c := ⟨{ entry := e, result }, s.mem.fileAfter e result⟩) he
    simp only [flying, List.mem_append, hentries.mem_iff]
  all_goals exact hs

/-- A `put` that reports a flush has won it. -/
theorem put_success {mem : BufferRing L} {call : PutCall L} {ok : Bool}
    (h : (mem.put options ok call.current call.reserve_result call.payload).1 =
      .ok .SuccessfullWriteFlush) :
    owns mem call = true ∧ ∃ mem', mem.put options ok call.current call.reserve_result call.payload =
      (.ok .SuccessfullWriteFlush,
        dispatch options ok (modify mem' call.current FlushBuffer.set_flush_in_progress) call.current) := by
  cases hresult : call.reserve_result with
  | error e =>
    rw [hresult] at h
    by_cases hspace : e = .InsufficientSpace
    · subst e
      cases hopen : state_sealed (mem.ring call.current).state with
      | true => simp [BufferRing.put, hopen] at h
      | false =>
        rw [put_seals ok call.payload hopen] at h ⊢
        split at h
        next hdrained =>
          split at h
          next => cases h
          next hclear =>
            rw [if_pos hdrained, if_neg hclear]
            exact ⟨by simp [owns, hresult, hopen, hdrained, hclear], _, rfl⟩
        next => cases h
    · cases e
      case InsufficientSpace => exact absurd rfl hspace
      all_goals cases h
  | ok offset =>
    rw [hresult, put_copies] at h
    rw [put_copies]
    simp only at h ⊢
    split at h
    next hlast =>
      split at h
      next => cases h
      next hclear =>
        rw [if_pos hlast, if_neg hclear]
        rw [FlushBuffer.decrement_writers_state, state_flush_in_progress_sub_writer] at hclear
        refine ⟨?_, _, rfl⟩
        have hclear : state_flush_in_progress (mem.ring call.current).state = false :=
          Bool.eq_false_iff.mpr hclear
        have hlast : state_writers (mem.ring call.current).state = 1 ∧
          state_sealed (mem.ring call.current).state = true := hlast
        simp [owns, hresult, hclear, hlast.1, hlast.2]
    next => cases h

/-- The write a call is to queue finds room, or is on its way already; a `put` that wins a flush submits
it, and finds room. -/
def roomFor (options : BufferRingOptions) (s : Client L) (a : Action L) : Bool :=
  match s.submits a with
  | none => true
  | some b =>
    match a with
    | .put _ _ => options.auto_flush && s.mem.io.sq.length < SQ_ENTRIES
    | _ => s.mem.io.sq.length < SQ_ENTRIES ||
      (s.mem.flying s.stage.polled.tail).any fun e => e.writes b (s.mem.ring b).filling.number

/-- A submission finds room, or its entry is in flight already. -/
theorem roomFor_spec (hroom : roomFor options s a = true) {b : Fin L} (hb : s.submits a = some b) :
    s.mem.io.sq.length < SQ_ENTRIES ∨
      ∃ e ∈ s.mem.flying s.stage.polled.tail, e.writes b (s.mem.ring b).filling.number := by
  simp only [roomFor, hb] at hroom
  split at hroom
  · exact .inl (by simpa using (Bool.and_eq_true_iff.mp hroom).2)
  · simpa using hroom

/-- A `put` that reports a flush leaves its buffer marked as being flushed. -/
theorem put_success_flushing {i : Nat} {ok : Bool} {call : PutCall L}
    (hstore : options.io_instance = some store) (hcall : s.calls[i]? = some call)
    (hroom : roomFor options s (.put i ok) = true)
    (hresult : (s.mem.put options ok call.current call.reserve_result call.payload).1 =
      .ok .SuccessfullWriteFlush) :
    state_flush_in_progress ((s.mem.put options ok call.current call.reserve_result
      call.payload).2.ring call.current).state = true := by
  obtain ⟨howns, mem, hput⟩ := put_success hresult
  have hsubmits : s.submits (.put i ok) = some call.current := by
    simp [submits, hcall, howns]
  simp only [roomFor, hsubmits, Bool.and_eq_true] at hroom
  have hdispatch : dispatch options ok (modify mem call.current FlushBuffer.set_flush_in_progress)
      call.current = BufferRing.flush options ok
        (modify mem call.current FlushBuffer.set_flush_in_progress) call.current := by
    rw [dispatch]
    simp only [hstore, hroom.1, if_true]
  rw [hput, hdispatch, (flush_launched hstore ok _ _).1.target_state]
  exact state_flush_in_progress_or_flush _

/-- As long as no write to be queued meets a full queue, and completions are taken by the right calls:
whenever no call is in progress each buffer being flushed has a write of its filling queued, in the
kernel or unread, and after a `put` that reports a flush the buffer's write is there. -/
theorem flushing_writes_queued [NeZero L] (hstore : options.io_instance = some store)
    (h : Reaches (Client.step options) (fun s a => roomFor options s a = true ∧ keeps s a = true)
      (init (with_options options)) s)
    (hreturned : s.stage.returned = true) :
    (∀ b, state_flush_in_progress (s.mem.ring b).state = true →
      ∃ e ∈ s.mem.io.entries, e.writes b (s.mem.ring b).filling.number) ∧
    ∀ i ok call s', s.calls[i]? = some call → roomFor options s (.put i ok) = true →
      Client.step options s (.put i ok) = some s' →
      (s.mem.put options ok call.current call.reserve_result call.payload).1 =
        .ok .SuccessfullWriteFlush →
      ∃ e ∈ s'.mem.io.entries, e.writes call.current (s'.mem.ring call.current).filling.number := by
  have htracked {t : Client L} (ht : Reaches (Client.step options)
      (fun s a => roomFor options s a = true ∧ keeps s a = true) (init (with_options options)) t) :
      t.Tracked :=
    ht.invariant (P := Tracked)
      (fun _ _ _ hs hok h => hs.step (fun _ hb => roomFor_spec hok.1 hb) hok.2 (step_moves hstore h))
      (tracked_init options)
  have hqueued {t : Client L} (ht : t.Tracked) (hstage : t.stage = .between) (b : Fin L)
      (hflush : state_flush_in_progress (t.mem.ring b).state = true) :
      ∃ e ∈ t.mem.io.entries, e.writes b (t.mem.ring b).filling.number := by
    have htraced := ht b
    rw [hstage] at htraced
    obtain ⟨e, he, hwrites⟩ | hsyncs := htraced.write hflush
    · have hflying : t.mem.flying Stage.between.polled = t.mem.io.entries := List.append_nil _
      rw [hflying] at he
      exact ⟨e, he, hwrites⟩
    · cases hsyncs
  have hstage := Stage.eq_between hreturned
  refine ⟨hqueued (htracked h) hstage, fun i ok call s' hcall hroom hstep hresult => ?_⟩
  have hs' : s' = { s with
      mem := (s.mem.put options ok call.current call.reserve_result call.payload).2
      calls := s.calls.eraseIdx i } := by
    simpa [Client.step, hstage, Client.put, hcall] using hstep.symm
  have hkeeps : keeps s (.put i ok) = true := rfl
  refine hqueued (htracked (h.tail (.put i ok) ⟨hroom, hkeeps⟩ hstep)) ?_ call.current ?_
  · rw [hs']
    exact hstage
  · rw [hs']
    exact put_success_flushing hstore hcall hroom hresult

end Steps

/-- Two full buffers, the first one sealed and submitted, the second one about to be. -/
def fillTwo : List (Action 3) :=
  [.reserve_space 0 (zeros ONE_MEGABYTE_BLOCK), .put 0 true, .reserve_space 0 (zeros 1), .put 0 true,
    .reserve_space 1 (zeros ONE_MEGABYTE_BLOCK), .put 0 true, .reserve_space 1 (zeros 1)]

theorem flushing_writes_queued_fillTwo :
    ∃ s s' : Client 3,
      Reaches (Client.step storeOptions)
        (fun s a => roomFor storeOptions s a = true ∧ keeps s a = true)
        (init (with_options storeOptions)) s ∧
      (∃ e ∈ s.mem.io.entries, e.writes 0 (s.mem.ring 0).filling.number) ∧
      Client.step storeOptions s (.put 0 true) = some s' ∧
      ∃ e ∈ s'.mem.io.entries, e.writes 1 (s'.mem.ring 1).filling.number := by
  have hrun : (exec (Client.step storeOptions)
      (fun s a => roomFor storeOptions s a = true ∧ keeps s a = true)
      fillTwo (init (with_options storeOptions))).any
      (fun s => s.stage.returned && state_flush_in_progress (s.mem.ring 0).state &&
        roomFor storeOptions s (.put 0 true) && (Client.step storeOptions s (.put 0 true)).isSome &&
        s.calls[0]?.any fun call => call.current == 1 &&
          (s.mem.put storeOptions true call.current call.reserve_result call.payload).1.toOption ==
            some .SuccessfullWriteFlush) = true := by
    decide +kernel
  obtain ⟨s, hreach, hcheck⟩ := exists_of_exec hrun
  simp only [Bool.and_eq_true, Option.any_eq_true, Option.isSome_iff_exists, beq_iff_eq] at hcheck
  obtain ⟨⟨⟨⟨hreturned, hflush⟩, hroom⟩, s', hstep⟩, call, hcall, hcurrent, hresult⟩ := hcheck
  have hstore : storeOptions.io_instance = some QuikIO.new := rfl
  obtain ⟨hbefore, hafter⟩ := flushing_writes_queued hstore hreach hreturned
  refine ⟨s, s', hreach, hbefore 0 hflush, hstep, ?_⟩
  rw [← hcurrent]
  refine hafter 0 true call s' hcall hroom hstep ?_
  cases hput : (s.mem.put storeOptions true call.current call.reserve_result call.payload).1 with
  | error e =>
    rw [hput] at hresult
    cases hresult
  | ok msg =>
    rw [hput] at hresult
    exact congrArg _ (Option.some.inj hresult)

/-- Eight buffers whose submissions fail and stay queued, and a ninth that is full. -/
def fillQueue : List (Action 9) :=
  ((List.finRange 9).take 8).flatMap (fun b =>
    [.reserve_space b (zeros 4096), .put 0 true, .flush_current false]) ++
  [.reserve_space 8 (zeros ONE_MEGABYTE_BLOCK), .put 0 true, .reserve_space 8 (zeros 1)]

/-- The `put` that seals the ninth buffer reports a flush, but the buffer's write was refused. -/
theorem full_queue_loses_buffer :
    ∃ s s' : Client 9,
      Reaches (Client.step storeOptions) (fun _ _ => True) (init (with_options storeOptions)) s ∧
      Client.step storeOptions s (.put 0 true) = some s' ∧ s'.stage.returned = true ∧
      (∃ call, s.calls[0]? = some call ∧ call.current = 8 ∧
        (s.mem.put storeOptions true call.current call.reserve_result call.payload).1.toOption =
          some .SuccessfullWriteFlush) ∧
      state_flush_in_progress (s'.mem.ring 8).state = true ∧
      ∀ e ∈ s'.mem.io.entries, e.user_data ≠ some 8 := by
  have hrun : (exec (Client.step storeOptions) (fun _ _ => True)
      fillQueue (init (with_options storeOptions))).any
      (fun s => (Client.step storeOptions s (.put 0 true)).any (fun s' => s'.stage.returned &&
          state_flush_in_progress (s'.mem.ring 8).state &&
          s'.mem.io.entries.all fun e => e.user_data != some 8) &&
        s.calls[0]?.any fun call => call.current == 8 &&
          (s.mem.put storeOptions true call.current call.reserve_result call.payload).1.toOption ==
            some .SuccessfullWriteFlush) = true := by
    decide +kernel
  obtain ⟨s, hreach, hcheck⟩ := exists_of_exec hrun
  simp only [Bool.and_eq_true, Option.any_eq_true, List.all_eq_true, bne_iff_ne, beq_iff_eq] at hcheck
  obtain ⟨⟨s', hstep, ⟨hreturned, hflush⟩, hlost⟩, call, hcall, hcurrent, hresult⟩ := hcheck
  exact ⟨s, s', hreach, hstep, hreturned, ⟨call, hcall, hcurrent, hresult⟩, hflush, hlost⟩

end Client

end FlushRing
