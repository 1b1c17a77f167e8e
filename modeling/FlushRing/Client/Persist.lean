import FlushRing.Client.Flight

open Transition Extents

namespace FlushRing

variable {L : Nat}

namespace Stage

/-- Inside the `wait_for_all` of `f_sync` on `b`. -/
def awaits (b : Fin L) : Stage L → Prop
  | .waiting caller => caller = some b
  | .testing caller => caller = some b
  | _ => False

/-- Inside the `sync_data` of `f_sync` on `b`. -/
def finishes (b : Fin L) : Stage L → Prop
  | .syncing caller => caller = some b
  | .synced caller => caller = some b
  | _ => False

/-- Only the `f_sync` of `b` goes on inside it when its wait is over. -/
theorem waited_inside {b : Fin L} {caller : Option (Fin L)}
    (h : (waited caller).awaits b ∨ (waited caller).finishes b) : caller = some b := by
  cases caller with
  | none => obtain h | h := h <;> cases h
  | some c =>
    obtain h | h := h
    · cases h
    · exact h

end Stage

namespace BufferRing

/-- No write of the present filling of `b` has ever been queued. -/
def Unsubmitted (mem : BufferRing L) (b : Fin L) : Prop :=
  ∀ e ∈ mem.io.pushed, e.user_data = some b → e.filling ≠ (mem.ring b).filling.number

/-- A filling stays unsubmitted while its buffer is unchanged and nothing of it is pushed. -/
theorem Unsubmitted.mono {mem mem' : BufferRing L} {b : Fin L} (h : mem.Unsubmitted b)
    (hring : mem'.ring b = mem.ring b)
    (hpushed : ∀ e ∈ mem'.io.pushed, e ∈ mem.io.pushed ∨ e.user_data = none) : mem'.Unsubmitted b := by
  intro e he hb
  rw [hring]
  obtain he | hnone := hpushed e he
  · exact h e he hb
  · rw [hnone] at hb
    cases hb

end BufferRing

open BufferRing

namespace Client

/-- A call of `reserve_space`, `put`, `flush_current`, `f_sync` or `check_cque`, or the kernel. -/
def persisting : Action L → Bool
  | .f_sync _ _ => true
  | a => automatic a

/-- The buffer handed to `flush` has no reservation outstanding and no write in flight. -/
def settled (s : Client L) (a : Action L) : Bool :=
  match s.target a with
  | some b =>
    (outstanding s.calls b).isEmpty &&
      (s.mem.flying s.stage.polled).all fun e => e.user_data != some b
  | none => true

/-- The kernel fails a buffer's write, or writes all of the buffer's data. -/
def coversData (s : Client L) : Action L → Bool
  | .complete i result =>
    (s.mem.io.kernel[i]?).all fun e =>
      e.user_data.all fun b => result < 0 || (s.mem.ring b).size.toNat ≤ result.toNat
  | _ => true

/-- `f_sync` finds room in the queue, or no write of its buffer's filling was queued before. The wait
takes no failed write of the buffer, and it ends only when no write of the buffer is left. -/
def waitsOut (s : Client L) : Action L → Bool
  | .f_sync b _ =>
    s.mem.io.sq.length < SQ_ENTRIES ||
      s.mem.io.pushed.all fun e =>
        e.user_data != some b || e.filling != (s.mem.ring b).filling.number
  | .resume _ =>
    match s.stage with
    | .waiting (some b) =>
      s.mem.io.cq.all (fun cqe => cqe.user_data != some b || 0 ≤ cqe.result) &&
        (!s.mem.io.cq.any (·.result < 0) ||
          (s.mem.io.sq ++ s.mem.io.kernel).all fun e => e.user_data != some b)
    | .testing (some b) =>
      !(s.mem.io.sq.isEmpty && s.mem.io.cq.isEmpty) ||
        s.mem.io.kernel.all fun e => e.user_data != some b
    | _ => true
  | _ => true

/-- How the client comes to be inside `f_sync` on `b`. -/
inductive Syncs (store : QuikIO) (s : Client L) (b : Fin L) : Action L → Client L → Prop where
  | starts {ok : Bool} {mem : BufferRing L} (hmem : Launched store ok s.mem mem b (s.mem.ring b)) :
      Syncs store s b (.f_sync b ok) { s with mem, stage := .waiting (some b) }
  | drains {ok : Bool} (hstage : s.stage = .waiting (some b)) :
      Syncs store s b (.resume ok) (s.wait (some b))
  | tests {ok : Bool} (hstage : s.stage = .testing (some b)) :
      Syncs store s b (.resume ok)
        { s with
          stage :=
            if s.mem.io.sq.isEmpty && s.mem.io.cq.isEmpty then .syncing (some b)
            else .waiting (some b) }
  | submits {ok : Bool} {io : IoUring L} (hstage : s.stage = .syncing (some b))
      (hpush : s.mem.io.push Sqe.fsync = some io) :
      Syncs store s b (.resume ok)
        { s with mem := { s.mem with io := io.submit ok }, stage := .synced (some b) }
  | completes {i : Nat} {result : Int} {mem : BufferRing L}
      (hmem : s.mem.complete i result = some mem) :
      Syncs store s b (.complete i result) { s with mem }

section Steps
variable {options : BufferRingOptions} {store : QuikIO} {s s' : Client L} {a : Action L} {b : Fin L}

/-- How a client comes to be inside `f_sync` with this step. -/
theorem Moves.syncs (h : Moves options store s a s')
    (hin : s'.stage.awaits b ∨ s'.stage.finishes b) : Syncs store s b a s' := by
  have hbetween {P : Prop} (hstage : s.stage = .between)
      (hin : s.stage.awaits b ∨ s.stage.finishes b) : P := by
    rw [hstage] at hin
    obtain hin | hin := hin <;> cases hin
  cases h
  case granted hstage _ _ | rejected hstage _ | put_fails hstage _ _ | put_seals hstage _ _ _ _ _ _ |
      put_launches hstage _ _ _ _ _ _ _ _ | put_discards hstage _ _ _ _ _ _ _ | copies hstage _ _ _ _ _ |
      copy_launches hstage _ _ _ _ _ _ _ _ | copy_discards hstage _ _ _ _ _ _ _ | flushes hstage _ _ |
      current_empty hstage | current_launches hstage _ _ _ | read_refused hstage =>
    exact hbetween hstage hin
  case drains =>
    simp only [drain] at hin
    split at hin <;> obtain hin | hin := hin <;> cases hin
  case sync_launches c ok mem _ hmem _ =>
    obtain hin | hin := hin
    · obtain rfl := Option.some.inj hin
      exact .starts hmem
    · cases hin
  case wait_drains caller ok hstage =>
    simp only [wait, drain] at hin
    obtain rfl : caller = some b := by
      split at hin
      · exact Stage.waited_inside hin
      · obtain hin | hin := hin
        · exact hin
        · cases hin
    exact .drains hstage
  case wait_tests caller ok hstage =>
    simp only at hin
    obtain rfl : caller = some b := by
      split at hin
      · exact Stage.waited_inside hin
      · obtain hin | hin := hin
        · exact hin
        · cases hin
    exact .tests hstage
  case sync_starts =>
    obtain hin | hin := hin <;> cases hin
  case sync_refused caller _ _ =>
    cases caller <;> obtain hin | hin := hin <;> cases hin
  case sync_submits caller ok io hstage hpush =>
    cases ok with
    | false => cases caller <;> obtain hin | hin := hin <;> cases hin
    | true =>
      obtain hin | hin := hin
      · cases hin
      · obtain rfl : caller = some b := hin
        exact .submits hstage hpush
  case read_submits =>
    simp only at hin
    split at hin <;> obtain hin | hin := hin <;> cases hin
  case completes hmem => exact .completes hmem
  all_goals obtain hin | hin := hin <;> cases hin

end Steps

/-- What the writes in flight and the running `f_sync` satisfy in between. -/
structure Persists (store : QuikIO) (s : Client L) : Prop where
  steady : s.Steady
  few : emptyGrants s.calls ≤ 2 ^ 23
  flight : Flight store s.mem s.stage.polled
  waiting : ∀ b, s.stage.awaits b → state_flush_in_progress (s.mem.ring b).state = true ∧
    ((∃ e ∈ s.mem.flying [], e.user_data = some b) ∨ Persisted store s.mem b ∨ s.mem.Unsubmitted b)
  finishing : ∀ b, s.stage.finishes b → state_flush_in_progress (s.mem.ring b).state = true ∧
    (∀ e ∈ s.mem.flying [], e.user_data ≠ some b) ∧
      (Persisted store s.mem b ∨ s.mem.Unsubmitted b)

theorem persists_init [NeZero L] (options : BufferRingOptions) (store : QuikIO) :
    (init (with_options options) : Client L).Persists store where
  steady := steady_init options
  few := Nat.zero_le _
  flight := flight_init options store
  waiting b hin := by cases hin
  finishing b hin := by cases hin

section Steps
variable {options : BufferRingOptions} {store : QuikIO} {s s' : Client L} {a : Action L} {b : Fin L}

/-- A buffer about to be reset is being flushed. -/
theorem Persists.reset_flushing (hs : s.Persists store) (hresets : s.stage.resets b) :
    state_flush_in_progress (s.mem.ring b).state = true := by
  obtain ⟨cqe, rest, hstage, huser, _⟩ | hstage := Stage.resets_cases hresets
  · have hflight := hs.flight
    rw [hstage] at hflight
    exact (hflight.write (unread_flying (List.mem_append_right _ List.mem_cons_self)) huser).2.1
  · have hfinishing := hs.finishing b
    rw [hstage] at hfinishing
    exact (hfinishing rfl).1

/-- The buffer that is flushed has no reservation outstanding and nothing in flight. -/
theorem settled_target (hsettled : settled s a = true) (hb : s.target a = some b) :
    outstanding s.calls b = [] ∧ ∀ e ∈ s.mem.flying s.stage.polled, e.user_data ≠ some b := by
  simpa [settled, hb] using hsettled

/-- Every step that meets the conditions keeps the fillings. -/
theorem Persists.steady_step (hs : s.Persists store) (hpersisting : persisting a = true)
    (hsettled : settled s a = true) (h : Moves options store s a s') : s'.Steady := by
  refine hs.steady.step ?_ ?_ ?_ ?_ h
  · exact fun b payload _ => hs.steady.room hs.few b
  · exact fun b hb => (settled_target hsettled hb).1
  · rintro b ok rfl
    cases hpersisting
  · exact fun b hresets => (hs.steady.flushing b (hs.reset_flushing hresets)).1

/-- Every step that meets the conditions keeps the writes in flight. -/
theorem Persists.flight_step (hs : s.Persists store) (hsettled : settled s a = true)
    (hcovers : coversData s a = true) (h : Moves options store s a s') :
    Flight store s'.mem s'.stage.polled := by
  refine hs.steady.flight_step hs.flight ?_ ?_ ?_ h
  · exact fun b hb => (settled_target hsettled hb).2
  · intro b hstage
    have hfinishing := hs.finishing b
    rw [hstage] at hfinishing ⊢
    exact (hfinishing rfl).2.1
  · rintro i result rfl e b he hb hresult
    simp only [coversData, he, hb, Option.all_some, Bool.or_eq_true, decide_eq_true_eq] at hcovers
    omega

/-- The wait leaves a completed write of the buffer behind, or one still to be waited for. -/
theorem Persists.drained (hs : s.Persists store) (hwaits : waitsOut s (.resume ok) = true)
    (hstage : s.stage = .waiting (some b)) :
    state_flush_in_progress (s.mem.ring b).state = true ∧
      ((∃ e ∈ s.mem.io.sq ++ s.mem.io.kernel, e.user_data = some b) ∨
        Persisted store s.mem b ∨ s.mem.Unsubmitted b) := by
  have hwaiting := hs.waiting b
  rw [hstage] at hwaiting
  obtain ⟨hflush, ⟨e, he, hb⟩ | hrest⟩ := hwaiting rfl
  · refine ⟨hflush, ?_⟩
    rw [flying, List.map_nil, List.append_nil, IoUring.entries, List.mem_append] at he
    obtain he | he := he
    · exact .inl ⟨e, he, hb⟩
    · obtain ⟨cqe, hcqe, rfl⟩ := List.mem_map.mp he
      simp only [waitsOut, hstage, Bool.and_eq_true, List.all_eq_true] at hwaits
      have hresult := hwaits.1 cqe hcqe
      have hb : cqe.user_data = some b := hb
      simp only [hb, bne_self_eq_false, Bool.false_or, decide_eq_true_eq] at hresult
      exact .inr (.inl (hs.flight.answered cqe (List.mem_append_left _ hcqe) hresult b hb))
  · exact ⟨hflush, .inr hrest⟩

/-- A filling that is persisted, or of which nothing was queued, stays so while its buffer is unchanged. -/
theorem settled_mono {mem mem' : BufferRing L} (h : Persisted store mem b ∨ mem.Unsubmitted b)
    (hring : mem'.ring b = mem.ring b) (hcompleted : ∀ c ∈ mem.io.completed, c ∈ mem'.io.completed)
    (hgrown : ∀ e ∈ mem.io.pushed, e ∈ mem'.io.pushed)
    (hpushed : ∀ e ∈ mem'.io.pushed, e ∈ mem.io.pushed ∨ e.user_data = none) :
    Persisted store mem' b ∨ mem'.Unsubmitted b :=
  h.imp (·.mono hring hcompleted hgrown) (·.mono hring hpushed)

/-- While `f_sync` waits, a write of its filling is in flight, persisted, or was never queued. -/
theorem Persists.waiting_step (hs : s.Persists store) (hwaits : waitsOut s a = true)
    (h : Moves options store s a s') (hin : s'.stage.awaits b) :
    state_flush_in_progress (s'.mem.ring b).state = true ∧
      ((∃ e ∈ s'.mem.flying [], e.user_data = some b) ∨
        Persisted store s'.mem b ∨ s'.mem.Unsubmitted b) := by
  cases h.syncs (.inl hin) with
  | @starts ok mem hmem =>
    refine ⟨?_, ?_⟩
    · rw [hmem.target_state]
      exact state_flush_in_progress_or_flush _
    · obtain ⟨hpush, hio, htarget⟩ | ⟨io, hpush, hio, _⟩ := hmem.outcome
      · right
        right
        have hfull := IoUring.push_eq_none hpush
        have hnever : ∀ e ∈ s.mem.io.pushed, e.user_data = some b →
            e.filling ≠ (s.mem.ring b).filling.number := by
          simpa [waitsOut, Nat.not_lt.mpr hfull, imp_iff_not_or] using hwaits
        intro e he hb
        rw [hio] at he
        rw [htarget]
        exact hnever e he hb
      · left
        refine ⟨(s.mem.ring b).entry store b, ?_, rfl⟩
        rw [flying, List.map_nil, List.append_nil, hio, (io.entries_submit ok).mem_iff,
          (IoUring.entries_push hpush).mem_iff]
        exact List.mem_cons_self
  | drains hstage =>
    obtain ⟨hflush, ⟨e, he, hb⟩ | hrest⟩ := hs.drained hwaits hstage
    · refine ⟨hflush, .inl ⟨e, ?_, hb⟩⟩
      exact List.mem_append_left _ (List.mem_append_left _ he)
    · exact ⟨hflush, .inr hrest⟩
  | tests hstage =>
    have hwaiting := hs.waiting b
    rw [hstage] at hwaiting
    exact hwaiting rfl
  | submits => cases hin
  | completes hmem =>
    obtain ⟨hflush, hrest⟩ := hs.waiting b hin
    obtain ⟨e, he, _, rfl⟩ := complete_cases hmem
    refine ⟨hflush, hrest.imp ?_ fun hrest => ?_⟩
    · rintro ⟨e', he', hb⟩
      refine ⟨e', ?_, hb⟩
      rw [flying, List.map_nil, List.append_nil, IoUring.entries_finish he |>.mem_iff]
      rwa [flying, List.map_nil, List.append_nil] at he'
    · exact settled_mono hrest rfl (fun _ => List.mem_append_left _) (fun _ => id) fun _ => .inl

/-- Once `f_sync` has waited, no write of its buffer is in flight. -/
theorem Persists.finishing_step (hs : s.Persists store) (hwaits : waitsOut s a = true)
    (h : Moves options store s a s') (hin : s'.stage.finishes b) :
    state_flush_in_progress (s'.mem.ring b).state = true ∧
      (∀ e ∈ s'.mem.flying [], e.user_data ≠ some b) ∧
        (Persisted store s'.mem b ∨ s'.mem.Unsubmitted b) := by
  cases h.syncs (.inr hin) with
  | starts => cases hin
  | drains hstage =>
    obtain ⟨hflush, hrest⟩ := hs.drained hwaits hstage
    have hfailed : s.mem.io.cq.any (·.result < 0) = true := by
      by_contra hnone
      have hstage : (s.wait (some b)).stage = .testing (some b) := if_neg hnone
      rw [hstage] at hin
      cases hin
    have hleft : ∀ e ∈ s.mem.io.sq ++ s.mem.io.kernel, e.user_data ≠ some b := by
      simp only [waitsOut, hstage, hfailed, Bool.not_true, Bool.false_or, Bool.and_eq_true,
        List.all_eq_true, bne_iff_ne] at hwaits
      exact hwaits.2
    refine ⟨hflush, fun e he => hleft e ?_, ?_⟩
    · simpa [flying, wait, drain, IoUring.drain, IoUring.entries] using he
    · obtain ⟨e, he, hb⟩ | hrest := hrest
      · exact absurd hb (hleft e he)
      · exact hrest
  | tests hstage =>
    have hwaiting := hs.waiting b
    rw [hstage] at hwaiting
    obtain ⟨hflush, hrest⟩ := hwaiting rfl
    have hempty : (s.mem.io.sq.isEmpty && s.mem.io.cq.isEmpty) = true := by
      simp only at hin
      split at hin
      next hempty => exact hempty
      next => cases hin
    have hleft : ∀ e ∈ s.mem.flying [], e.user_data ≠ some b := by
      simp only [waitsOut, hstage, hempty, Bool.not_true, Bool.false_or] at hwaits
      simp only [Bool.and_eq_true, List.isEmpty_iff] at hempty
      simpa [flying, IoUring.entries, hempty.1, hempty.2] using hwaits
    refine ⟨hflush, hleft, ?_⟩
    obtain ⟨e, he, hb⟩ | hrest := hrest
    · exact absurd hb (hleft e he)
    · exact hrest
  | @submits ok io hstage hpush =>
    have hfinishing := hs.finishing b
    rw [hstage] at hfinishing
    obtain ⟨hflush, hleft, hrest⟩ := hfinishing rfl
    have hflying (e : Sqe L) (he : e ∈ flying { s.mem with io := io.submit ok } []) :
        e = Sqe.fsync ∨ e ∈ s.mem.flying [] := by
      rw [flying, List.map_nil, List.append_nil] at he ⊢
      simp only [(io.entries_submit ok).mem_iff, (IoUring.entries_push hpush).mem_iff,
        List.mem_cons] at he
      exact he
    refine ⟨hflush, fun e he => ?_, ?_⟩
    · obtain rfl | he := hflying e he
      · exact fun hb => by cases hb
      · exact hleft e he
    · obtain ⟨_, rfl⟩ := IoUring.push_eq_some hpush
      refine settled_mono hrest rfl ?_ ?_ fun e he => ?_
      · rw [IoUring.submit_completed]
        exact fun _ => id
      · rw [IoUring.submit_pushed]
        exact fun _ => List.mem_append_left _
      · rw [IoUring.submit_pushed, List.mem_append, List.mem_singleton] at he
        obtain he | rfl := he
        · exact .inl he
        · exact .inr rfl
  | completes hmem =>
    obtain ⟨hflush, hleft, hrest⟩ := hs.finishing b hin
    obtain ⟨e, he, _, rfl⟩ := complete_cases hmem
    refine ⟨hflush, fun e' he' => hleft e' ?_, ?_⟩
    · rw [flying, List.map_nil, List.append_nil] at he' ⊢
      exact (IoUring.entries_finish he).mem_iff.mp he'
    · exact settled_mono hrest rfl (fun _ => List.mem_append_left _) (fun _ => id) fun _ => .inl

/-- Every step that meets the conditions keeps the writes and the running `f_sync` in order. -/
theorem Persists.step (hs : s.Persists store) (hstore : options.io_instance = some store)
    (hpersisting : persisting a = true) (hroomy : roomy s a = true) (hsettled : settled s a = true)
    (hcovers : coversData s a = true) (hwaits : waitsOut s a = true)
    (h : Client.step options s a = some s') : s'.Persists store := by
  have hmoves := step_moves hstore h
  exact {
    steady := hs.steady_step hpersisting hsettled hmoves
    few := few_step hs.few hroomy hmoves
    flight := hs.flight_step hsettled hcovers hmoves
    waiting := fun _ => hs.waiting_step hwaits hmoves
    finishing := fun _ => hs.finishing_step hwaits hmoves }

/-- Only a reset begins a new filling. -/
theorem Moves.resets {ok : Bool} (h : Moves options store s (.resume ok) s')
    (hreset : (s'.mem.ring b).filling.number ≠ (s.mem.ring b).filling.number) : s.stage.resets b := by
  cases h
  case retries =>
    rw [retry_ring] at hreset
    exact absurd rfl hreset
  case succeeds cqe rest c hstage huser hresult =>
    rw [hstage]
    have hc : c = b := by
      by_contra hne
      rw [reset_buffer_ring, report_ring, if_neg hne] at hreset
      exact hreset rfl
    rw [← hc]
    exact ⟨huser, hresult⟩
  case sync_resets c hstage _ =>
    rw [hstage]
    by_contra hne
    have hne : c ≠ b := fun heq => hne (congrArg some heq)
    rw [reset_buffer_ring, if_neg hne] at hreset
    exact hreset rfl
  all_goals exact absurd rfl hreset

/-- As long as no write ends short of its buffer's data, buffers are handed over with no write in flight,
and `f_sync` waits its own write out: `check_cque` and `f_sync` reset a submitted buffer only after a
write of its filling has put all of its data in the file. -/
theorem reset_after_persist [NeZero L] (hstore : options.io_instance = some store)
    (h : Reaches (Client.step options)
      (fun s a => persisting a = true ∧ roomy s a = true ∧ settled s a = true ∧
        coversData s a = true ∧ waitsOut s a = true)
      (init (with_options options)) s)
    {ok : Bool} (hstep : Client.step options s (.resume ok) = some s')
    (hreset : (s'.mem.ring b).filling.number ≠ (s.mem.ring b).filling.number)
    (hsubmitted : ∃ e ∈ s.mem.io.pushed, e.user_data = some b ∧
      e.filling = (s.mem.ring b).filling.number) :
    Persisted store s.mem b := by
  have hs : s.Persists store := h.invariant (P := Persists store)
    (fun _ _ _ hs hok h => hs.step hstore hok.1 hok.2.1 hok.2.2.1 hok.2.2.2.1 hok.2.2.2.2 h)
    (persists_init options store)
  have hresets := (step_moves hstore hstep).resets hreset
  obtain ⟨cqe, rest, hstage, huser, hresult⟩ | hstage := Stage.resets_cases hresets
  · have hflight := hs.flight
    rw [hstage] at hflight
    exact hflight.answered cqe (List.mem_append_right _ List.mem_cons_self) hresult b huser
  · have hfinishing := hs.finishing b
    rw [hstage] at hfinishing
    obtain hpersisted | hnever := (hfinishing rfl).2.2
    · exact hpersisted
    · obtain ⟨e, he, huser, hfilling⟩ := hsubmitted
      exact absurd hfilling (hnever e he huser)

end Steps

/-- Three bytes are written and synced; the last `resume` returns from `f_sync`. -/
def syncThree : List (Action 2) :=
  [.reserve_space 0 (zeros 3), .put 0 true, .f_sync 0 true, .complete 0 4096, .resume true, .resume true,
    .resume true, .complete 0 0]

theorem reset_after_persist_syncThree :
    ∃ s s' : Client 2,
      Reaches (Client.step storeOptions)
        (fun s a => persisting a = true ∧ roomy s a = true ∧ settled s a = true ∧
          coversData s a = true ∧ waitsOut s a = true)
        (init (with_options storeOptions)) s ∧
      Client.step storeOptions s (.resume true) = some s' ∧
      (s'.mem.ring 0).filling.number = 1 ∧ Persisted QuikIO.new s.mem 0 := by
  have hrun : (exec (Client.step storeOptions)
      (fun s a => persisting a = true ∧ roomy s a = true ∧ settled s a = true ∧
        coversData s a = true ∧ waitsOut s a = true)
      syncThree (init (with_options storeOptions))).any
      (fun s => (s.mem.ring 0).filling.number == 0 &&
        s.mem.io.pushed.any (fun e => e.user_data == some 0 && e.filling == 0) &&
        (Client.step storeOptions s (.resume true)).any
          (fun s' => (s'.mem.ring 0).filling.number == 1)) = true := by
    decide +kernel
  obtain ⟨s, hreach, hcheck⟩ := exists_of_exec hrun
  simp only [Bool.and_eq_true, List.any_eq_true, Option.any_eq_true, beq_iff_eq] at hcheck
  obtain ⟨⟨hbefore, e, he, huser, hfilling⟩, s', hstep, hafter⟩ := hcheck
  refine ⟨s, s', hreach, hstep, hafter, ?_⟩
  have hstore : storeOptions.io_instance = some QuikIO.new := rfl
  refine reset_after_persist hstore hreach hstep ?_ ⟨e, he, huser, ?_⟩
  · rw [hbefore, hafter]
    exact Nat.one_ne_zero
  · rw [hbefore, hfilling]

/-- Three bytes are written and flushed, and the kernel writes one of them. -/
def writeOneOfThree : List (Action 2) :=
  [.reserve_space 0 (zeros 3), .put 0 true, .flush_current true, .complete 0 1, .check_cque,
    .resume true]

/-- `check_cque` resets the buffer after a write that ended short of its data. -/
theorem short_write_resets :
    ∃ s s' : Client 2,
      Reaches (Client.step storeOptions)
        (fun s a => persisting a = true ∧ roomy s a = true ∧ settled s a = true ∧ waitsOut s a = true)
        (init (with_options storeOptions)) s ∧
      Client.step storeOptions s (.resume true) = some s' ∧
      (s'.mem.ring 0).filling.number ≠ (s.mem.ring 0).filling.number ∧
      (∃ e ∈ s.mem.io.pushed, e.user_data = some 0 ∧ e.filling = (s.mem.ring 0).filling.number) ∧
      ¬ Persisted QuikIO.new s.mem 0 := by
  have hrun : (exec (Client.step storeOptions)
      (fun s a => persisting a = true ∧ roomy s a = true ∧ settled s a = true ∧ waitsOut s a = true)
      writeOneOfThree (init (with_options storeOptions))).any
      (fun s => (s.mem.ring 0).filling.number == 0 && (s.mem.ring 0).size == 3 &&
        s.mem.io.completed.all (fun c => c.cqe.result == 1) &&
        s.mem.io.pushed.any (fun e => e.user_data == some 0 && e.filling == 0) &&
        (Client.step storeOptions s (.resume true)).any
          (fun s' => (s'.mem.ring 0).filling.number == 1)) = true := by
    decide +kernel
  obtain ⟨s, hreach, hcheck⟩ := exists_of_exec hrun
  simp only [Bool.and_eq_true, List.any_eq_true, List.all_eq_true, Option.any_eq_true,
    beq_iff_eq] at hcheck
  obtain ⟨⟨⟨⟨hbefore, hsize⟩, hshort⟩, e, he, huser, hfilling⟩, s', hstep, hafter⟩ := hcheck
  refine ⟨s, s', hreach, hstep, ?_, ⟨e, he, huser, ?_⟩, ?_⟩
  · rw [hbefore, hafter]
    exact Nat.one_ne_zero
  · rw [hbefore, hfilling]
  · rintro ⟨c, hc, _, _, _, hcovered, _⟩
    rw [hshort c hc, hsize] at hcovered
    exact absurd hcovered (by decide)

end Client

end FlushRing
