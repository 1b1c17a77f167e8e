import FlushRing.Client.Tracking

open Transition

namespace FlushRing

variable {L : Nat}

open BufferRing

/-- The completion is of a buffer's write. -/
def Cqe.ofBuffer (cqe : Cqe L) : Bool := cqe.user_data.isSome

namespace Client

/-- Every `submit` the step makes succeeds. -/
def submitsSucceed : Action L → Bool
  | .put _ ok => ok
  | .flush _ ok => ok
  | .flush_current ok => ok
  | .f_sync _ ok => ok
  | .read _ _ ok => ok
  | .resume ok => ok
  | _ => true

/-- The completions of buffers taken so far led to a reset or to a resubmission each, or are still with
`check_cque`, or with the `f_sync` on their buffer. -/
structure Accounted (s : Client L) : Prop where
  balance : (s.fates.taken.filter Cqe.ofBuffer).Perm
    (s.fates.reset ++ s.fates.resubmitted ++ s.fates.awaiting ++ s.stage.polled.filter Cqe.ofBuffer)
  awaited : s.fates.awaiting ≠ [] → ∃ b, s.stage.syncs b

theorem accounted_init [NeZero L] (options : BufferRingOptions) :
    (init (with_options options) : Client L).Accounted where
  balance := .refl _
  awaited h := absurd rfl h

section Steps
variable {options : BufferRingOptions} {store : QuikIO} {s s' : Client L} {a : Action L}

theorem launched_sq {mem mem' : BufferRing L} {b : Fin L} {x : FlushBuffer L}
    (h : Launched store true mem mem' b x) (hsq : mem.io.sq = []) : mem'.io.sq = [] := by
  obtain ⟨_, hio, _⟩ | ⟨io, _, hio, _⟩ := h.outcome
  · rw [hio, hsq]
  · rw [hio]
    rfl

/-- With successful submits nothing stays queued. -/
theorem Moves.sq_empty (h : Moves options store s a s') (hok : submitsSucceed a = true)
    (hsq : s.mem.io.sq = []) : s'.mem.io.sq = [] := by
  cases h
  case put_seals hmem _ => rw [hmem.io, hsq]
  case put_launches hmem _ =>
    obtain rfl := hok
    exact launched_sq hmem hsq
  case put_discards hmem _ => rw [hmem.io, hsq]
  case copies hmem _ => rw [hmem.io, hsq]
  case copy_launches hmem _ =>
    obtain rfl := hok
    exact launched_sq hmem hsq
  case copy_discards hmem _ => rw [hmem.io, hsq]
  case flushes hmem _ =>
    obtain rfl := hok
    exact launched_sq hmem hsq
  case current_launches hmem _ =>
    obtain rfl := hok
    exact launched_sq hmem hsq
  case retries =>
    obtain rfl := hok
    simp only [BufferRing.retry]
    split
    · rfl
    · exact hsq
  case succeeds b _ _ _ =>
    have hio : ((s.mem.report options b).reset_buffer b).io = s.mem.io := report_io options s.mem b
    simp only [hio, hsq]
  case sync_launches hmem _ =>
    obtain rfl := hok
    exact launched_sq hmem hsq
  case sync_submits =>
    obtain rfl := hok
    rfl
  case read_submits =>
    obtain rfl := hok
    rfl
  case completes hmem =>
    obtain ⟨e, _, _, rfl⟩ := complete_cases hmem
    exact hsq
  all_goals exact hsq

/-- An element put in the middle of a list counts like one put anywhere. -/
theorem perm_insert {α : Type} (l m r : List α) (x : α) :
    (l ++ m ++ x :: r).Perm (l ++ [x] ++ m ++ r) := by
  refine List.perm_middle.trans ?_
  have hright : l ++ [x] ++ m ++ r = l ++ x :: (m ++ r) := by
    simp
  rw [hright, List.append_assoc]
  exact List.perm_middle.symm

/-- The wait of `f_sync` keeps the completions of its own buffer for the reset of it. -/
theorem Accounted.wait (hs : s.Accounted) {caller : Option (Fin L)} (hstage : s.stage = .waiting caller)
    (hcq : ∀ cqe ∈ s.mem.io.cq, cqe.user_data = none ∨ cqe.user_data = caller) :
    (s.wait caller).Accounted where
  balance := by
    have hawaiting : s.mem.io.cq.filter
        (fun cqe => cqe.user_data.isSome && cqe.user_data == caller) =
          s.mem.io.cq.filter Cqe.ofBuffer := by
      apply List.filter_congr
      intro cqe hcqe
      obtain hnone | hcaller := hcq cqe hcqe
      · simp [Cqe.ofBuffer, hnone]
      · simp [Cqe.ofBuffer, hcaller]
    have hbalance := hs.balance
    have hnone : s.stage.polled = [] := congrArg Stage.polled hstage
    rw [hnone, List.filter_nil, List.append_nil] at hbalance
    rw [polled_wait]
    simp only [Client.wait, drain, IoUring.drain, hawaiting, List.filter_append, List.filter_nil,
      List.append_nil, ← List.append_assoc]
    exact hbalance.append_right _
  awaited h := by
    cases caller with
    | none =>
      have hnone : s.mem.io.cq.filter
          (fun cqe => cqe.user_data.isSome && cqe.user_data == none) = [] := by
        rw [List.filter_eq_nil_iff]
        intro cqe _
        cases cqe.user_data <;> simp
      have h : s.fates.awaiting ++ s.mem.io.cq.filter
          (fun cqe => cqe.user_data.isSome && cqe.user_data == none) ≠ [] := h
      rw [hnone, List.append_nil] at h
      obtain ⟨b, hb⟩ := hs.awaited h
      rw [hstage] at hb
      cases hb
    | some b =>
      refine ⟨b, ?_⟩
      simp only [Client.wait, drain]
      split
      · exact Stage.syncs_waited rfl
      · rfl

/-- Every completion taken off the queue is accounted for, when nothing is queued and buffers are
traced. -/
theorem Accounted.step (hs : s.Accounted) (hsq : s.mem.io.sq = []) (htracked : s.Tracked)
    (hkeeps : keeps s a = true) (h : Moves options store s a s') : s'.Accounted := by
  -- what awaits the reset of a synced buffer is cleared with it
  have hawaited (hold : s.fates.awaiting ≠ []) (hnew : s'.fates.awaiting ≠ []) :
      ∃ b, s'.stage.syncs b := by
    obtain ⟨b, hb⟩ := hs.awaited hold
    exact ⟨b, (h.keeps_syncs hb).resolve_right fun hends => hnew hends.2⟩
  have hbalance := hs.balance
  have hsame (hfates : s'.fates = s.fates) (hpolled : s'.stage.polled = s.stage.polled) : s'.Accounted := by
    refine ⟨?_, ?_⟩
    · rw [hfates, hpolled]
      exact hbalance
    · rw [hfates] at hawaited ⊢
      exact fun hnew => hawaited hnew hnew
  cases h
  case drains hstage =>
    refine ⟨?_, fun h => hawaited h h⟩
    rw [hstage] at hbalance
    simp only [drain, Stage.polled_drained, List.filter_append]
    rw [Stage.polled, List.filter_nil, List.append_nil] at hbalance
    exact hbalance.append_right _
  case ignores cqe rest hstage huser =>
    refine ⟨?_, fun h => hawaited h h⟩
    have hnone : ¬ cqe.ofBuffer = true := by
      simp [Cqe.ofBuffer, huser]
    rw [hstage, Stage.polled, List.filter_cons_of_neg hnone] at hbalance
    exact hbalance
  case retries ok cqe rest b hstage huser hresult =>
    have hunread : cqe.entry ∈ s.mem.flying s.stage.polled := by
      rw [hstage]
      exact unread_flying (List.mem_append_right _ List.mem_cons_self)
    obtain ⟨sqe, hsqe, _⟩ := (htracked b).stored cqe.entry hunread huser
    have hresubmits : s.mem.resubmits b = true := by
      simp [resubmits, hsqe, IoUring.push, hsq, SQ_ENTRIES]
    have hbuffer : cqe.ofBuffer = true := by
      simp [Cqe.ofBuffer, huser]
    rw [if_pos hresubmits] at hawaited ⊢
    refine ⟨?_, fun h => hawaited h h⟩
    rw [hstage, Stage.polled, List.filter_cons_of_pos hbuffer] at hbalance
    have hinsert := perm_insert (s.fates.reset ++ s.fates.resubmitted) s.fates.awaiting
      (rest.filter Cqe.ofBuffer) cqe
    rw [List.append_assoc s.fates.reset s.fates.resubmitted [cqe]] at hinsert
    exact hbalance.trans hinsert
  case succeeds cqe rest b hstage huser hresult =>
    have hbuffer : cqe.ofBuffer = true := by
      simp [Cqe.ofBuffer, huser]
    refine ⟨?_, fun h => hawaited h h⟩
    rw [hstage, Stage.polled, List.filter_cons_of_pos hbuffer] at hbalance
    have hinsert := perm_insert s.fates.reset (s.fates.resubmitted ++ s.fates.awaiting)
      (rest.filter Cqe.ofBuffer) cqe
    rw [← List.append_assoc, ← List.append_assoc] at hinsert
    exact hbalance.trans hinsert
  case wait_drains caller ok hstage =>
    have hcq : ∀ cqe ∈ s.mem.io.cq, cqe.user_data = none ∨ cqe.user_data = caller := by
      simpa [keeps, hstage] using hkeeps
    exact hs.wait hstage hcq
  case wait_tests caller ok hstage =>
    refine hsame rfl ?_
    rw [hstage]
    exact Stage.polled_tested _ caller
  case sync_refused caller ok hstage =>
    refine hsame rfl ?_
    rw [hstage]
    exact Stage.polled_failed caller
  case sync_submits caller ok io hstage _ =>
    refine hsame rfl ?_
    rw [hstage]
    exact Stage.polled_submitted _ caller
  case polls hstage | sync_launches hstage _ _ | wait_starts hstage | sync_starts hstage | sync_ends hstage _ =>
    refine hsame rfl ?_
    rw [hstage]
    rfl
  case sync_resets b ok hstage _ =>
    rw [hstage] at hbalance
    refine ⟨hbalance.trans ?_, fun h => absurd rfl h⟩
    simp only [Stage.polled, List.filter_nil, List.append_nil, List.append_assoc]
    exact List.perm_append_comm.append_left _
  case read_submits len offset ok io hstage _ =>
    refine hsame rfl ?_
    rw [hstage]
    exact Stage.polled_reading _
  case read_takes cqe rest hstage hcq =>
    have hnone : ¬ cqe.ofBuffer = true := by
      have hnone : cqe.user_data = none := by
        simpa [keeps, hstage, hcq] using hkeeps
      simp [Cqe.ofBuffer, hnone]
    refine ⟨?_, fun h => hawaited h h⟩
    rw [hstage] at hbalance
    simp only [List.filter_append, List.filter_cons_of_neg hnone, List.filter_nil, List.append_nil]
    exact hbalance
  all_goals exact hsame rfl rfl

/-- As long as only `check_cque` takes completions of buffers, and `f_sync` those of its own: whenever no
call is in progress, each one taken has led to a reset or to a resubmission, and each buffer being
flushed has a write of its filling queued, in the kernel or unread. -/
theorem completions_handled [NeZero L] (hstore : options.io_instance = some store)
    (h : Reaches (Client.step options) (fun s a => submitsSucceed a = true ∧ keeps s a = true)
      (init (with_options options)) s)
    (hreturned : s.stage.returned = true) :
    (s.fates.taken.filter Cqe.ofBuffer).Perm (s.fates.reset ++ s.fates.resubmitted) ∧
      ∀ b, state_flush_in_progress (s.mem.ring b).state = true →
        ∃ e ∈ s.mem.io.entries, e.writes b (s.mem.ring b).filling.number := by
  obtain ⟨haccounted, htracked, _⟩ : s.Accounted ∧ s.Tracked ∧ s.mem.io.sq = [] := by
    refine h.invariant (P := fun s => s.Accounted ∧ s.Tracked ∧ s.mem.io.sq = []) ?_
      ⟨accounted_init options, tracked_init options, rfl⟩
    rintro s a s' ⟨haccounted, htracked, hsq⟩ ⟨hok, hkeeps⟩ hstep
    have hmoves := step_moves hstore hstep
    refine ⟨haccounted.step hsq htracked hkeeps hmoves, htracked.step (fun _ _ => .inl ?_) hkeeps hmoves,
      hmoves.sq_empty hok hsq⟩
    rw [hsq]
    exact Nat.zero_lt_succ 7
  have hstage := Stage.eq_between hreturned
  refine ⟨?_, fun b hflush => ?_⟩
  · have hbalance := haccounted.balance
    have hawaiting : s.fates.awaiting = [] := by
      by_contra hne
      obtain ⟨b, hb⟩ := haccounted.awaited hne
      rw [hstage] at hb
      cases hb
    have hpolled : s.stage.polled = [] := congrArg Stage.polled hstage
    rw [hawaiting, hpolled, List.filter_nil, List.append_nil, List.append_nil] at hbalance
    exact hbalance
  · have htraced := htracked b
    rw [hstage] at htraced
    obtain ⟨e, he, hwrites⟩ | hsyncs := htraced.write hflush
    · have hflying : s.mem.flying Stage.between.polled = s.mem.io.entries := List.append_nil _
      rw [hflying] at he
      exact ⟨e, he, hwrites⟩
    · cases hsyncs

end Steps

/-- A write fails once and is resubmitted by `check_cque`. -/
def retryOnce : List (Action 2) :=
  [.reserve_space 0 (zeros 3), .put 0 true, .flush_current true, .complete 0 (-5), .check_cque,
    .resume true, .resume true, .resume true]

theorem completions_handled_retryOnce :
    ∃ s : Client 2,
      Reaches (Client.step storeOptions) (fun s a => submitsSucceed a = true ∧ keeps s a = true)
        (init (with_options storeOptions)) s ∧
      s.stage.returned = true ∧ s.fates.resubmitted.length = 1 ∧
      (s.fates.taken.filter Cqe.ofBuffer).Perm (s.fates.reset ++ s.fates.resubmitted) ∧
      ∃ e ∈ s.mem.io.entries, e.writes 0 (s.mem.ring 0).filling.number := by
  have hrun : (exec (Client.step storeOptions)
      (fun s a => submitsSucceed a = true ∧ keeps s a = true)
      retryOnce (init (with_options storeOptions))).any
      (fun s => s.stage.returned && s.fates.resubmitted.length == 1 &&
        state_flush_in_progress (s.mem.ring 0).state) = true := by
    decide +kernel
  obtain ⟨s, hreach, hcheck⟩ := exists_of_exec hrun
  simp only [Bool.and_eq_true, beq_iff_eq] at hcheck
  obtain ⟨⟨hreturned, hlength⟩, hflush⟩ := hcheck
  have hstore : storeOptions.io_instance = some QuikIO.new := rfl
  obtain ⟨hbalance, hwrites⟩ := completions_handled hstore hreach hreturned
  exact ⟨s, hreach, hreturned, hlength, hbalance, hwrites 0 hflush⟩

/-- A write completes and `wait_for_all` takes its completion. -/
def waitAfterFlush : List (Action 2) :=
  [.reserve_space 0 (zeros 3), .put 0 true, .flush_current true, .complete 0 4096, .wait_for_all,
    .resume true, .resume true]

/-- The buffer stays marked as being flushed with no write on its way, and the completion led to
nothing. -/
theorem wait_for_all_swallows :
    ∃ s : Client 2,
      Reaches (Client.step storeOptions) (fun _ a => submitsSucceed a = true)
        (init (with_options storeOptions)) s ∧
      s.stage.returned = true ∧
      ¬ (s.fates.taken.filter Cqe.ofBuffer).Perm (s.fates.reset ++ s.fates.resubmitted) ∧
      state_flush_in_progress (s.mem.ring 0).state = true ∧
      ∀ e ∈ s.mem.io.entries, e.user_data ≠ some 0 := by
  have hrun : (exec (Client.step storeOptions) (fun _ a => submitsSucceed a = true)
      waitAfterFlush (init (with_options storeOptions))).any
      (fun s => s.stage.returned && (s.fates.taken.filter Cqe.ofBuffer).length == 1 &&
        (s.fates.reset ++ s.fates.resubmitted).length == 0 &&
        state_flush_in_progress (s.mem.ring 0).state &&
        s.mem.io.entries.all fun e => e.user_data != some 0) = true := by
    decide +kernel
  obtain ⟨s, hreach, hcheck⟩ := exists_of_exec hrun
  simp only [Bool.and_eq_true, List.all_eq_true, bne_iff_ne, beq_iff_eq] at hcheck
  obtain ⟨⟨⟨⟨hreturned, htaken⟩, hhandled⟩, hflush⟩, hgone⟩ := hcheck
  refine ⟨s, hreach, hreturned, fun hperm => ?_, hflush, hgone⟩
  have hlength := hperm.length_eq
  rw [htaken, hhandled] at hlength
  exact Nat.one_ne_zero hlength

end Client

end FlushRing
