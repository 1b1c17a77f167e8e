import FlushRing.Writer.Batches

open Extents Submission

namespace FlushRing

variable {T : Type} [DecidableEq T]

namespace Writers

/-- The ranges a writer has reported so far. -/
def reported (s : Writers T) (t : T) : List CompletedRange := s.returned t ++ (s.writer t).completed

/-- A call of writer `t` that goes on from `w` ends or waits, and reports nothing but what `w` has; it ends when
all slots are open and nothing is pending. -/
structure GoesOn (s : Writers T) (t : T) (w : RingWriter) (s' : Writers T) : Prop where
  stage : s'.stage t ≠ .failed
  reported : s'.reported t = s.returned t ++ w.completed
  ready : (∀ b, (w.slots b).state = .Open) → w.pending = 0 → (s'.stage t).ready = true

section Calls
variable {s s' : Writers T} {t t' : T} {w : RingWriter} {a : Action T}

/-- A step that reports nothing and does not fail goes on. -/
theorem goesOn_set {stage : WriterStage} (hstage : stage ≠ .failed)
    (hready : (∀ b, (w.slots b).state = .Open) → w.pending = 0 → stage.ready = true) {w' : RingWriter}
    (hcompleted : w'.completed = w.completed) : s.GoesOn t w (s.set t w' stage) where
  stage := by
    rw [set_stage]
    exact hstage
  reported := by
    change s.returned t ++ ((s.set t w' stage).writer t).completed = _
    rw [set_writer, hcompleted]
  ready := by
    rw [set_stage]
    exact hready

theorem place_goes (offset : Usize) (payload : Slice) : s.GoesOn t w (s.place t w offset payload) := by
  have hset : ({ s with filling := Function.update s.filling t (s.filling t ++ [payload]) } : Writers T).GoesOn t w
      (s.place t w offset payload) := goesOn_set (fun h => by cases h) (fun _ _ => rfl) rfl
  exact ⟨hset.stage, hset.reported, hset.ready⟩

theorem ends_goes : s.GoesOn t w (s.ends t w) where
  stage h := by
    have hstage : (s.ends t w).stage t = .finished := Function.update_self ..
    rw [hstage] at h
    cases h
  reported := by
    have hwriter : (s.ends t w).writer t = { w with completed := [] } := Function.update_self ..
    have hreturned : (s.ends t w).returned t = s.returned t ++ w.completed := Function.update_self ..
    rw [Writers.reported, hwriter, hreturned, List.append_nil]
  ready _ _ := by
    have hstage : (s.ends t w).stage t = .finished := Function.update_self ..
    rw [hstage]
    rfl

theorem drain_goes : s.GoesOn t w (s.drain t w) := by
  unfold Writers.drain
  split
  next hpending =>
    refine goesOn_set (fun h => by cases h) (fun _ hnone => ?_) rfl
    rw [hnone] at hpending
    cases hpending
  next => exact ends_goes

theorem sealed_goes (caller : SealCaller) : s.GoesOn t w (s.sealed t w caller) := by
  cases caller with
  | append payload =>
    have hplace : s.GoesOn t (w.claim payload.len).2 (s.sealed t w (.append payload)) := place_goes _ _
    exact ⟨hplace.stage, hplace.reported, hplace.ready⟩
  | flush => exact goesOn_set (fun h => by cases h) (fun _ _ => rfl) rfl
  | finish => exact drain_goes

theorem wait_goes (caller : SealCaller) : s.GoesOn t w (s.wait t w caller) := by
  unfold Writers.wait
  split
  next hnext =>
    refine goesOn_set (fun h => by cases h) (fun hopen _ => ?_) rfl
    rw [hopen] at hnext
    cases hnext
  next =>
    have hsealed : s.GoesOn t w.advance (s.sealed t w.advance caller) := sealed_goes caller
    exact ⟨hsealed.stage, hsealed.reported, hsealed.ready⟩

/-- The slot at the head is sealed without an error. -/
theorem seal_goes (hsound : w.Sound) (hopen : (w.slots w.head).state = .Open) {valid_len : Usize}
    (hlen : valid_len ≤ BATCH_SIZE) (submits : Bool) (caller : SealCaller) :
    (s.seal_and_advance t submits w valid_len caller).stage t ≠ .failed ∧
      (s.seal_and_advance t submits w valid_len caller).reported t = s.returned t ++ w.completed := by
  unfold Writers.seal_and_advance
  split
  next hpos =>
    obtain ⟨ring, _, hsubmit, _⟩ := hsound.submit_slot submits s.file_offset hopen hpos hlen
    rw [hsubmit]
    have hwait := wait_goes (s := s.claim t valid_len) (t := t)
      (w := { w.take_slot s.file_offset w.head valid_len with ring, pending := w.pending + 1 }) caller
    exact ⟨hwait.stage, hwait.reported⟩
  next =>
    have hwait : s.GoesOn t w (s.wait t w caller) := wait_goes caller
    exact ⟨hwait.stage, hwait.reported⟩

/-- `append` does not fail and reports nothing. -/
theorem append_goes (hsound : (s.writer t).Sound) (hfilled : (s.writer t).Filled (s.filling t)) (submits : Bool)
    (payload : Slice) :
    (s.append t submits payload).stage t ≠ .failed ∧ (s.append t submits payload).reported t = s.reported t := by
  unfold Writers.append RingWriter.claim
  dsimp only
  split
  next =>
    exact seal_goes (w := { s.writer t with cursor := (s.writer t).cursor + payload.len })
      (hsound.congr (fun _ => ⟨rfl, rfl, rfl⟩) rfl) hfilled.opened hfilled.fits submits (.append payload)
  next =>
    have hplace := place_goes (s := s) (t := t)
      (w := { s.writer t with cursor := (s.writer t).cursor + payload.len }) (s.writer t).cursor payload
    exact ⟨hplace.stage, hplace.reported⟩

/-- `flush` does not fail and reports nothing. -/
theorem flush_goes (hsound : (s.writer t).Sound) (hfilled : (s.writer t).Filled (s.filling t)) (submits : Bool) :
    (s.flush t submits).stage t ≠ .failed ∧ (s.flush t submits).reported t = s.reported t := by
  unfold Writers.flush
  dsimp only
  split
  next => exact seal_goes hsound hfilled.opened hfilled.fits submits .flush
  next =>
    have hset : s.GoesOn t (s.writer t) (s.set t (s.writer t) .idle) :=
      goesOn_set (fun h => by cases h) (fun _ _ => rfl) rfl
    exact ⟨hset.stage, hset.reported⟩

/-- `finish` does not fail and reports nothing when it is called. -/
theorem finish_goes (hsound : (s.writer t).Sound) (hfilled : (s.writer t).Filled (s.filling t)) (submits : Bool) :
    (s.finish t submits).stage t ≠ .failed ∧ (s.finish t submits).reported t = s.reported t := by
  unfold Writers.finish
  dsimp only
  split
  next => exact seal_goes hsound hfilled.opened hfilled.fits submits .finish
  next =>
    have hdrain : s.GoesOn t (s.writer t) (s.drain t (s.writer t)) := drain_goes
    exact ⟨hdrain.stage, hdrain.reported⟩

/-- An error of `submit_and_wait` ends the call with it. -/
theorem resume_fails (hresume : s.resume t false = some s') : s' = s.set t (s.writer t) .failed := by
  unfold Writers.resume at hresume
  cases hstage : s.stage t with
  | waits caller =>
    rw [hstage] at hresume
    exact (Option.some.inj hresume).symm
  | drains =>
    rw [hstage] at hresume
    exact (Option.some.inj hresume).symm
  | idle =>
    rw [hstage] at hresume
    cases hresume
  | finished =>
    rw [hstage] at hresume
    cases hresume
  | failed =>
    rw [hstage] at hresume
    cases hresume

/-- A call that is woken up reads its completions, one at least, and goes on. -/
theorem resume_goes (h : s.Stood t) (hresume : s.resume t true = some s') :
    ∃ w, (s.writer t).reap_all = some w ∧ 0 < (s.writer t).ring.cq.length ∧ s.GoesOn t w s' := by
  obtain ⟨rest, hkeeps, hstands⟩ := h
  obtain ⟨w, hreap, _⟩ := hkeeps.reap_all
  refine ⟨w, hreap, ?_⟩
  unfold Writers.resume at hresume
  generalize hstage : s.stage t = stage at hresume hstands
  generalize s.filling t = filling at hstands
  dsimp only at hresume
  cases hstands with
  | idle => cases hresume
  | finished => cases hresume
  | failed => cases hresume
  | waits =>
    dsimp only at hresume
    rw [if_pos rfl] at hresume
    split at hresume
    next => cases hresume
    next hunread =>
      rw [hreap] at hresume
      obtain rfl := Option.some.inj hresume
      refine ⟨List.length_pos_iff.mpr fun hnil => hunread ?_, wait_goes _⟩
      rw [hnil]
      rfl
  | drains _ _ _ hpending =>
    dsimp only at hresume
    rw [if_pos rfl] at hresume
    split at hresume
    next hall =>
      rw [hreap] at hresume
      obtain rfl := Option.some.inj hresume
      rw [BitVec.lt_def] at hpending
      exact ⟨Nat.lt_of_lt_of_le hpending hall, ends_goes⟩
    next => cases hresume

end Calls

end Writers

end FlushRing
