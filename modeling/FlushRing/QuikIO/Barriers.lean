import FlushRing.QuikIO.Calls

open Transition Submission

namespace FlushRing

variable {L : Nat}

namespace QuikIO

namespace Caller

/-- The kernel serves entries while the call waits. -/
theorem served {ok : Caller L → Action → Prop} {okServe : Queues (Sqe L) → Serve → Prop} {c : Caller L}
    {io : Queues (Sqe L)} (hok : ∀ io a, okServe io a → ok { c with io } (.serve a))
    (h : Reaches (Queues.serve Sqe.order) okServe c.io io) : Reaches step ok c { c with io } := by
  refine h.lift (fun io => { c with io }) Action.serve fun io a io' hio hserve => ⟨hok io a hio, ?_⟩
  simp only [step, hserve, Option.map_some]

/-- An entry pushed with room in the queue is handed over, with all queued before it. -/
theorem submit_and_wait_sent {c : Caller L} {sqe : Sqe L} (hroom : c.io.sq.length < SQ_ENTRIES) (full : String)
    (next : Call) :
    c.submit_and_wait true sqe full next = { c with io := c.io.sent sqe, call := next } := by
  simp only [submit_and_wait, Queues.push, hroom, if_true, Queues.sent]

/-- The wait begins with the entry handed over, or an error is returned. -/
theorem submit_and_wait_cases (c : Caller L) (ok : Bool) (sqe : Sqe L) (full : String) (next : Call) :
    c.submit_and_wait ok sqe full next = { c with io := c.io.sent sqe, call := next } ∨
      ∃ e, (c.submit_and_wait ok sqe full next).call = .returned (.error e) := by
  by_cases hroom : c.io.sq.length < SQ_ENTRIES
  · cases ok with
    | true => exact .inl (submit_and_wait_sent hroom full next)
    | false =>
      refine .inr ⟨.submit, ?_⟩
      simp only [submit_and_wait, Queues.push, hroom, if_true, Bool.false_eq_true, if_false]
  · refine .inr ⟨.other full, ?_⟩
    simp only [submit_and_wait, Queues.push, hroom, if_false]

theorem result_pushed (io : Queues (Sqe L)) : io.result io.pushed.length = none := by
  have hle : io.log.length ≤ io.pushed.length := by
    rw [Queues.pushed, List.length_append, List.length_map]
    exact Nat.le_add_right _ _
  rw [Queues.result, List.getElem?_eq_none hle]
  rfl

/-- Calls that push an entry of their own. -/
def pushes : Call → Bool
  | .sync_data => true
  | .read _ _ => true
  | _ => false

/-- A full queue makes such a call return an error, if it returns. -/
theorem full_returns_error {io : Queues (Sqe L)} {call : Call} (hcall : pushes call = true)
    (hfull : SQ_ENTRIES ≤ io.sq.length) {ok : Caller L → Action → Prop} {c : Caller L}
    (h : Reaches step ok (start io call) c) : c.call ≠ .returned (.ok ()) := by
  have hrun : (pushes c.call = true ∧ SQ_ENTRIES ≤ c.io.sq.length) ∨ ∃ e, c.call = .returned (.error e) := by
    refine h.invariant (P := fun c => (pushes c.call = true ∧ SQ_ENTRIES ≤ c.io.sq.length) ∨
      ∃ e, c.call = .returned (.error e)) ?_ (.inl ⟨hcall, hfull⟩)
    intro c a c' hc _ hstep
    cases a with
    | serve a =>
      obtain ⟨io', hserve, rfl⟩ := Option.map_eq_some_iff.mp hstep
      rw [(Queues.serve_keeps hserve).1]
      exact hc
    | resume ok =>
      have hresumes := resume_resumes hstep
      obtain ⟨hpushes, hfull⟩ | ⟨e, he⟩ := hc
      · have hrefused (sqe : Sqe L) (full : String) (next : Call) :
            (c.submit_and_wait ok sqe full next).call = .returned (.error (.other full)) := by
          simp only [submit_and_wait, Queues.push, Nat.not_lt.mpr hfull, if_false]
        generalize c.call = call at hpushes hresumes
        cases hresumes with
        | syncs => exact .inr ⟨_, hrefused _ _ _⟩
        | reads _ => exact .inr ⟨_, hrefused _ _ _⟩
        | _ => cases hpushes
      · rw [he] at hresumes
        cases hresumes
  obtain ⟨hpushes, _⟩ | ⟨e, he⟩ := hrun
  · intro hreturned
    rw [hreturned] at hpushes
    cases hpushes
  · rw [he]
    rintro ⟨⟩

/-- In every schedule in which the kernel answers the entry at position `k` with `r`, if at all. -/
def answered (k : Nat) (r : Int) (_ : Caller L) (a : Action) : Prop := ∀ s, a = .serve (.complete k s) → s = r

section SyncData

/-- When `sync_data` returns `Ok`, the writes pushed before it have completed, and so has its own entry,
without an error; `r` is the result the kernel gives that entry. -/
def SyncsData (io : Queues (Sqe L)) (r : Int) : Prop :=
  ∀ c, Reaches step (answered io.pushed.length r) (start io .sync_data) c → c.call = .returned (.ok ()) →
    (∀ i e, io.pushed[i]? = some e → e.isWrite = true → (c.io.result i).isSome = true) ∧
      ∃ s, c.io.result io.pushed.length = some s ∧ 0 ≤ s

variable {io : Queues (Sqe L)} {r : Int}

/-- The states of a call of `sync_data` on an idle ring. -/
def SyncsAlone (io : Queues (Sqe L)) (r : Int) (c : Caller L) : Prop :=
  match c.call with
  | .sync_data => c.io = io
  | .syncing => c.io.Alone io.pushed.length ∧ ∀ s, c.io.result io.pushed.length = some s → s = r
  | .returned (.ok _) => (∀ i < io.pushed.length, (c.io.result i).isSome = true) ∧
      c.io.result io.pushed.length = some r
  | .returned (.error _) => True
  | _ => False

/-- A step of the kernel leaves `sync_data` alone in the ring. -/
theorem syncsAlone_serve (hidle : io.idle = true) {c : Caller L} {a : Serve} {io' : Queues (Sqe L)}
    (hc : SyncsAlone io r c) (hanswer : ∀ s, a = .complete io.pushed.length s → s = r)
    (h : c.io.serve Sqe.order a = some io') : SyncsAlone io r { c with io := io' } := by
  unfold SyncsAlone at hc ⊢
  cases hcall : c.call with
  | sync_data =>
    rw [hcall] at hc
    rw [hc, Queues.serve_idle hidle] at h
    cases h
  | syncing =>
    rw [hcall] at hc
    obtain ⟨halone, hown⟩ := hc
    refine ⟨halone.serve h, fun s hs => ?_⟩
    cases a with
    | start i =>
      rw [(Queues.start_keeps h).1] at hs
      exact hown s hs
    | complete i t =>
      rw [(Queues.complete_result h).2.1] at hs
      by_cases hi : i = io.pushed.length
      · rw [hi, Function.update_self] at hs
        exact Option.some.inj hs ▸ hanswer t (by rw [hi])
      · rw [Function.update_of_ne (Ne.symm hi)] at hs
        exact hown s hs
  | returned result =>
    rw [hcall] at hc
    cases result with
    | error e => trivial
    | ok u =>
      obtain ⟨hbefore, hown⟩ := hc
      refine ⟨fun i hi => ?_, Queues.serve_result h hown⟩
      obtain ⟨t, ht⟩ := Option.isSome_iff_exists.mp (hbefore i hi)
      rw [Queues.serve_result h ht]
      rfl
  | _ =>
    rw [hcall] at hc
    exact hc

/-- Every step leaves `sync_data` alone in the ring. -/
theorem syncsAlone_step (hsq : io.sq = []) (hidle : io.idle = true) (hcq : io.cq = []) {c c' : Caller L}
    {a : Action} (hc : SyncsAlone io r c) (hanswer : answered io.pushed.length r c a) (h : c.step a = some c') :
    SyncsAlone io r c' := by
  cases a with
  | serve a =>
    obtain ⟨io', hserve, rfl⟩ := Option.map_eq_some_iff.mp h
    exact syncsAlone_serve hidle hc (fun s hs => hanswer s (by rw [hs])) hserve
  | resume ok =>
    have hresumes := resume_resumes h
    unfold SyncsAlone at hc
    generalize c.call = call at hc hresumes
    cases hresumes with
    | syncs =>
      obtain hsent | ⟨e, he⟩ := c.submit_and_wait_cases ok Sqe.fsync "SQ full" .syncing
      · rw [hsent, hc]
        refine ⟨Queues.sent_alone _ hsq hidle hcq, fun s hs => ?_⟩
        rw [Queues.sent_result, result_pushed] at hs
        cases hs
      · unfold SyncsAlone
        rw [he]
        trivial
    | synced hready =>
      obtain ⟨halone, hown⟩ := hc
      obtain ⟨hempty, _⟩ | ⟨d, _, _, hd⟩ := halone.own
      · exact absurd hempty hready
      · exact ⟨halone.before, hown _ hd ▸ hd⟩
    | _ => exact hc.elim

/-- As soon as any completion is there, `sync_data` returns `Ok`. -/
theorem sync_data_returns (hroom : io.sq.length < SQ_ENTRIES) {io' : Queues (Sqe L)}
    (hserved : Reaches (Queues.serve Sqe.order) (fun _ a => ∀ s, a = .complete io.pushed.length s → s = r)
      (io.sent Sqe.fsync) io') (hcq : io'.cq ≠ []) :
    Reaches step (answered io.pushed.length r) (start io .sync_data)
      { io := io', call := .returned (.ok ()), taken := [] } := by
  have hfirst : (start io .sync_data).step (.resume true) =
      some { io := io.sent Sqe.fsync, call := .syncing, taken := [] } :=
    congrArg some (submit_and_wait_sent (c := start io .sync_data) hroom _ _)
  have hwaits : Reaches step (answered io.pushed.length r) (start io .sync_data)
      { io := io', call := .syncing, taken := [] } := by
    refine (Reaches.tail (.resume true) .refl (fun s hs => by cases hs) hfirst).trans ?_
    exact served (c := { io := io.sent Sqe.fsync, call := .syncing, taken := [] })
      (fun _ a ha s hs => ha s (by cases hs; rfl)) hserved
  refine .tail (.resume true) hwaits (fun s hs => by cases hs) ?_
  simp only [step, resume, List.isEmpty_iff, hcq, if_false]

/-- `sync_data` is a barrier exactly when it returns an error for want of room, or finds nothing queued, in
the kernel or unread and its entry succeeds. -/
theorem sync_data_barrier_iff (io : Queues (Sqe L)) (r : Int) :
    SyncsData io r ↔
      SQ_ENTRIES ≤ io.sq.length ∨ (io.sq = [] ∧ io.idle = true ∧ io.cq = [] ∧ 0 ≤ r) := by
  constructor
  · intro h
    by_cases hfull : SQ_ENTRIES ≤ io.sq.length
    · exact .inl hfull
    have hown {io' : Queues (Sqe L)} (hserved : Reaches (Queues.serve Sqe.order)
        (fun _ a => ∀ s, a = .complete io.pushed.length s → s = r) (io.sent Sqe.fsync) io') (hcq : io'.cq ≠ []) :
        ∃ s, io'.result io.pushed.length = some s ∧ 0 ≤ s :=
      (h _ (sync_data_returns (Nat.not_le.mp hfull) hserved hcq) rfl).2
    have hcq : io.cq = [] := by
      by_contra hcq
      obtain ⟨s, hs, _⟩ := hown .refl hcq
      rw [Queues.sent_result, result_pushed] at hs
      cases hs
    have halone : io.sq = [] ∧ io.idle = true := by
      by_contra hbusy
      have hbusy : io.sq ≠ [] ∨ io.idle = false := by
        rwa [not_and_or, Bool.not_eq_true] at hbusy
      obtain ⟨i, hi, _, hcompletes⟩ := Queues.overtaken Sqe.order Sqe.fsync hbusy
      obtain ⟨io', d, hserved, hresult, hcq'⟩ := hcompletes 0
      have hother : Reaches (Queues.serve Sqe.order)
          (fun _ a => ∀ s, a = .complete io.pushed.length s → s = r) (io.sent Sqe.fsync) io' := by
        refine hserved.mono fun _ a ha s hs => ?_
        rcases ha with rfl | rfl
        · cases hs
        · cases hs
          exact absurd hi (Nat.lt_irrefl _)
      have hunread : io'.cq ≠ [] := by
        rw [hcq']
        exact List.append_ne_nil_of_right_ne_nil _ (List.cons_ne_nil _ _)
      obtain ⟨s, hs, _⟩ := hown hother hunread
      rw [hresult, Function.update_of_ne (Nat.ne_of_gt hi), result_pushed] at hs
      cases hs
    have hsent := Queues.sent_alone Sqe.fsync halone.1 halone.2 hcq
    obtain ⟨io', hserved, hresult, hunread⟩ := hsent.completes Sqe.order (by rw [Queues.sent_result, result_pushed]) r
    have hlast : Reaches (Queues.serve Sqe.order)
        (fun _ a => ∀ s, a = .complete io.pushed.length s → s = r) (io.sent Sqe.fsync) io' := by
      refine hserved.mono fun _ a ha s hs => ?_
      rcases ha with rfl | rfl
      · cases hs
      · cases hs
        rfl
    obtain ⟨s, hs, hnonneg⟩ := hown hlast hunread
    rw [hresult] at hs
    exact .inr ⟨halone.1, halone.2, hcq, Option.some.inj hs ▸ hnonneg⟩
  · rintro (hfull | ⟨hsq, hidle, hcq, hr⟩) c hreach hreturned
    · exact absurd hreturned (full_returns_error rfl hfull hreach)
    · have hinit : SyncsAlone io r (start io .sync_data) := rfl
      have halone : SyncsAlone io r c :=
        hreach.invariant (P := SyncsAlone io r) (fun c a c' hc => syncsAlone_step hsq hidle hcq hc) hinit
      unfold SyncsAlone at halone
      rw [hreturned] at halone
      obtain ⟨hbefore, hown⟩ := halone
      refine ⟨fun i e he _ => hbefore i (List.getElem?_eq_some_iff.mp he).1, r, hown, hr⟩

/-- A buffer's write of one page. -/
def pageWrite : Sqe 1 :=
  { opcode := .Write 0 4096, offset := 0, flags := .empty, user_data := some 0, filling := 0 }

/-- The kernel has begun the only write. -/
def oneWrite : Queues (Sqe 1) :=
  { sq := [], log := [{ entry := pageWrite, batch := 0, progress := .running }], cq := [] }

/-- The write's completion ends the wait, and `sync_data` returns before its entry has started. -/
theorem sync_data_returns_early : ¬ SyncsData oneWrite 0 := by
  intro h
  have hserved : Reaches (Queues.serve Sqe.order)
      (fun _ a => ∀ s, a = .complete oneWrite.pushed.length s → s = 0) (oneWrite.sent Sqe.fsync)
      { oneWrite.sent Sqe.fsync with
        log := (oneWrite.sent Sqe.fsync).log.set 0 { entry := pageWrite, batch := 0, progress := .done 4096 }
        cq := [{ position := 0, entry := pageWrite, result := 4096 }] } :=
    .tail (.complete 0 4096) .refl (by rintro s ⟨⟩) rfl
  obtain ⟨_, s, hs, _⟩ := h _ (sync_data_returns (by decide) hserved (List.cons_ne_nil _ _)) rfl
  cases hs

end SyncData

section WaitForAll

/-- When `wait_for_all` returns `Ok`, the writes pushed before it have completed without an error. -/
def WaitsForAll (io : Queues (Sqe L)) : Prop :=
  ∀ c, Reaches step (fun _ _ => True) (start io .wait_for_all) c → c.call = .returned (.ok ()) →
    ∀ i e, io.pushed[i]? = some e → e.isWrite = true → ∃ r, c.io.result i = some r ∧ 0 ≤ r

/-- The points of the loop of `wait_for_all`. -/
def waits : Call → Bool
  | .wait_for_all => true
  | .testing => true
  | _ => false

variable {io : Queues (Sqe L)}

/-- What a step of `wait_for_all` leaves: it pushes nothing and results are final, and it returns `Ok` only
when it finds both queues empty. -/
theorem wait_step {c c' : Caller L} {a : Action} (hc : waits c.call = true ∨ ∃ result, c.call = .returned result)
    (h : c.step a = some c') :
    (waits c'.call = true ∨ ∃ result, c'.call = .returned result) ∧ c'.io.sq = c.io.sq ∧
      (∀ i r, c.io.result i = some r → c'.io.result i = some r) ∧
      (c'.call = .returned (.ok ()) → c.call = .returned (.ok ()) ∨ c.io.sq = []) := by
  cases a with
  | serve a =>
    obtain ⟨io', hserve, rfl⟩ := Option.map_eq_some_iff.mp h
    exact ⟨hc, (Queues.serve_keeps hserve).1, fun _ _ => Queues.serve_result hserve, fun hok => .inl hok⟩
  | resume ok =>
    have hresumes := resume_resumes h
    generalize c.call = call at hc hresumes
    cases hresumes with
    | drains_error _ => exact ⟨.inr ⟨_, rfl⟩, rfl, fun _ _ => id, by rintro ⟨⟩⟩
    | drains _ => exact ⟨.inl rfl, rfl, fun _ _ => id, by rintro ⟨⟩⟩
    | tests_empty hsq _ => exact ⟨.inr ⟨_, rfl⟩, rfl, fun _ _ => id, fun _ => .inr hsq⟩
    | tests_busy _ => exact ⟨.inl rfl, rfl, fun _ _ => id, by rintro ⟨⟩⟩
    | _ =>
      obtain hc | ⟨result, hc⟩ := hc
      · cases hc
      · cases hc

/-- The states of a call that finds an error among the unread completions. -/
def WaitsError (c : Caller L) : Prop :=
  match c.call with
  | .wait_for_all => ∃ d ∈ c.io.cq, d.result < 0
  | .returned (.error _) => True
  | _ => False

/-- An error among the unread completions stays there until `wait_for_all` returns it. -/
theorem waitsError_step {c c' : Caller L} {a : Action} (hc : WaitsError c) (h : c.step a = some c') :
    WaitsError c' := by
  cases a with
  | serve a =>
    obtain ⟨io', hserve, rfl⟩ := Option.map_eq_some_iff.mp h
    unfold WaitsError at hc ⊢
    cases hcall : c.call with
    | wait_for_all =>
      rw [hcall] at hc
      obtain ⟨d, hd, herror⟩ := hc
      obtain ⟨arrived, hcq⟩ := Queues.serve_unread hserve
      refine ⟨d, ?_, herror⟩
      rw [hcq]
      exact List.mem_append_left _ hd
    | returned result =>
      rw [hcall] at hc
      cases result <;> exact hc
    | _ =>
      rw [hcall] at hc
      exact hc
  | resume ok =>
    have hresumes := resume_resumes h
    unfold WaitsError at hc
    generalize c.call = call at hc hresumes
    cases hresumes with
    | drains_error _ => trivial
    | drains hfind =>
      obtain ⟨d, hd, herror⟩ := hc
      exact absurd (decide_eq_true herror) (List.find?_eq_none.mp hfind d hd)
    | _ => exact hc.elim

/-- With nothing queued and no error unread, `wait_for_all` may return at once, whatever the kernel holds. -/
theorem wait_for_all_returns (hsq : io.sq = []) (hcq : ∀ d ∈ io.cq, ¬ d.result < 0) :
    Reaches step (fun _ _ => True) (start io .wait_for_all)
      { io := { io with cq := [] }, call := .returned (.ok ()), taken := io.cq } := by
  have hfind : io.cq.find? (·.result < 0) = none := by
    rw [List.find?_eq_none]
    intro d hd
    rw [decide_eq_true_eq]
    exact hcq d hd
  have hdrains : (start io .wait_for_all).step (.resume true) =
      some { io := { io with cq := [] }, call := .testing, taken := io.cq } := by
    simp only [step, resume, start, Queues.drain, hfind, List.nil_append]
  have htests : step { io := { io with cq := [] }, call := .testing, taken := io.cq } (.resume true) =
      some { io := { io with cq := [] }, call := .returned (.ok ()), taken := io.cq } := by
    simp only [step, resume, hsq, List.isEmpty_nil, Bool.and_self, if_true]
  exact .tail (.resume true) (.tail (.resume true) .refl trivial hdrains) trivial htests

/-- `wait_for_all` waits for all writes exactly when an entry is left queued, so that it never returns, or
an unread completion carries an error, which it returns, or no write is in the kernel or has failed. -/
theorem wait_for_all_waits_iff (io : Queues (Sqe L)) :
    WaitsForAll io ↔
      io.sq ≠ [] ∨ (∃ d ∈ io.cq, d.result < 0) ∨
        ∀ p ∈ io.log, p.entry.isWrite = true → ∃ r, p.progress = .done r ∧ 0 ≤ r := by
  constructor
  · intro h
    by_contra hnot
    simp only [not_or, not_not, not_exists, not_and] at hnot
    obtain ⟨hsq, hcq, hlog⟩ := hnot
    refine hlog fun p hp hwrite => ?_
    obtain ⟨i, hi, rfl⟩ := List.mem_iff_getElem.mp hp
    have hpushed : io.pushed[i]? = some io.log[i].entry := by
      rw [Queues.pushed, List.getElem?_append_left (by rwa [List.length_map]), List.getElem?_map,
        List.getElem?_eq_getElem hi]
      rfl
    obtain ⟨r, hr, hnonneg⟩ := h _ (wait_for_all_returns hsq hcq) rfl i _ hpushed hwrite
    have hresult : io.log[i].progress.result = some r :=
      (Queues.result_of_getElem? (List.getElem?_eq_getElem hi)).symm.trans hr
    refine ⟨r, ?_, hnonneg⟩
    cases hprogress : io.log[i].progress with
    | done s =>
      rw [hprogress] at hresult
      rw [Option.some.inj hresult]
    | _ =>
      rw [hprogress] at hresult
      cases hresult
  · rintro hwaits c hreach hreturned i e he hwrite
    have hrun : (waits c.call = true ∨ ∃ result, c.call = .returned result) ∧ c.io.sq = io.sq ∧
        (∀ i r, io.result i = some r → c.io.result i = some r) ∧
        (c.call = .returned (.ok ()) → io.sq = []) := by
      refine hreach.invariant (P := fun c => (waits c.call = true ∨ ∃ result, c.call = .returned result) ∧
        c.io.sq = io.sq ∧ (∀ i r, io.result i = some r → c.io.result i = some r) ∧
        (c.call = .returned (.ok ()) → io.sq = [])) ?_ ⟨.inl rfl, rfl, fun _ _ => id, by rintro ⟨⟩⟩
      rintro c a c' ⟨hwaits, hsq, hresults, hok⟩ _ hstep
      obtain ⟨hwaits', hsq', hresults', hok'⟩ := wait_step hwaits hstep
      refine ⟨hwaits', hsq'.trans hsq, fun i r hi => hresults' i r (hresults i r hi), fun hreturned => ?_⟩
      exact (hok' hreturned).elim hok fun hempty => hsq ▸ hempty
    obtain ⟨_, _, hresults, hempty⟩ := hrun
    have hsq := hempty hreturned
    rcases hwaits with hqueued | herror | hdone
    · exact absurd hsq hqueued
    · have hfailed : WaitsError c :=
        hreach.invariant (P := WaitsError) (fun c a c' hc _ => waitsError_step hc)
          (show WaitsError (start io .wait_for_all) from herror)
      unfold WaitsError at hfailed
      rw [hreturned] at hfailed
      exact hfailed.elim
    · rw [Queues.pushed, hsq, List.append_nil, List.getElem?_map] at he
      obtain ⟨p, hp, rfl⟩ := Option.map_eq_some_iff.mp he
      obtain ⟨r, hprogress, hnonneg⟩ := hdone p (List.mem_of_getElem? hp) hwrite
      refine ⟨r, hresults i r ?_, hnonneg⟩
      rw [Queues.result_of_getElem? hp, hprogress]
      rfl

/-- `wait_for_all` returns while the kernel works on the only write. -/
theorem wait_for_all_returns_early : ¬ WaitsForAll oneWrite := by
  intro h
  have hquiet : ∀ d ∈ oneWrite.cq, ¬ d.result < 0 := by
    rintro d ⟨⟩
  obtain ⟨r, hr, _⟩ := h _ (wait_for_all_returns rfl hquiet) rfl 0 pageWrite rfl rfl
  cases hr

end WaitForAll

end Caller

end QuikIO

end FlushRing
