import FlushRing.QuikIO.Barriers

open Transition Submission

namespace FlushRing

variable {L : Nat}

namespace QuikIO

namespace Caller

/-- When `read` returns `Ok`, it has taken one completion, that of its own entry, and the others that were
unread or arrived meanwhile are in the queue. -/
def TakesOwn (io : Queues (Sqe L)) (len offset : Usize) : Prop :=
  ∀ c, Reaches step (fun _ _ => True) (start io (.read len offset)) c → c.call = .returned (.ok ()) →
    (∃ d, c.taken = [d] ∧ d.position = io.pushed.length ∧ c.io.result io.pushed.length = some d.result) ∧
      (∀ d ∈ io.cq, d ∈ c.io.cq) ∧
      ∀ i ≠ io.pushed.length, io.result i = none → (c.io.result i).isSome = true →
        ∃ d ∈ c.io.cq, d.position = i

variable {io : Queues (Sqe L)} {len offset : Usize}

/-- The states of a `read` on an idle ring. -/
def ReadsAlone (io : Queues (Sqe L)) (c : Caller L) : Prop :=
  match c.call with
  | .read _ _ => c.io = io ∧ c.taken = []
  | .reading _ _ => c.io.Alone io.pushed.length ∧ c.taken = []
  | .returned (.ok _) => (∃ d, c.taken = [d] ∧ d.position = io.pushed.length ∧
      c.io.result io.pushed.length = some d.result) ∧ c.io.log.length = io.pushed.length + 1
  | .returned (.error _) => True
  | _ => False

/-- A step of the kernel leaves `read` alone in the ring. -/
theorem readsAlone_serve (hidle : io.idle = true) {c : Caller L} {a : Serve} {io' : Queues (Sqe L)}
    (hc : ReadsAlone io c) (h : c.io.serve Sqe.order a = some io') : ReadsAlone io { c with io := io' } := by
  unfold ReadsAlone at hc ⊢
  cases hcall : c.call with
  | read len offset =>
    rw [hcall] at hc
    rw [hc.1, Queues.serve_idle hidle] at h
    cases h
  | reading len offset =>
    rw [hcall] at hc
    exact ⟨hc.1.serve h, hc.2⟩
  | returned result =>
    rw [hcall] at hc
    cases result with
    | error e => trivial
    | ok u =>
      obtain ⟨⟨d, htaken, hd, hown⟩, hlength⟩ := hc
      exact ⟨⟨d, htaken, hd, Queues.serve_result h hown⟩, (Queues.serve_keeps h).2.2.trans hlength⟩
  | _ =>
    rw [hcall] at hc
    exact hc

/-- Every step leaves `read` alone in the ring. -/
theorem readsAlone_step (hsq : io.sq = []) (hidle : io.idle = true) (hcq : io.cq = []) {c c' : Caller L}
    {a : Action} (hc : ReadsAlone io c) (h : c.step a = some c') : ReadsAlone io c' := by
  cases a with
  | serve a =>
    obtain ⟨io', hserve, rfl⟩ := Option.map_eq_some_iff.mp h
    exact readsAlone_serve hidle hc hserve
  | resume ok =>
    have hresumes := resume_resumes h
    unfold ReadsAlone at hc
    generalize c.call = call at hc hresumes
    cases hresumes with
    | @reads len offset _ =>
      obtain ⟨hio, htaken⟩ := hc
      obtain hsent | ⟨e, he⟩ :=
        c.submit_and_wait_cases ok (Sqe.read len offset) "submission queue full" (.reading len offset)
      · rw [hsent, hio]
        exact ⟨Queues.sent_alone _ hsq hidle hcq, htaken⟩
      · unfold ReadsAlone
        rw [he]
        trivial
    | @takes len offset d rest hunread =>
      obtain ⟨halone, htaken⟩ := hc
      obtain ⟨hempty, _⟩ | ⟨own, hown, hposition, hresult⟩ := halone.own
      · rw [hempty] at hunread
        cases hunread
      · rw [hown] at hunread
        cases hunread
        unfold ReadsAlone read_result
        by_cases hfailed : d.result < 0
        · simp only [if_pos hfailed]
        · simp only [if_neg hfailed]
          exact ⟨⟨d, by rw [htaken, List.nil_append], hposition, hresult⟩, halone.last⟩
    | _ => exact hc.elim

/-- The states of a `read` that is called with an error at the head of the completion queue. -/
def ReadsError (c : Caller L) : Prop :=
  match c.call with
  | .read _ _ => ∃ d rest, c.io.cq = d :: rest ∧ d.result < 0
  | .reading _ _ => ∃ d rest, c.io.cq = d :: rest ∧ d.result < 0
  | .returned (.error _) => True
  | _ => False

/-- An error at the head of the queue stays there until `read` returns it. -/
theorem readsError_step {c c' : Caller L} {a : Action} (hc : ReadsError c) (h : c.step a = some c') :
    ReadsError c' := by
  cases a with
  | serve a =>
    obtain ⟨io', hserve, rfl⟩ := Option.map_eq_some_iff.mp h
    have hhead : (∃ d rest, c.io.cq = d :: rest ∧ d.result < 0) → ∃ d rest, io'.cq = d :: rest ∧ d.result < 0 := by
      rintro ⟨d, rest, hcq, hd⟩
      obtain ⟨arrived, hcq'⟩ := Queues.serve_unread hserve
      rw [hcq, List.cons_append] at hcq'
      exact ⟨d, rest ++ arrived, hcq', hd⟩
    unfold ReadsError at hc ⊢
    cases hcall : c.call with
    | read len offset =>
      rw [hcall] at hc
      exact hhead hc
    | reading len offset =>
      rw [hcall] at hc
      exact hhead hc
    | returned result =>
      rw [hcall] at hc
      cases result <;> exact hc
    | _ =>
      rw [hcall] at hc
      exact hc
  | resume ok =>
    have hresumes := resume_resumes h
    unfold ReadsError at hc
    generalize c.call = call at hc hresumes
    cases hresumes with
    | @reads len offset _ =>
      unfold ReadsError
      obtain hsent | ⟨e, he⟩ :=
        c.submit_and_wait_cases ok (Sqe.read len offset) "submission queue full" (.reading len offset)
      · rw [hsent]
        exact hc
      · rw [he]
        trivial
    | @takes len offset own rest hunread =>
      obtain ⟨d, rest, hcq, hd⟩ := hc
      rw [hcq] at hunread
      cases hunread
      simp only [ReadsError, read_result, if_pos hd]
    | _ => exact hc.elim

/-- A `read` that has no layout for its block never gets beyond its start. -/
theorem read_panics (hlayout : layout_ok (aligned_len len offset) = false) {c : Caller L}
    (h : Reaches step (fun _ _ => True) (start io (.read len offset)) c) : c.call = .read len offset := by
  refine h.invariant (P := fun c => c.call = .read len offset) ?_ rfl
  intro c a c' hcall _ hstep
  cases a with
  | serve a =>
    obtain ⟨io', _, rfl⟩ := Option.map_eq_some_iff.mp hstep
    exact hcall
  | resume ok =>
    have hresumes := resume_resumes hstep
    rw [hcall] at hresumes
    cases hresumes with
    | reads hread =>
      rw [hlayout] at hread
      cases hread

/-- `read` takes whatever completion is first. -/
theorem read_takes (hlayout : layout_ok (aligned_len len offset) = true)
    (hroom : io.sq.length < SQ_ENTRIES) {io' : Queues (Sqe L)}
    (hserved : Reaches (Queues.serve Sqe.order) (fun _ _ => True) (io.sent (Sqe.read len offset)) io')
    {d : Submission.Completion (Sqe L)} {rest : List (Submission.Completion (Sqe L))} (hcq : io'.cq = d :: rest)
    (hd : ¬ d.result < 0) :
    Reaches step (fun _ _ => True) (start io (.read len offset))
      { io := { io' with cq := rest }, call := .returned (.ok ()), taken := [d] } := by
  have hfirst : (start io (.read len offset)).step (.resume true) =
      some { io := io.sent (Sqe.read len offset), call := .reading len offset, taken := [] } := by
    simp only [step, resume, start, hlayout, if_true]
    exact congrArg some (submit_and_wait_sent (c := start io (.read len offset)) hroom _ _)
  have hwaits : Reaches step (fun _ _ => True) (start io (.read len offset))
      { io := io', call := .reading len offset, taken := [] } :=
    (Reaches.tail (.resume true) .refl trivial hfirst).trans
      (served (c := { io := io.sent (Sqe.read len offset), call := .reading len offset, taken := [] })
        (fun _ _ _ => trivial) hserved)
  refine .tail (.resume true) hwaits trivial ?_
  simp only [step, resume, hcq, read_result, if_neg hd, List.nil_append]

/-- `read` takes its own completion exactly when it cannot return `Ok`, for want of room or of a layout or
because an error is first in the completion queue, or when nothing is queued, in the kernel or unread. -/
theorem read_takes_own_iff (io : Queues (Sqe L)) (len offset : Usize) :
    TakesOwn io len offset ↔
      layout_ok (aligned_len len offset) = false ∨ SQ_ENTRIES ≤ io.sq.length ∨
        (∃ d rest, io.cq = d :: rest ∧ d.result < 0) ∨
        (io.sq = [] ∧ io.idle = true ∧ io.cq = []) := by
  constructor
  · intro h
    cases hlayout : layout_ok (aligned_len len offset) with
    | false => exact .inl rfl
    | true =>
      by_cases hfull : SQ_ENTRIES ≤ io.sq.length
      · exact .inr (.inl hfull)
      have hown {io' : Queues (Sqe L)} (hserved : Reaches (Queues.serve Sqe.order) (fun _ _ => True)
          (io.sent (Sqe.read len offset)) io') {d : Submission.Completion (Sqe L)}
          {rest : List (Submission.Completion (Sqe L))} (hcq : io'.cq = d :: rest) (hd : ¬ d.result < 0) :
          io'.result io.pushed.length = some d.result := by
        obtain ⟨⟨own, htaken, _, hresult⟩, _⟩ :=
          h _ (read_takes hlayout (Nat.not_le.mp hfull) hserved hcq hd) rfl
        cases htaken
        exact hresult
      cases hcq : io.cq with
      | cons d rest =>
        by_cases hd : d.result < 0
        · exact .inr (.inr (.inl ⟨d, rest, rfl, hd⟩))
        · have hresult := hown .refl (show (io.sent (Sqe.read len offset)).cq = d :: rest from hcq) hd
          rw [Queues.sent_result, result_pushed] at hresult
          cases hresult
      | nil =>
        refine .inr (.inr (.inr ?_))
        by_contra hbusy
        have hbusy : io.sq ≠ [] ∨ io.idle = false := by
          by_contra hnot
          rw [not_or, not_not, Bool.not_eq_false] at hnot
          exact hbusy ⟨hnot.1, hnot.2, rfl⟩
        obtain ⟨i, hi, _, hcompletes⟩ := Queues.overtaken Sqe.order (Sqe.read len offset) hbusy
        obtain ⟨io', e, hserved, hresult, hcq'⟩ := hcompletes 0
        rw [hcq, List.nil_append] at hcq'
        have hread := hown (hserved.mono fun _ _ _ => trivial) hcq' (Int.lt_irrefl 0)
        rw [hresult, Function.update_of_ne (Nat.ne_of_gt hi), result_pushed] at hread
        cases hread
  · rintro (hlayout | hfull | ⟨d, rest, hcq, hd⟩ | ⟨hsq, hidle, hcq⟩) c hreach hreturned
    · have hcall := read_panics hlayout hreach
      rw [hreturned] at hcall
      cases hcall
    · exact absurd hreturned (full_returns_error rfl hfull hreach)
    · have hinit : ReadsError (start io (.read len offset)) := ⟨d, rest, hcq, hd⟩
      have herror : ReadsError c :=
        hreach.invariant (P := ReadsError) (fun c a c' hc _ => readsError_step hc) hinit
      unfold ReadsError at herror
      rw [hreturned] at herror
      exact herror.elim
    · have hinit : ReadsAlone io (start io (.read len offset)) := ⟨rfl, rfl⟩
      have halone : ReadsAlone io c :=
        hreach.invariant (P := ReadsAlone io) (fun c a c' hc _ => readsAlone_step hsq hidle hcq hc) hinit
      unfold ReadsAlone at halone
      rw [hreturned] at halone
      obtain ⟨hown, hlength⟩ := halone
      refine ⟨hown, fun d hd => ?_, fun i hi hnone hsome => ?_⟩
      · rw [hcq] at hd
        cases hd
      · obtain ⟨r, hr⟩ := Option.isSome_iff_exists.mp hsome
        have hlt := Queues.lt_of_result hr
        have hlog : io.pushed.length = io.log.length := by
          rw [Queues.pushed, hsq, List.append_nil, List.length_map]
        have hdone := (Queues.idle_iff io).mp hidle i (by omega)
        rw [hnone] at hdone
        cases hdone

/-- The completion of a write waits to be read. -/
def unreadWrite : Queues (Sqe 1) :=
  { sq := [], log := [{ entry := pageWrite, batch := 0, progress := .done 4096 }]
    cq := [{ position := 0, entry := pageWrite, result := 4096 }] }

/-- `read` takes the completion of the write for its own and returns `Ok`, with its own entry not begun. -/
theorem read_takes_write : ¬ TakesOwn unreadWrite 16 0 := by
  intro h
  have hlayout : layout_ok (aligned_len 16 0) = true := by decide
  have hroom : unreadWrite.sq.length < SQ_ENTRIES := by decide
  have hcq : (unreadWrite.sent (Sqe.read 16 0)).cq = [{ position := 0, entry := pageWrite, result := 4096 }] := rfl
  have hpositive : ¬ (4096 : Int) < 0 := by decide
  obtain ⟨⟨d, htaken, hposition, _⟩, _⟩ := h _ (read_takes hlayout hroom .refl hcq hpositive) rfl
  cases htaken
  cases hposition

end Caller

end QuikIO

end FlushRing
