import FlushRing.Client.Filling
import FlushRing.Client.Regions

/-! A client that hands every reservation to `put` before it makes another call. -/

namespace FlushRing

variable {L : Nat}

namespace Client

/-- Between calls at most one reservation is at hand, and inside `check_cque` none. -/
structure Sequential (s : Client L) : Prop where
  steady : s.Steady
  single : s.calls.length ≤ 1
  idle : s.stage ≠ .between → s.calls = []
  polls : s.stage.polls = true

theorem sequential_init [NeZero L] (options : BufferRingOptions) :
    (init (BufferRing.with_options options) : Client L).Sequential where
  steady := steady_init options
  single := Nat.zero_le _
  idle h := absurd rfl h
  polls := rfl

section Steps
variable {options : BufferRingOptions} {store : QuikIO} {s s' : Client L} {a : Action L}

/-- Inside `check_cque` no reservation is outstanding. -/
theorem Moves.paired_idle (h : Moves options store s a s') (hpaired : paired s a = true)
    (hauto : automatic a = true) (hpolls : s.stage.polls = true)
    (hidle : s.stage ≠ .between → s.calls = []) : s'.stage ≠ .between → s'.calls = [] := by
  cases h
  case polls => exact fun _ => List.isEmpty_iff.mp hpaired
  case drains hstage => exact fun _ => hidle (by rw [hstage]; simp)
  case ignores hstage _ => exact fun _ => hidle (by rw [hstage]; simp)
  case retries hstage _ _ => exact fun _ => hidle (by rw [hstage]; simp)
  case succeeds hstage _ _ => exact fun _ => hidle (by rw [hstage]; simp)
  case completes => exact hidle
  case flushes | sync_launches | wait_starts | sync_starts | read_refused | read_submits => cases hauto
  case wait_drains hstage | wait_tests hstage | sync_refused hstage | sync_submits hstage _ | sync_ends hstage _ |
      sync_resets hstage _ | read_takes hstage _ =>
    cases hstage ▸ hpolls
  all_goals exact fun hne => absurd ‹s.stage = .between› hne

/-- Every step of a paired run keeps the fillings. -/
theorem Sequential.steady_step (hs : s.Sequential) (hpaired : paired s a = true)
    (hauto : automatic a = true) (h : Moves options store s a s') : s'.Steady := by
  apply hs.steady.step _ _ _ _ h
  · intro b payload ha
    subst ha
    rw [List.isEmpty_iff.mp hpaired]
    change 0 + 1 < 2 ^ 24
    omega
  · intro b hb
    cases a
    case flush | flush_current | f_sync =>
      rw [List.isEmpty_iff.mp hpaired]
      rfl
    all_goals cases hb
  · intro b ok ha
    subst ha
    cases hauto
  · intro b hresets
    have hbusy : s.stage ≠ .between := by
      intro hstage
      rw [hstage] at hresets
      cases hresets
    rw [hs.idle hbusy]
    rfl

/-- Every step of a paired run keeps at most one reservation outstanding. -/
theorem Sequential.step (hs : s.Sequential) (hpaired : paired s a = true) (hauto : automatic a = true)
    (h : Moves options store s a s') : s'.Sequential :=
  ⟨hs.steady_step hpaired hauto h, h.paired_step hpaired hs.single,
    h.paired_idle hpaired hauto hs.polls hs.idle, h.stays_polling hauto hs.polls⟩

/-- A refused reservation leaves none outstanding. -/
theorem Sequential.refused (hs : s.Sequential) {i : Nat} {call : PutCall L} {e : BufferError}
    (hcall : s.calls[i]? = some call) (hresult : call.reserve_result = .error e) (b : Fin L) :
    outstanding s.calls b = [] := by
  have hperm := outstanding_erase_error (b := b) hcall hresult
  rw [eraseIdx_of_single hs.single hcall] at hperm
  exact hperm.eq_nil

/-- A `put` that seals finds no writer and the flush bit clear. -/
theorem Sequential.seals_drained (hs : s.Sequential) {i : Nat} {call : PutCall L} {e : BufferError}
    (hcall : s.calls[i]? = some call) (hresult : call.reserve_result = .error e)
    (hopen : state_sealed (s.mem.ring call.current).state = false) (hstage : s.stage = .between) :
    state_writers (s.mem.ring call.current).state = 0 ∧
      state_flush_in_progress (s.mem.ring call.current).state = false := by
  have hwriters := (hs.steady.filled call.current).writers
  rw [hs.refused hcall hresult call.current] at hwriters
  refine ⟨BitVec.eq_of_toNat_eq hwriters, ?_⟩
  by_contra hflush
  obtain ⟨_, hsealed | hsyncs⟩ := hs.steady.flushing _ (Bool.eq_true_of_not_eq_false hflush)
  · rw [hopen] at hsealed
    cases hsealed
  · rw [hstage] at hsyncs
    exact hsyncs

end Steps

end Client

end FlushRing
