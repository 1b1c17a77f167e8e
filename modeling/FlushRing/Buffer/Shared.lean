import FlushRing.Buffer.Ops
import FlushRing.Buffer.Tiled
import FlushRing.Transition

open Transition Extents

namespace FlushRing

variable {L : Nat}

/-- Where a thread stands in a call on a shared buffer: between calls, or between the load and the
`compare_exchange` of `reserve_space` or `un_sealed`. -/
inductive Access where
  | idle
  | reserving (payload_size state offset new : Usize)
  | unsealing (current new : Usize)

/-- A buffer and the threads that use it. `outstanding` is history: the reservations granted and not yet
released by `decrement_writers`. -/
structure Shared (T : Type) (L : Nat) where
  buffer : FlushBuffer L
  access : T → Access
  outstanding : Nat

namespace Shared
variable {T : Type}

/-- One atomic step of a thread. `reserve_space` and `un_sealed` are their loads; `exchange` is the
`compare_exchange` that follows. -/
inductive Action (T : Type) where
  | reserve_space (t : T) (payload_size : Usize)
  | un_sealed (t : T)
  | exchange (t : T)
  | decrement_writers (t : T)
  | seal_ (t : T)
  | set_flush_in_progress (t : T)
  | clear_flush_in_progress (t : T)

def init (size : Usize) : Shared T L :=
  { buffer := .new_buffer size, access := fun _ => .idle, outstanding := 0 }

/-- The word counts the outstanding reservations and its offset the granted bytes, and what a thread has
prepared was decided on the word it loaded. -/
structure Consistent (s : Shared T L) : Prop where
  tiled : Tiled s.buffer
  writers : (state_writers s.buffer.state).toNat = s.outstanding
  bounded : s.outstanding < 2 ^ 24
  reserving : ∀ t n state offset new, s.access t = .reserving n state offset new →
    n ≤ ONE_MEGABYTE_BLOCK ∧ FlushBuffer.reserve_decision state n = .ok (offset, new)
  unsealing : ∀ t current new, s.access t = .unsealing current new →
    FlushBuffer.un_sealed_decision current = .ok new

theorem consistent_init (size : Usize) : (init size : Shared T L).Consistent where
  tiled := .of_empty rfl rfl
  writers := congrArg BitVec.toNat state_writers_zero
  bounded := Nat.two_pow_pos 24
  reserving t n state offset new h := by cases h
  unsealing t current new h := by cases h

/-- A thread that returns from a call, or changes the buffer in a way that moves no count. -/
theorem Consistent.keep {s s' : Shared T L} (h : s.Consistent) (hsize : s'.buffer.size = s.buffer.size)
    (hwriters : state_writers s'.buffer.state = state_writers s.buffer.state)
    (hgranted : s'.buffer.filling.granted = s.buffer.filling.granted)
    (houtstanding : s'.outstanding = s.outstanding)
    (haccess : ∀ t, s'.access t = s.access t ∨ s'.access t = .idle) : s'.Consistent where
  tiled := h.tiled.congr hsize hgranted
  writers := by rw [hwriters, h.writers, houtstanding]
  bounded := by
    rw [houtstanding]
    exact h.bounded
  reserving t n state offset new hpc := by
    obtain hsame | hidle := haccess t
    · exact h.reserving t n state offset new (hsame ▸ hpc)
    · cases hidle.symm.trans hpc
  unsealing t current new hpc := by
    obtain hsame | hidle := haccess t
    · exact h.unsealing t current new (hsame ▸ hpc)
    · cases hidle.symm.trans hpc

variable [DecidableEq T]

def goto (s : Shared T L) (t : T) (access : Access) : Shared T L :=
  { s with access := Function.update s.access t access }

theorem goto_access (s : Shared T L) (t t' : T) (access : Access) :
    (s.goto t access).access t' = if t' = t then access else s.access t' :=
  Function.update_apply s.access t access t'

/-- An operation that a thread makes in one step, between its calls. -/
def between (s : Shared T L) (t : T) (s' : Shared T L) : Option (Shared T L) :=
  match s.access t with
  | .idle => some s'
  | _ => none

def step (s : Shared T L) : Action T → Option (Shared T L)
  | .reserve_space t payload_size =>
    if payload_size ≤ ONE_MEGABYTE_BLOCK then
      s.between t <|
        match FlushBuffer.reserve_decision s.buffer.state payload_size with
        | .error _ => s
        | .ok (offset, new) => s.goto t (.reserving payload_size s.buffer.state offset new)
    else none
  | .un_sealed t =>
    s.between t <|
      match FlushBuffer.un_sealed_decision s.buffer.state with
      | .error _ => s
      | .ok new => s.goto t (.unsealing s.buffer.state new)
  | .exchange t =>
    match s.access t with
    | .idle => none
    | .reserving payload_size state offset new =>
      if s.buffer.state = state then
        some { s.goto t .idle with
          buffer := s.buffer.grant new offset payload_size
          outstanding := s.outstanding + 1 }
      else some (s.goto t .idle)
    | .unsealing current new =>
      if s.buffer.state = current then
        some { s.goto t .idle with buffer := { s.buffer with state := new } }
      else some (s.goto t .idle)
  | .decrement_writers t =>
    if 0 < s.outstanding then
      s.between t
        { s with buffer := s.buffer.decrement_writers, outstanding := s.outstanding - 1 }
    else none
  | .seal_ t => s.between t { s with buffer := s.buffer.seal_.2 }
  | .set_flush_in_progress t => s.between t { s with buffer := s.buffer.set_flush_in_progress }
  | .clear_flush_in_progress t => s.between t { s with buffer := s.buffer.clear_flush_in_progress }

/-- Fewer than 2^24 reservations are outstanding after the step. -/
def few (s : Shared T L) (a : Action T) : Bool := (s.step a).all fun s' => s'.outstanding < 2 ^ 24

namespace Consistent
variable {s s' : Shared T L} {t : T}

theorem goto_idle (s : Shared T L) (t t' : T) :
    (s.goto t .idle).access t' = s.access t' ∨ (s.goto t .idle).access t' = .idle := by
  rw [goto_access]
  split
  · exact .inr rfl
  · exact .inl rfl

/-- A thread that has loaded the word goes on to its exchange. -/
theorem loads (h : s.Consistent) {access : Access}
    (hreserving : ∀ n state offset new, access = .reserving n state offset new →
      n ≤ ONE_MEGABYTE_BLOCK ∧ FlushBuffer.reserve_decision state n = .ok (offset, new))
    (hunsealing : ∀ current new, access = .unsealing current new →
      FlushBuffer.un_sealed_decision current = .ok new) : (s.goto t access).Consistent := by
  refine ⟨h.tiled, h.writers, h.bounded, fun t' n state offset new hpc => ?_,
    fun t' current new hpc => ?_⟩
  · rw [goto_access] at hpc
    split at hpc
    · exact hreserving n state offset new hpc
    · exact h.reserving t' n state offset new hpc
  · rw [goto_access] at hpc
    split at hpc
    · exact hunsealing current new hpc
    · exact h.unsealing t' current new hpc

/-- A `compare_exchange` that finds the loaded word unchanged grants what was decided on it, whatever
happened in between. -/
theorem grants (h : s.Consistent) {n state offset new : Usize}
    (haccess : s.access t = .reserving n state offset new) (hstate : s.buffer.state = state)
    (hfew : s.outstanding + 1 < 2 ^ 24) :
    ({ s.goto t .idle with
        buffer := s.buffer.grant new offset n, outstanding := s.outstanding + 1 } :
      Shared T L).Consistent := by
  obtain ⟨hlen, hdecision⟩ := h.reserving t n state offset new haccess
  rw [← hstate] at hdecision
  have hroom : (state_writers s.buffer.state).toNat + 1 < 2 ^ 24 := by
    rw [h.writers]
    exact hfew
  obtain ⟨_, _, _, _, hnew⟩ := FlushBuffer.reserve_decision_ok hdecision
  have hidle : (s.goto t .idle).Consistent := h.keep rfl rfl rfl rfl (goto_idle s t)
  refine ⟨h.tiled.grant hlen hdecision hroom, ?_, hfew, hidle.reserving, hidle.unsealing⟩
  change (state_writers new).toNat = s.outstanding + 1
  rw [hnew, state_writers_reserved _ _ hroom, h.writers]

omit [DecidableEq T] in
/-- One writer is taken off for a reservation that was granted before. -/
theorem releases (h : s.Consistent) (hpos : 0 < s.outstanding) :
    ({ s with buffer := s.buffer.decrement_writers, outstanding := s.outstanding - 1 } :
      Shared T L).Consistent := by
  have hwriters := h.writers
  have htake := state_writers_sub_writer s.buffer.state (by omega)
  have hsize : s.buffer.decrement_writers.size = s.buffer.size :=
    state_offset_sub_writer s.buffer.state (by omega)
  refine ⟨h.tiled.congr hsize rfl, ?_, ?_, h.reserving, h.unsealing⟩
  · change (state_writers (s.buffer.state - WRITER_ONE)).toNat = s.outstanding - 1
    omega
  · have hbounded := h.bounded
    change s.outstanding - 1 < 2 ^ 24
    omega

omit [DecidableEq T] in
theorem between_eq {s₁ : Shared T L} (h : s.between t s₁ = some s') : s' = s₁ := by
  unfold between at h
  split at h
  · exact (Option.some.inj h).symm
  · cases h

/-- Every step keeps the buffer consistent. -/
theorem step {a : Action T} (hs : s.Consistent) (hfew : few s a = true)
    (h : s.step a = some s') : s'.Consistent := by
  have hfew' : s'.outstanding < 2 ^ 24 := by
    simpa [few, h] using hfew
  have hstays (t' : T) : s.access t' = s.access t' ∨ s.access t' = .idle := .inl rfl
  cases a <;> simp only [Shared.step] at h
  case reserve_space t n =>
    split at h
    next hlen =>
      obtain rfl := between_eq h
      split
      next => exact hs
      next offset new hdecision =>
        refine hs.loads (fun n state offset new hpc => ?_) fun current new hpc => ?_
        · cases hpc
          exact ⟨hlen, hdecision⟩
        · cases hpc
    next => cases h
  case un_sealed t =>
    obtain rfl := between_eq h
    split
    next => exact hs
    next new hdecision =>
      refine hs.loads (fun n state offset new hpc => ?_) fun current new hpc => ?_
      · cases hpc
      · cases hpc
        exact hdecision
  case exchange t =>
    split at h
    next => cases h
    next n state offset new haccess =>
      split at h
      next hstate =>
        obtain rfl := Option.some.inj h
        exact hs.grants haccess hstate hfew'
      next =>
        obtain rfl := Option.some.inj h
        exact hs.keep rfl rfl rfl rfl (goto_idle s t)
    next current new haccess =>
      split at h
      next hstate =>
        obtain rfl := Option.some.inj h
        obtain ⟨_, hnew⟩ := FlushBuffer.un_sealed_decision_ok (hs.unsealing t current new haccess)
        rw [hnew, ← hstate]
        exact hs.keep (state_offset_and_not_sealed _) (state_writers_and_not_sealed _) rfl rfl
          (goto_idle s t)
      next =>
        obtain rfl := Option.some.inj h
        exact hs.keep rfl rfl rfl rfl (goto_idle s t)
  case decrement_writers t =>
    split at h
    next hpos =>
      obtain rfl := between_eq h
      exact hs.releases hpos
    next => cases h
  case seal_ t =>
    obtain rfl := between_eq h
    exact hs.keep (state_offset_or_sealed _) (state_writers_or_sealed _) rfl rfl hstays
  case set_flush_in_progress t =>
    obtain rfl := between_eq h
    exact hs.keep (state_offset_or_flush _) (state_writers_or_flush _) rfl rfl hstays
  case clear_flush_in_progress t =>
    obtain rfl := between_eq h
    exact hs.keep (state_offset_and_not_flush _) (state_writers_and_not_flush _) rfl rfl hstays

end Consistent

/-- Whatever the threads do, the granted ranges are disjoint, lie within one megabyte and cover exactly
the bytes below the offset; an exchange can only succeed while both flags are clear. -/
theorem reservations_tile {size : Usize} {s : Shared T L}
    (h : Reaches step (fun s a => few s a = true) (init size) s) :
    s.buffer.filling.granted.Pairwise (fun r r' =>
      Disjoint (Set.Ico r.1.toNat (r.1.toNat + r.2.toNat)) (Set.Ico r'.1.toNat (r'.1.toNat + r'.2.toNat))) ∧
    (∀ r ∈ s.buffer.filling.granted, r.1.toNat + r.2.toNat ≤ ONE_MEGABYTE_BLOCK.toNat) ∧
    (⋃ r ∈ s.buffer.filling.granted, Set.Ico r.1.toNat (r.1.toNat + r.2.toNat)) =
      Set.Ico 0 (state_offset s.buffer.state).toNat ∧
    ∀ t n state offset new, s.access t = .reserving n state offset new → s.buffer.state = state →
      state_sealed s.buffer.state = false ∧ state_flush_in_progress s.buffer.state = false := by
  have hs : s.Consistent := h.invariant (P := Consistent) (fun _ _ _ hs hfew h => hs.step hfew h)
    (consistent_init size)
  refine ⟨hs.tiled.pairwise, fun r hr => ?_, hs.tiled.iUnion, ?_⟩
  · exact (hs.tiled.stop_le hr).trans hs.tiled.fits
  · intro t n state offset new haccess hstate
    obtain ⟨_, hdecision⟩ := hs.reserving t n state offset new haccess
    obtain ⟨hsealed, hflush, _⟩ := FlushBuffer.reserve_decision_ok hdecision
    rw [hstate]
    exact ⟨hsealed, hflush⟩

/-- Two threads load the same word; the second exchange fails and is tried again. Once both have written,
the buffer is sealed, opened again and granted a third time. -/
def contend : List (Action (Fin 2)) :=
  [.reserve_space 0 10, .reserve_space 1 20, .exchange 0, .exchange 1, .reserve_space 1 20, .exchange 1,
    .seal_ 0, .decrement_writers 0, .decrement_writers 1, .un_sealed 0, .exchange 0, .reserve_space 0 5,
    .exchange 0]

theorem reservations_tile_contend :
    ∃ s : Shared (Fin 2) 1, Reaches step (fun s a => few s a = true) (init ONE_MEGABYTE_BLOCK) s ∧
      s.buffer.filling.granted = [(0, 10), (10, 20), (30, 5)] ∧
      (⋃ r ∈ s.buffer.filling.granted, Set.Ico r.1.toNat (r.1.toNat + r.2.toNat)) =
        Set.Ico 0 (state_offset s.buffer.state).toNat := by
  have hrun : (exec step (fun s a => few s a = true) contend
      (init ONE_MEGABYTE_BLOCK : Shared (Fin 2) 1)).any
      (fun s => s.buffer.filling.granted == [(0, 10), (10, 20), (30, 5)]) = true := by
    decide +kernel
  obtain ⟨s, hreach, hcheck⟩ := exists_of_exec hrun
  exact ⟨s, hreach, beq_iff_eq.mp hcheck, (reservations_tile hreach).2.2.1⟩

end Shared

end FlushRing
