import FlushRing.Buffer.Tiled
import FlushRing.Threads.Effects

/-! The writer count of a buffer against the reservations its threads hold, and the ranges granted
since its last reset against those already copied. -/

open Transition

namespace FlushRing

variable {L : Nat}

namespace Pc

/-- The thread holds a reservation of `b` it has not released. -/
def holds (b : Fin L) : Pc L → Nat
  | .reserved b' _ (.ok _) => if b' = b then 1 else 0
  | .putWrite call _ => if call.current = b then 1 else 0
  | .putDecrement call => if call.current = b then 1 else 0
  | _ => 0

/-- The thread has been granted the range `r` of `b` and has not copied its payload yet. -/
def pending (b : Fin L) (r : Usize × Usize) : Pc L → Nat
  | .reserved b' payload (.ok offset) => if b' = b ∧ (offset, payload.len) = r then 1 else 0
  | .putWrite call offset => if call.current = b ∧ (offset, call.payload.len) = r then 1 else 0
  | _ => 0

/-- A thread that releases holds a reservation. -/
theorem holds_of_releases {b : Fin L} {pc : Pc L} (h : pc.Releases b) : pc.holds b = 1 := by
  cases pc
  case putDecrement call => exact if_pos h
  all_goals cases h

/-- A range to copy to is part of a reservation. -/
theorem pending_le_holds (b : Fin L) (r : Usize × Usize) (pc : Pc L) :
    pc.pending b r ≤ pc.holds b := by
  unfold pending
  split
  case h_3 => exact Nat.zero_le _
  all_goals
    simp only [holds]
    split
    next hif => rw [if_pos hif.1]
    next => exact Nat.zero_le _

theorem pending_none {b : Fin L} {r : Usize × Usize} {pc : Pc L} (h : pc.holds b = 0) :
    pc.pending b r = 0 :=
  Nat.eq_zero_of_le_zero (h ▸ pending_le_holds b r pc)

theorem holds_of_lands {pc : Pc L} (b : Fin L) (h : pc.lands = true) : pc.holds b = 0 := by
  cases pc
  case reserved b' payload result => cases h
  case putWrite call offset => cases h
  case putDecrement call => cases h
  all_goals rfl

section Entry
variable (b : Fin L) (r : Usize × Usize)

theorem holds_putEntry (b' : Fin L) (payload : Slice) (result : Except BufferError Usize) :
    (putEntry { current := b', reserve_result := result, payload }).holds b =
      (reserved b' payload result).holds b := by
  cases result with
  | ok offset => rfl
  | error e => cases e <;> rfl

theorem pending_putEntry (b' : Fin L) (payload : Slice) (result : Except BufferError Usize) :
    (putEntry { current := b', reserve_result := result, payload }).pending b r =
      (reserved b' payload result).pending b r := by
  cases result with
  | ok offset => rfl
  | error e => cases e <;> rfl

end Entry

end Pc

/-- A call that a client enters keeps the reservations. -/
theorem Entered.holds {held : Option (Fin L)} {msg : Option Slice} {c : Call} {pc pc' : Pc L}
    (b : Fin L) (h : Entered held msg c pc pc') : pc'.holds b = pc.holds b := by
  cases h
  case put b' payload result => exact Pc.holds_putEntry b b' payload result
  all_goals rfl

/-- A call that a client enters keeps the ranges to copy to. -/
theorem Entered.pending {held : Option (Fin L)} {msg : Option Slice} {c : Call} {pc pc' : Pc L}
    (b : Fin L) (r : Usize × Usize) (h : Entered held msg c pc pc') :
    pc'.pending b r = pc.pending b r := by
  cases h
  case put b' payload result => exact Pc.pending_putEntry b r b' payload result
  all_goals rfl

section Steps
variable {options : BufferRingOptions} {ok : Bool} {mem mem' : BufferRing L} {pc pc' : Pc L}

/-- A step other than the exchange and the `fetch_sub` leaves a thread's reservations alone. -/
theorem Advances.holds (b : Fin L) (h : Advances options mem pc pc')
    (hgrant : ¬ pc.Grants b (mem.ring b).state) (hrelease : ¬ pc.Releases b) :
    pc'.holds b = pc.holds b := by
  cases h
  case reserve_granted b' payload state offset new hstate =>
    have hne : b' ≠ b := by
      rintro rfl
      exact hgrant ⟨rfl, hstate⟩
    exact if_neg hne
  case last_writer call _ _ => exact (if_neg hrelease).symm
  case not_last call _ => exact (if_neg hrelease).symm
  case flush_won | rotated_before | rotate_exhausted | rotate_stored | submit_pushed | address_reset |
      cque_takes =>
    exact Pc.holds_of_lands b (by simp)
  all_goals rfl

/-- A grant adds a writer and a reservation. -/
theorem next_writers_granted (b : Fin L) (hpc : pc.WellFormed)
    (hg : pc.Grants b (mem.ring b).state)
    (hroom : (state_writers (mem.ring b).state).toNat + 1 < 2 ^ 24)
    (h : next options ok mem pc = some (pc', mem')) :
    (state_writers (mem'.ring b).state).toNat + pc.holds b =
      (state_writers (mem.ring b).state).toNat + pc'.holds b := by
  have hstate := next_state b h
  have hadvances := next_advances h
  cases hadvances
  case reserve_granted b' payload state offset new _ =>
    obtain ⟨rfl, hloaded⟩ := hg
    obtain ⟨_, _, _, _, hnew⟩ := FlushBuffer.reserve_decision_ok hpc
    rw [hstate]
    simp only [Pc.wordAfter, hloaded, and_self, if_true, Pc.holds]
    rw [hnew, ← hloaded, state_writers_reserved _ _ hroom]
  case reserve_contended b' payload state offset new hchanged =>
    obtain ⟨rfl, hloaded⟩ := hg
    exact absurd hloaded hchanged
  all_goals cases hg

/-- A release takes a writer and a reservation away. -/
theorem next_writers_released (b : Fin L) (hr : pc.Releases b)
    (hpos : 0 < (state_writers (mem.ring b).state).toNat)
    (h : next options ok mem pc = some (pc', mem')) :
    (state_writers (mem'.ring b).state).toNat + pc.holds b =
      (state_writers (mem.ring b).state).toNat + pc'.holds b := by
  have hstate := next_state b h
  have hadvances := next_advances h
  have hword := state_writers_sub_writer _ hpos
  cases hadvances
  case last_writer call _ _ =>
    obtain rfl : call.current = b := hr
    rw [hstate]
    simp only [Pc.wordAfter, Pc.holds, if_true]
    omega
  case not_last call _ =>
    obtain rfl : call.current = b := hr
    rw [hstate]
    simp only [Pc.wordAfter, Pc.holds, if_true]
    omega
  all_goals cases hr

/-- The writer count of `b` moves with the reservation the stepping thread gains or gives up, as long
as the field does not overflow and no reset finds a writer. -/
theorem next_writers (b : Fin L) (hpc : pc.WellFormed)
    (hroom : pc.Grants b (mem.ring b).state → (state_writers (mem.ring b).state).toNat + 1 < 2 ^ 24)
    (hrelease : pc.Releases b → 0 < (state_writers (mem.ring b).state).toNat)
    (hreset : pc.Resets b → state_writers (mem.ring b).state = 0)
    (h : next options ok mem pc = some (pc', mem')) :
    (state_writers (mem'.ring b).state).toNat + pc.holds b =
      (state_writers (mem.ring b).state).toNat + pc'.holds b := by
  by_cases hg : pc.Grants b (mem.ring b).state
  · exact next_writers_granted b hpc hg (hroom hg) h
  by_cases hr : pc.Releases b
  · exact next_writers_released b hr (hrelease hr) h
  have hholds := (next_advances h).holds b hg hr
  by_cases hz : pc.Resets b
  · have hzero := hreset hz
    rw [next_reset b h hz, hholds, hzero]
    rfl
  · rw [hholds, (next_counts b h hg hr hz).1]

/-- A range of `b` that a step grants becomes pending, and a pending one that it copies is copied. -/
theorem next_ranges (b : Fin L) (r : Usize × Usize) (hreset : ¬ pc.Resets b)
    (h : next options ok mem pc = some (pc', mem')) :
    (mem'.ring b).filling.granted.count r + ((mem.ring b).filling.copied.map range).count r +
        pc.pending b r =
      (mem.ring b).filling.granted.count r + ((mem'.ring b).filling.copied.map range).count r +
        pc'.pending b r := by
  rw [next_filling b h]
  cases next_advances h
  case reserve_granted b' payload state offset new hstate =>
    by_cases hb : b' = b
    · subst b'
      simp only [Pc.fillingAfter, hstate, and_self, if_true, Pc.pending, true_and,
        List.count_append, List.count_singleton, beq_iff_eq]
      omega
    · simp [Pc.fillingAfter, Pc.pending, hb]
  case reserve_contended b' payload state offset new hchanged =>
    have hkeep : ¬ (b' = b ∧ (mem.ring b).state = state) := by
      rintro ⟨rfl, hloaded⟩
      exact hchanged hloaded
    simp [Pc.fillingAfter, Pc.pending, hkeep]
  case put_wrote call offset =>
    by_cases hb : call.current = b
    · simp only [Pc.fillingAfter, hb, if_true, Pc.pending, true_and, List.map_append, List.map_cons,
        List.map_nil, List.count_append, List.count_singleton, beq_iff_eq, range]
      omega
    · simp [Pc.fillingAfter, Pc.pending, hb]
  case state_reset caller b' =>
    have hkeep : (Pc.resetState caller b').fillingAfter b (mem.ring b).state (mem.ring b).filling =
        (mem.ring b).filling := if_neg hreset
    rw [hkeep]
    rfl
  case flush_won | rotated_before | rotate_exhausted | rotate_stored | submit_pushed | address_reset |
      cque_takes =>
    exact congrArg (_ + ·) (Pc.pending_none (Pc.holds_of_lands b (by simp))).symm
  all_goals rfl

end Steps

section Balanced
variable {T : Type} [Fintype T] {mem mem' : BufferRing L} {pc : T → Pc L} {b : Fin L}

/-- The word and the history of `b` agree with what the threads hold of it. -/
structure Balanced (mem : BufferRing L) (pc : T → Pc L) (b : Fin L) : Prop where
  writers : (state_writers (mem.ring b).state).toNat = ∑ t, (pc t).holds b
  ranges : ∀ r, (mem.ring b).filling.granted.count r =
    ((mem.ring b).filling.copied.map range).count r + ∑ t, (pc t).pending b r

/-- Without writers nobody has a range to copy to. -/
theorem Balanced.no_pending (hs : Balanced mem pc b) (hzero : state_writers (mem.ring b).state = 0)
    (r : Usize × Usize) : ∑ t, (pc t).pending b r = 0 := by
  have hsum : ∑ t, (pc t).holds b = 0 := by
    rw [← hs.writers, hzero]
    rfl
  have hle : ∑ t, (pc t).pending b r ≤ ∑ t, (pc t).holds b :=
    Finset.sum_le_sum fun t _ => Pc.pending_le_holds b r (pc t)
  omega

/-- A buffer without writers has every range it granted copied. -/
theorem Balanced.drained (hs : Balanced mem pc b)
    (hzero : state_writers (mem.ring b).state = 0) :
    (mem.ring b).filling.granted.Perm ((mem.ring b).filling.copied.map range) := by
  rw [List.perm_iff_count]
  intro r
  have hcount := hs.ranges r
  rw [hs.no_pending hzero r] at hcount
  exact hcount

/-- A thread that holds a reservation of `b` is counted in its word. -/
theorem Balanced.counted (hs : Balanced mem pc b) {t : T} (hholds : (pc t).holds b = 1) :
    0 < (state_writers (mem.ring b).state).toNat := by
  rw [hs.writers]
  have hle := share_le_sum (Pc.holds b) pc t
  omega

/-- An empty buffer before any call. -/
theorem Balanced.of_empty (hword : (mem.ring b).state = 0)
    (hgranted : (mem.ring b).filling.granted = []) (hcopied : (mem.ring b).filling.copied = []) :
    Balanced mem (fun _ : T => Pc.idle) b where
  writers := by simp [hword, Pc.holds]
  ranges r := by simp [hgranted, hcopied, Pc.pending]

/-- A change to neither the writers nor the filling. -/
theorem Balanced.congr (hs : Balanced mem pc b)
    (hwriters : state_writers (mem'.ring b).state = state_writers (mem.ring b).state)
    (hfilling : (mem'.ring b).filling = (mem.ring b).filling) : Balanced mem' pc b where
  writers := by
    rw [hwriters]
    exact hs.writers
  ranges := by
    rw [hfilling]
    exact hs.ranges

variable [DecidableEq T] {options : BufferRingOptions}

/-- A call that a client enters keeps the count. -/
theorem Balanced.call (hs : Balanced mem pc b) {t : T} {held : Option (Fin L)} {msg : Option Slice}
    {c : Call} {pc' : Pc L} (h : Entered held msg c (pc t) pc') :
    Balanced mem (Function.update pc t pc') b where
  writers := by
    refine balance_step hs.writers ?_
    rw [h.holds b]
  ranges r := by
    have hsum := sum_update_add (Pc.pending b r) pc t pc'
    rw [h.pending b r] at hsum
    have hbefore := hs.ranges r
    omega

omit [DecidableEq T] in
/-- A completion changes neither the words nor the fillings. -/
theorem Balanced.complete (hs : Balanced mem pc b) {i : Nat} {result : Int}
    (h : mem.complete i result = some mem') : Balanced mem' pc b := by
  obtain ⟨e, _, _, rfl⟩ := BufferRing.complete_cases h
  exact ⟨hs.writers, hs.ranges⟩

/-- A step keeps the writer count equal to the reservations held. -/
theorem Balanced.run (hs : Balanced mem pc b) {t : T} {ok : Bool} {pc' : Pc L}
    (hpc : (pc t).WellFormed)
    (hroom : (pc t).Grants b (mem.ring b).state →
      (state_writers (mem.ring b).state).toNat + 1 < 2 ^ 24)
    (hreset : (pc t).Resets b → state_writers (mem.ring b).state = 0)
    (h : next options ok mem (pc t) = some (pc', mem')) :
    Balanced mem' (Function.update pc t pc') b := by
  have hrelease (hr : (pc t).Releases b) : 0 < (state_writers (mem.ring b).state).toNat :=
    hs.counted (Pc.holds_of_releases hr)
  refine ⟨balance_step hs.writers (next_writers b hpc hroom hrelease hreset h), fun r => ?_⟩
  have hsum := sum_update_add (Pc.pending b r) pc t pc'
  by_cases hz : (pc t).Resets b
  · -- nobody holds a reservation of a buffer that is reset, so none is left pending
    have hpending := hs.no_pending (hreset hz) r
    have hfilling := next_filling b h
    have hadvances := next_advances h
    cases hpc' : pc t
    all_goals rw [hpc'] at hz hfilling hadvances hsum
    case resetState caller b' =>
      cases hadvances
      obtain rfl : b' = b := hz
      rw [hfilling]
      simp only [Pc.fillingAfter, if_true, List.count_nil, List.map_nil]
      have hbefore : (Pc.resetState caller b').pending b' r = 0 := rfl
      have hafter : (Pc.resetAddress caller b').pending b' r = 0 := rfl
      omega
    all_goals cases hz
  · have hranges := next_ranges b r hz h
    have hbefore := hs.ranges r
    omega

end Balanced

namespace Threads

variable {T : Type}

/-- The writer-count field has room for the reservation being granted. -/
def roomy (s : Threads T L) : Action T → Bool
  | .run t _ =>
    match s.pc t with
    | .reserveExchange b _ _ _ _ => decide ((state_writers (s.mem.ring b).state).toNat + 1 < 2 ^ 24)
    | _ => true
  | _ => true

/-- A grant finds room in the writer count. -/
theorem roomy_run {s : Threads T L} {t : T} {ok : Bool} {b : Fin L} (hroomy : roomy s (.run t ok) = true)
    (hg : (s.pc t).Grants b (s.mem.ring b).state) :
    (state_writers (s.mem.ring b).state).toNat + 1 < 2 ^ 24 := by
  generalize hpc : s.pc t = p at hg
  cases p
  case reserveExchange b' payload state offset new =>
    obtain ⟨rfl, _⟩ := hg
    simpa [roomy, hpc] using hroomy
  all_goals cases hg

/-- A buffer is reset only when its word counts no writer. -/
def resetsDrained (s : Threads T L) : Action T → Bool
  | .run t _ =>
    match s.pc t with
    | .resetState _ b => state_writers (s.mem.ring b).state == 0
    | _ => true
  | _ => true

/-- The buffer that is reset has no writers. -/
theorem resetsDrained_run {s : Threads T L} {t : T} {ok : Bool} {b : Fin L}
    (hdrained : resetsDrained s (.run t ok) = true) (hz : (s.pc t).Resets b) :
    state_writers (s.mem.ring b).state = 0 := by
  generalize hpc : s.pc t = p at hz
  cases p
  case resetState caller b' =>
    obtain rfl : b' = b := hz
    simpa [resetsDrained, hpc] using hdrained
  all_goals cases hz

end Threads

end FlushRing
