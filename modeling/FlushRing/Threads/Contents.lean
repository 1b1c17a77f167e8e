import FlushRing.Client.Filling
import FlushRing.Threads.Address
import FlushRing.Threads.Length
import FlushRing.Threads.Manual

/-! The data of a buffer while threads fill it, and from its seal to its reset. -/

open Transition Extents

namespace FlushRing

variable {L : Nat}

namespace FlushBuffer

/-- The data of the buffer is as it was. -/
structure Still (x y : FlushBuffer L) : Prop where
  size : y.size = x.size
  buf : y.buf = x.buf
  filling : y.filling = x.filling

theorem Still.data_len {x y : FlushBuffer L} (h : x.Still y) : y.data_len = x.data_len :=
  congrArg (next_multiple_of · FOUR_KB_BLOCK) h.size

theorem Still.trans {x y z : FlushBuffer L} (h : x.Still y) (h' : y.Still z) : x.Still z :=
  ⟨h'.size.trans h.size, h'.buf.trans h.buf, h'.filling.trans h.filling⟩

/-- A drained buffer holds its payloads in the order of their reservations. -/
theorem filled {self : FlushBuffer L} (htiled : Tiled self) (hdrained : Drained self) : Filled self [] where
  toTiled := htiled
  writers := by
    rw [hdrained.writers]
    rfl
  granted := by
    rw [List.append_nil]
    exact hdrained.granted
  copied := hdrained.copied

end FlushBuffer

namespace Threads

variable {T : Type} [Fintype T]

section Run
variable {options : BufferRingOptions} {s : Threads T L} {t : T} {ok : Bool} {pc : Pc L} {mem : BufferRing L}
variable {b : Fin L}

/-- From the flush bit to the reset no step touches the data of a buffer. -/
theorem Sound.still (hs : s.Sound) (hflush : state_flush_in_progress (s.mem.ring b).state = true)
    (hreset : ¬ (s.pc t).Resets b) (h : next options ok s.mem (s.pc t) = some (pc, mem)) :
    (s.mem.ring b).Still (mem.ring b) := by
  obtain ⟨hsealed, hzero⟩ := (hs.orderly b).flushing hflush
  have hwf := hs.owned.wellFormed t
  have hidle : (s.pc t).holds b = 0 := by
    have hwriters := (hs.balanced b).writers
    rw [hzero] at hwriters
    have hle := share_le_sum (Pc.holds b) s.pc t
    have hnone : (0 : Usize).toNat = 0 := rfl
    omega
  refine ⟨next_keeps_offset (hs.balanced b) hwf hreset hsealed h, ?_, ?_⟩
  · rw [next_buf b h]
    generalize s.pc t = p at hidle
    cases p
    case putWrite call offset =>
      refine if_neg fun hb => ?_
      simp only [Pc.holds, if_pos hb] at hidle
      cases hidle
    all_goals rfl
  · rw [next_filling b h]
    have hgrant : ¬ (s.pc t).Grants b (s.mem.ring b).state := Pc.not_grants hwf hsealed
    generalize s.pc t = p at hidle hgrant hreset
    cases p
    case putWrite call offset =>
      refine if_neg fun hb => ?_
      simp only [Pc.holds, if_pos hb] at hidle
      cases hidle
    case reserveExchange b' payload state offset new => exact if_neg hgrant
    case resetState caller b' => exact if_neg hreset
    all_goals rfl

/-- A thread that measures a buffer finds it sealed. -/
theorem Sound.measuring_sealed (hs : s.Sound) (h : (s.pc t).measuring = some b) :
    state_sealed (s.mem.ring b).state = true := by
  obtain hrole | howns := Pc.measuring_cases h
  · exact (hs.orderly b).sealed t _ hrole
  · exact (hs.drained (Nat.lt_of_lt_of_le howns (Nat.le_add_right _ _))).sealed

variable [DecidableEq T]

/-- A buffer with a claim to its flush is reset by no other thread. -/
theorem Sound.unreset_of_tokens (hs : s.Sound) {t' : T} (ht : t' ≠ t) (htokens : 0 < (s.pc t').tokens b) :
    ¬ (s.pc t).Resets b := by
  intro hz
  have hpair := pair_le_sum (Pc.tokens b) s.pc ht
  have hreset := Pc.tokens_of_resets (hs.owned.wellFormed t) hz
  have hsingle := (hs.owned.single b).trans (flushBit_le_one s.mem b)
  omega

/-- A buffer that a thread measures is not reset. -/
theorem Sound.measuring_unreset (hs : s.Sound) (hsettled : settled s (.run t ok) = true) {t' : T}
    (h : (s.pc t').measuring = some b) : ¬ (s.pc t).Resets b := by
  intro hz
  obtain hrole | howns := Pc.measuring_cases h
  · exact settled_run hsettled hz t' _ hrole
  · have hne : t' ≠ t := by
      rintro rfl
      generalize s.pc t' = p at h hz
      cases p
      case resetState caller b' => cases h
      all_goals cases hz
    exact hs.unreset_of_tokens hne (Nat.lt_of_lt_of_le howns (Nat.le_add_right _ _)) hz

omit [Fintype T] [DecidableEq T] in
/-- A reset gives up the slot, and a claim takes the next address for one. -/
theorem record_slot_cases (hmanual : (s.pc t).manual = false)
    (h : next options ok s.mem (s.pc t) = some (pc, mem)) (b : Fin L) :
    ((s.pc t).Resets b ∧ (s.record (s.pc t) pc).slot b = none) ∨
      (¬ (s.pc t).Resets b ∧ (s.record (s.pc t) pc).slot b = s.slot b) ∨
      ∃ call padded, s.pc t = .putClaim call padded ∧ call.current = b ∧
        (s.record (s.pc t) pc).slot b = some s.mem.next_address_range ∧
        mem.next_address_range = s.mem.next_address_range + padded := by
  have hmem := next_mem h
  have hadvances := next_advances h
  generalize s.pc t = p at hmanual hmem hadvances
  cases p
  case putClaim call padded =>
    cases hadvances
    by_cases hb : call.current = b
    · refine .inr (.inr ⟨call, padded, rfl, hb, ?_, ?_⟩)
      · rw [← hb]
        simp [record]
      · rw [hmem]
        rfl
    · refine .inr (.inl ⟨id, ?_⟩)
      simp [record, Function.update_of_ne (Ne.symm hb)]
  case resetState caller b' =>
    by_cases hb : b' = b
    · refine .inl ⟨hb, ?_⟩
      simp [record, hb]
    · refine .inr (.inl ⟨hb, ?_⟩)
      simp [record, Function.update_of_ne (Ne.symm hb)]
  case currentClaim => cases hmanual
  all_goals exact .inr (.inl ⟨id, rfl⟩)

end Run

/-- The buffers' data, the lengths read off them and the slots, on the automatic path. -/
structure Contents (s : Threads T L) : Prop where
  claims : s.Claims
  measured : ∀ t b len, (s.pc t).measured = some (b, len) → len = (s.mem.ring b).data_len
  slotted : ∀ b v, s.slot b = some v → state_sealed (s.mem.ring b).state = true

theorem contents_init [NeZero L] (options : BufferRingOptions) :
    (init (BufferRing.with_options options) : Threads T L).Contents where
  claims := ⟨sound_init options, fun _ => rfl, fun _ => .of_idle (by simp [init, BufferRing.with_options,
    FlushBuffer.new_buffer])⟩
  measured _ _ _ h := by cases h
  slotted _ _ h := by cases h

section Steps
variable {options : BufferRingOptions} {s s' : Threads T L} {a : Action T}
variable {t : T} {ok : Bool} {pc : Pc L} {mem : BufferRing L}

/-- The granted ranges of a buffer tile the bytes below its offset. -/
theorem Contents.tiled (hs : s.Contents) (b : Fin L) : Tiled (s.mem.ring b) := (hs.claims.sound.laid b).tiled

/-- What was copied to a buffer is in its memory. -/
theorem Contents.copied (hs : s.Contents) (b : Fin L) : Copied (s.mem.ring b) := (hs.claims.sound.laid b).copied

/-- The length of a sealed buffer stays until its reset. -/
theorem Contents.data_len_kept (hs : s.Contents) {b : Fin L} (hreset : ¬ (s.pc t).Resets b)
    (hsealed : state_sealed (s.mem.ring b).state = true)
    (h : next options ok s.mem (s.pc t) = some (pc, mem)) :
    (mem.ring b).data_len = (s.mem.ring b).data_len :=
  congrArg (next_multiple_of · FOUR_KB_BLOCK) (next_keeps_offset (hs.claims.sound.balanced b)
    (hs.claims.sound.owned.wellFormed t) hreset hsealed h)

variable [DecidableEq T]

/-- A length read off a sealed buffer stays its length. -/
theorem Contents.measured_run (hs : s.Contents) (hsettled : settled s (.run t ok) = true)
    (h : next options ok s.mem (s.pc t) = some (pc, mem)) {t' : T} {b : Fin L} {len : Usize}
    (hlen : (Function.update s.pc t pc t').measured = some (b, len)) : len = (mem.ring b).data_len := by
  have hsound := hs.claims.sound
  obtain ⟨rfl, hnew⟩ | ⟨_, hold⟩ := update_cases (p := fun pc => pc.measured = some (b, len)) hlen
  · obtain ⟨hmeasuring, hbefore⟩ := (next_advances h).measured hnew
    rw [hs.data_len_kept (hsound.measuring_unreset hsettled hmeasuring) (hsound.measuring_sealed hmeasuring) h]
    exact hbefore.elim (hs.measured t' b len) id
  · have hmeasuring := Pc.measuring_of_measured hold
    rw [hs.data_len_kept (hsound.measuring_unreset hsettled hmeasuring) (hsound.measuring_sealed hmeasuring) h]
    exact hs.measured t' b len hold

omit [DecidableEq T] in
/-- A buffer keeps its slot while it is sealed. -/
theorem Contents.slotted_run (hs : s.Contents) (h : next options ok s.mem (s.pc t) = some (pc, mem)) {b : Fin L}
    {v : Usize} (hslot : (s.record (s.pc t) pc).slot b = some v) :
    state_sealed (mem.ring b).state = true := by
  have hsound := hs.claims.sound
  have hwf := hsound.owned.wellFormed t
  obtain ⟨_, hnone⟩ | ⟨hreset, hsame⟩ | ⟨call, padded, hpc, hb, _, _⟩ :=
    record_slot_cases (hs.claims.manual t) h b
  · rw [hnone] at hslot
    cases hslot
  · rw [hsame] at hslot
    exact next_stays_sealed hwf hreset (hs.slotted b v hslot) h
  · have hsealed : state_sealed (s.mem.ring b).state = true := by
      refine (hsound.orderly b).sealed t .sealing ?_
      rw [hpc, ← hb]
      rfl
    refine next_stays_sealed hwf ?_ hsealed h
    rw [hpc]
    exact id

/-- Every step of the automatic path that meets the conditions keeps the data, lengths and slots. -/
theorem Contents.step (hs : s.Contents) (ha : automatic a = true) (hsettled : settled s a = true)
    (hroomy : roomy s a = true) (hkept : addressKept s a = true) (h : Threads.step options s a = some s') :
    s'.Contents := by
  have hclaims := hs.claims.step ha hsettled hroomy hkept h
  have hsound := hs.claims.sound
  obtain ⟨t, c, pc, rfl, hentry, rfl⟩ | ⟨t, ok, pc, mem, rfl, hnext, rfl⟩ |
    ⟨i, result, mem, rfl, hmem, rfl⟩ := step_cases h
  · have hentered := entry_entered hentry
    refine ⟨hclaims, ?_, fun b v hv => ?_⟩
    · rw [note_mem]
      rw [Function.forall_update_iff s.pc (p := fun _ pc => ∀ b len, pc.measured = some (b, len) →
        len = (s.mem.ring b).data_len)]
      refine ⟨fun b len hlen => ?_, fun t' _ => hs.measured t'⟩
      rw [hentered.measured] at hlen
      cases hlen
    · rw [note_mem]
      rw [note_slot] at hv
      exact hs.slotted b v hv
  · exact ⟨hclaims, fun t' b len hlen => hs.measured_run hsettled hnext hlen,
      fun b v hv => hs.slotted_run hnext hv⟩
  · obtain ⟨e, _, _, rfl⟩ := BufferRing.complete_cases hmem
    exact ⟨hclaims, hs.measured, hs.slotted⟩

end Steps

end Threads

end FlushRing
