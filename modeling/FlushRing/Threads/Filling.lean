import FlushRing.Threads.Reservations

/-! The bytes of a buffer against the reservations its threads hold: every range a thread was granted
lies within one megabyte, and what was copied to one range stays until the next reset. -/

open Transition Extents

namespace FlushRing

variable {L : Nat}

namespace Pc

/-- The memory of `b` after a step. -/
def bufAfter (b : Fin L) (buf : Buffer) : Pc L → Buffer
  | .putWrite call offset =>
    if call.current = b then { buf with bytes := FlushBuffer.copyAt buf.bytes offset call.payload }
    else buf
  | _ => buf

/-- A payload being reserved in `b` is at most one megabyte, and a range granted of `b` ends within one. -/
def Bounded (b : Fin L) : Pc L → Prop
  | .reserveLoad b' payload => b' = b → payload.len ≤ ONE_MEGABYTE_BLOCK
  | .reserveExchange b' payload _ offset _ =>
    b' = b → payload.len ≤ ONE_MEGABYTE_BLOCK ∧ offset.toNat + payload.len.toNat ≤ 2 ^ 20
  | .reserved b' payload (.ok offset) => b' = b → offset.toNat + payload.len.toNat ≤ 2 ^ 20
  | .putWrite call offset => call.current = b → offset.toNat + call.payload.len.toNat ≤ 2 ^ 20
  | _ => True

theorem bounded_putEntry {b b' : Fin L} {payload : Slice} {result : Except BufferError Usize}
    (h : (reserved b' payload result).Bounded b) :
    (putEntry { current := b', reserve_result := result, payload }).Bounded b := by
  cases result with
  | ok offset => exact h
  | error e => cases e <;> trivial

theorem bounded_of_lands {pc : Pc L} (b : Fin L) (h : pc.lands = true) : pc.Bounded b := by
  cases pc
  case reserveLoad b payload => cases h
  case reserveExchange b payload state offset new => cases h
  case reserved b payload result => cases h
  case putWrite call offset => cases h
  all_goals trivial

end Pc

/-- A call takes up no new range. -/
theorem Entered.bounded {held : Option (Fin L)} {msg : Option Slice} {c : Call} {pc pc' : Pc L}
    {b : Fin L} (h : Entered held msg c pc pc') (hpc : pc.Bounded b) : pc'.Bounded b := by
  cases h
  case put b payload result => exact Pc.bounded_putEntry hpc
  case reserve_space hlen => exact fun _ => hlen
  all_goals trivial

section Steps
variable {options : BufferRingOptions} {ok : Bool} {mem mem' : BufferRing L} {pc pc' : Pc L}

/-- The memory of a buffer after a step. -/
theorem next_buf (b : Fin L) (h : next options ok mem pc = some (pc', mem')) :
    (mem'.ring b).buf = pc.bufAfter b (mem.ring b).buf := by
  obtain ⟨sqe, hbuffer⟩ := next_buffer b h
  rw [hbuffer]
  cases pc
  all_goals simp only [Pc.bufferAfter, Pc.bufAfter]
  all_goals split <;> rfl

/-- A step reserves no bytes beyond one megabyte. -/
theorem Advances.bounded (b : Fin L) (h : Advances options mem pc pc') (hpc : pc.Bounded b)
    (hsize : (mem.ring b).size.toNat ≤ 2 ^ 20) : pc'.Bounded b := by
  cases h
  case reserve_prepared b' payload offset new hdecision =>
    rintro rfl
    exact ⟨hpc rfl, (FlushBuffer.reserve_decision_fits hsize (hpc rfl) hdecision).2⟩
  case reserve_granted => exact fun hb => (hpc hb).2
  case flush_won | rotated_before | rotate_exhausted | rotate_stored | submit_pushed | address_reset |
      cque_takes =>
    exact Pc.bounded_of_lands b (by simp)
  all_goals trivial

/-- The offset of a buffer stays within one megabyte, as long as no writer count overflows and none is
taken below zero. -/
theorem next_size_le (b : Fin L) (hwf : pc.WellFormed) (hbounded : pc.Bounded b)
    (hsize : (mem.ring b).size.toNat ≤ 2 ^ 20)
    (hroom : pc.Grants b (mem.ring b).state → (state_writers (mem.ring b).state).toNat + 1 < 2 ^ 24)
    (hrelease : pc.Releases b → 0 < (state_writers (mem.ring b).state).toNat)
    (h : next options ok mem pc = some (pc', mem')) : (mem'.ring b).size.toNat ≤ 2 ^ 20 := by
  unfold FlushBuffer.size at hsize ⊢
  by_cases hg : pc.Grants b (mem.ring b).state
  · rw [next_state b h]
    cases pc
    case reserveExchange b' payload state offset new =>
      obtain ⟨rfl, hstate⟩ := hg
      obtain ⟨_, _, hoffset, _, hnew⟩ := FlushBuffer.reserve_decision_ok hwf
      have hfits := (hbounded rfl).2
      rw [hoffset, ← hstate] at hfits
      simp only [Pc.wordAfter, hstate, and_self, if_true]
      rw [hnew, ← hstate, state_offset_reserved _ _ (by omega) (hroom ⟨rfl, hstate⟩)]
      exact hfits
    all_goals cases hg
  by_cases hr : pc.Releases b
  · rw [next_state b h]
    cases pc
    case putDecrement call =>
      obtain rfl : call.current = b := hr
      simp only [Pc.wordAfter, if_true]
      rw [state_offset_sub_writer _ (hrelease rfl)]
      exact hsize
    all_goals cases hr
  by_cases hz : pc.Resets b
  · rw [next_state b h]
    cases pc
    case resetState caller b' =>
      obtain rfl : b' = b := hz
      simp only [Pc.wordAfter, if_true]
      exact Nat.zero_le _
    all_goals cases hz
  · rw [(next_counts b h hg hr hz).2]
    exact hsize

/-- A step that neither grants a range of `b` nor resets it leaves the granted ranges as they are. -/
theorem next_granted (b : Fin L) (hgrant : ¬ pc.Grants b (mem.ring b).state) (hreset : ¬ pc.Resets b)
    (h : next options ok mem pc = some (pc', mem')) :
    (mem'.ring b).filling.granted = (mem.ring b).filling.granted := by
  rw [next_filling b h]
  cases pc
  all_goals simp only [Pc.fillingAfter]
  case resetState caller b' => exact congrArg Filling.granted (if_neg hreset)
  case reserveExchange b' payload state offset new => exact congrArg Filling.granted (if_neg hgrant)
  all_goals split <;> rfl

/-- The granted ranges go on tiling the bytes below the offset. -/
theorem next_tiled (b : Fin L) (hwf : pc.WellFormed) (hbounded : pc.Bounded b) (htiled : Tiled (mem.ring b))
    (hroom : pc.Grants b (mem.ring b).state → (state_writers (mem.ring b).state).toNat + 1 < 2 ^ 24)
    (hrelease : pc.Releases b → 0 < (state_writers (mem.ring b).state).toNat)
    (h : next options ok mem pc = some (pc', mem')) : Tiled (mem'.ring b) := by
  have hstate := next_state b h
  have hfilling := next_filling b h
  by_cases hg : pc.Grants b (mem.ring b).state
  · cases pc
    case reserveExchange b' payload state offset new =>
      obtain ⟨rfl, hloaded⟩ := hg
      have hdecision : FlushBuffer.reserve_decision (mem.ring b').state payload.len = .ok (offset, new) := by
        rw [hloaded]
        exact hwf
      simp only [Pc.wordAfter, Pc.fillingAfter, hloaded, and_self, if_true] at hstate hfilling
      refine (htiled.grant (hbounded rfl).1 hdecision (hroom ⟨rfl, hloaded⟩)).congr ?_ ?_
      · rw [FlushBuffer.size, FlushBuffer.size, hstate, FlushBuffer.grant_state]
      · rw [hfilling, FlushBuffer.grant_filling_granted]
    all_goals cases hg
  by_cases hz : pc.Resets b
  · cases pc
    case resetState caller b' =>
      obtain rfl : b' = b := hz
      simp only [Pc.wordAfter, Pc.fillingAfter, if_true] at hstate hfilling
      exact .of_empty hstate (congrArg Filling.granted hfilling)
    all_goals cases hz
  refine htiled.congr ?_ (next_granted b hg hz h)
  unfold FlushBuffer.size
  by_cases hr : pc.Releases b
  · cases pc
    case putDecrement call =>
      obtain rfl : call.current = b := hr
      simp only [Pc.wordAfter, if_true] at hstate
      rw [hstate, state_offset_sub_writer _ (hrelease rfl)]
    all_goals cases hr
  · exact (next_counts b h hg hr hz).2

/-- The range a thread copies to next is apart from those already copied to. -/
theorem pending_apart {T : Type} [Fintype T] {pc : T → Pc L} {t : T} {r : Usize × Usize}
    (hbalanced : Balanced mem pc b) (htiled : Tiled (mem.ring b)) (hpending : (pc t).pending b r = 1)
    {copy : Usize × Slice} (hcopy : copy ∈ (mem.ring b).filling.copied) :
    (extent (range copy)).Apart (extent r) := by
  have hshare := share_le_sum (Pc.pending b r) pc t
  have hgranted := hbalanced.ranges r
  have hgrantedCopy := hbalanced.ranges (range copy)
  have hcopied : 0 < ((mem.ring b).filling.copied.map range).count (range copy) :=
    List.count_pos_iff.mpr (List.mem_map_of_mem hcopy)
  refine Extent.Apart.symm (htiled.apart ?_ ?_)
  · rw [← List.count_pos_iff]
    omega
  · rw [← List.count_pos_iff, List.count_erase]
    split
    next hr =>
      -- the same range twice: it was granted twice, and is empty
      obtain rfl : r = range copy := by simpa using hr
      omega
    next => omega

/-- A step leaves what was copied to the buffer in its memory. -/
theorem next_copied {T : Type} [Fintype T] {pc : T → Pc L} {t : T} {pc' : Pc L}
    (hbalanced : Balanced mem pc b) (htiled : Tiled (mem.ring b)) (hcopied : Copied (mem.ring b))
    (h : next options ok mem (pc t) = some (pc', mem')) : Copied (mem'.ring b) := by
  have hbuf := next_buf b h
  have hfilling := next_filling b h
  by_cases hput : ∃ call offset, pc t = .putWrite call offset ∧ call.current = b
  · obtain ⟨call, offset, hpc, rfl⟩ := hput
    have hwritten : Copied ((mem.ring call.current).write offset call.payload) :=
      hcopied.write fun copy hcopy => pending_apart (t := t) hbalanced htiled
        (by simp [hpc, Pc.pending]) hcopy
    rw [hpc] at hbuf hfilling
    simp only [Pc.bufAfter, Pc.fillingAfter, if_true] at hbuf hfilling
    unfold Copied
    rw [hbuf, hfilling]
    exact hwritten
  · have hsame : (mem'.ring b).buf = (mem.ring b).buf := by
      rw [hbuf]
      generalize pc t = p at hput
      cases p
      case putWrite call offset => exact if_neg fun hb => hput ⟨call, offset, rfl, hb⟩
      all_goals rfl
    have hsub : ∀ copy ∈ (mem'.ring b).filling.copied, copy ∈ (mem.ring b).filling.copied := by
      rw [hfilling]
      intro copy hcopy
      generalize pc t = p at hput hcopy
      cases p
      case putWrite call offset =>
        rwa [Pc.fillingAfter, if_neg fun hb => hput ⟨call, offset, rfl, hb⟩] at hcopy
      case reserveExchange b' payload state offset new =>
        simp only [Pc.fillingAfter] at hcopy
        split at hcopy <;> exact hcopy
      case resetState caller b' =>
        simp only [Pc.fillingAfter] at hcopy
        split at hcopy
        · cases hcopy
        · exact hcopy
      all_goals exact hcopy
    intro copy hcopy
    rw [hsame]
    exact hcopied copy (hsub copy hcopy)

end Steps

/-- The reservations of `b` lie within one megabyte, its granted ranges tile the bytes below the offset, and what
was copied to it is there. -/
structure Laid {T : Type} (mem : BufferRing L) (pc : T → Pc L) (b : Fin L) : Prop where
  bounded : ∀ t, (pc t).Bounded b
  tiled : Tiled (mem.ring b)
  copied : Copied (mem.ring b)

section Laid
variable {T : Type} [Fintype T] {mem : BufferRing L} {pc : T → Pc L} {b : Fin L}

omit [Fintype T] in
/-- An empty buffer before any call. -/
theorem Laid.of_empty (hword : (mem.ring b).state = 0) (hgranted : (mem.ring b).filling.granted = [])
    (hcopied : (mem.ring b).filling.copied = []) : Laid mem (fun _ : T => .idle) b where
  bounded _ := trivial
  tiled := .of_empty hword hgranted
  copied := .of_empty hcopied

variable [DecidableEq T] {t : T} {pc' : Pc L}

omit [Fintype T] in
/-- A call that a client enters changes no buffer. -/
theorem Laid.call (hs : Laid mem pc b) {held : Option (Fin L)} {msg : Option Slice} {c : Call}
    (h : Entered held msg c (pc t) pc') : Laid mem (Function.update pc t pc') b where
  bounded := by
    rw [Function.forall_update_iff pc (p := fun _ pc => pc.Bounded b)]
    exact ⟨h.bounded (hs.bounded t), fun t' _ => hs.bounded t'⟩
  tiled := hs.tiled
  copied := hs.copied

omit [Fintype T] [DecidableEq T] in
/-- A completion changes no buffer. -/
theorem Laid.complete (hs : Laid mem pc b) {i : Nat} {result : Int} {mem' : BufferRing L}
    (h : mem.complete i result = some mem') : Laid mem' pc b := by
  obtain ⟨e, _, _, rfl⟩ := BufferRing.complete_cases h
  exact ⟨hs.bounded, hs.tiled, hs.copied⟩

/-- A step keeps the ranges of the buffer apart and what was copied to them in place. -/
theorem Laid.run (hs : Laid mem pc b) (hbalanced : Balanced mem pc b) (hwf : (pc t).WellFormed)
    (hroom : (pc t).Grants b (mem.ring b).state → (state_writers (mem.ring b).state).toNat + 1 < 2 ^ 24)
    {options : BufferRingOptions} {ok : Bool} {mem' : BufferRing L}
    (h : next options ok mem (pc t) = some (pc', mem')) : Laid mem' (Function.update pc t pc') b where
  bounded := by
    rw [Function.forall_update_iff pc (p := fun _ pc => pc.Bounded b)]
    exact ⟨(next_advances h).bounded b (hs.bounded t) hs.tiled.fits, fun t' _ => hs.bounded t'⟩
  tiled := next_tiled b hwf (hs.bounded t) hs.tiled hroom
    (fun hr => hbalanced.counted (Pc.holds_of_releases hr)) h
  copied := next_copied hbalanced hs.tiled hs.copied h

end Laid

end FlushRing
