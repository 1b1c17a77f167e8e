import FlushRing.Buffer.Ops

namespace FlushRing

variable {L : Nat}

namespace FlushBuffer

/-- `increment_offset`: the offset it grants, and the buffer it leaves. -/
def increment (self : FlushBuffer L) (payload_size : Usize) : Option Usize × FlushBuffer L :=
  let (result, after) := self.increment_offset payload_size
  (result.toOption, after)

/-- `reserve_space` in the same way; a failed assertion is a rejection. -/
def reserve (self : FlushBuffer L) (payload_size : Usize) : Option Usize × FlushBuffer L :=
  match self.reserve_space payload_size with
  | some (result, after) => (result.toOption, after)
  | none => (none, self)

/-- A call that takes space keeps the word when it rejects, grants only what ends within one megabyte in
exact integers, and does not move the offset backwards. -/
structure TakesSpace (x : FlushBuffer L) (n : Usize) (call : Option Usize × FlushBuffer L) : Prop where
  rejected : call.1 = none → call.2.state = x.state
  granted : ∀ offset, call.1 = some offset → x.size.toNat + n.toNat ≤ ONE_MEGABYTE_BLOCK.toNat
  forward : x.size ≤ call.2.size

/-- The two ways to take space grant the same offset or both reject, and leave the same word once the
reservation is finished. -/
structure IncrementAgrees (x : FlushBuffer L) (n : Usize) : Prop where
  offset : (x.increment n).1 = (x.reserve n).1
  state : ∀ offset, (x.increment n).1 = some offset →
    (x.increment n).2.state = (x.reserve n).2.decrement_writers.state
  increments : x.TakesSpace n (x.increment n)
  reserves : x.TakesSpace n (x.reserve n)

variable {x : FlushBuffer L} {n : Usize}

/-- The space is taken when the sum, which may wrap, is within a megabyte. -/
theorem increment_of_le (h : x.size + n ≤ ONE_MEGABYTE_BLOCK) :
    x.increment n = (some x.size, x.store_state (x.state + n * OFFSET_ONE)) := by
  have hdecision : increment_offset_decision x.state n = .ok (x.size, x.state + n * OFFSET_ONE) :=
    if_neg (BitVec.not_lt.mpr h)
  rw [increment, increment_offset, hdecision]
  rfl

/-- It is refused when that sum is beyond. -/
theorem increment_of_lt (h : ONE_MEGABYTE_BLOCK < x.size + n) : x.increment n = (none, x) := by
  have hdecision : increment_offset_decision x.state n = .error .InsufficientSpace := if_pos h
  rw [increment, increment_offset, hdecision]
  rfl

theorem reserve_of_le (hsealed : state_sealed x.state = false)
    (hflushing : state_flush_in_progress x.state = false)
    (h : x.size.toNat + n.toNat ≤ ONE_MEGABYTE_BLOCK.toNat) :
    x.reserve n = (some x.size, x.grant (reserved_word x.state n) x.size n) := by
  have hsize : x.size ≤ ONE_MEGABYTE_BLOCK := by
    rw [BitVec.le_def]
    omega
  have hfits : ¬ x.size + n > ONE_MEGABYTE_BLOCK :=
    BitVec.not_lt.mpr ((add_le_iff n hsize).mpr (.inl h))
  have hdecision : reserve_decision x.state n = .ok (x.size, reserved_word x.state n) := by
    rw [reserve_decision, if_neg (not_not.mpr ((flags_clear_iff x.state).mpr ⟨hsealed, hflushing⟩))]
    exact if_neg hfits
  have hlen : n ≤ ONE_MEGABYTE_BLOCK := by
    rw [BitVec.le_def]
    omega
  rw [reserve, reserve_space, if_pos hlen, hdecision]
  rfl

/-- What does not end within one megabyte fails the assertion, or the guard that then cannot wrap. -/
theorem reserve_of_lt (h : ONE_MEGABYTE_BLOCK.toNat < x.size.toNat + n.toNat) :
    x.reserve n = (none, x) := by
  unfold reserve reserve_space
  by_cases hlen : n ≤ ONE_MEGABYTE_BLOCK
  · rw [if_pos hlen]
    cases hdecision : reserve_decision x.state n with
    | error e => rfl
    | ok granted =>
      have hblock : ONE_MEGABYTE_BLOCK.toNat = 1048576 := rfl
      have hsize := x.size_lt
      obtain ⟨_, _, _, hfits, _⟩ := reserve_decision_ok hdecision
      rw [← size, BitVec.le_def, BitVec.toNat_add] at hfits
      rw [BitVec.le_def] at hlen
      omega
  · rw [if_neg hlen]

theorem takesSpace_rejected : x.TakesSpace n (none, x) where
  rejected _ := rfl
  granted _ h := by cases h
  forward := BitVec.le_refl _

/-- A grant that moves the offset by what was asked for takes the space. -/
theorem takesSpace_granted {offset : Usize} {after : FlushBuffer L}
    (h : x.size.toNat + n.toNat ≤ ONE_MEGABYTE_BLOCK.toNat)
    (hmoved : after.size.toNat = x.size.toNat + n.toNat) : x.TakesSpace n (some offset, after) where
  rejected h := by cases h
  granted _ _ := h
  forward := by
    rw [BitVec.le_def, hmoved]
    exact Nat.le_add_right _ _

/-- A size that ends within one megabyte is granted both ways, and both move the offset by it. -/
theorem incrementAgrees_of_le (hsealed : state_sealed x.state = false)
    (hflushing : state_flush_in_progress x.state = false)
    (hwriters : (state_writers x.state).toNat + 1 < 2 ^ 24)
    (h : x.size.toNat + n.toNat ≤ ONE_MEGABYTE_BLOCK.toNat) : x.IncrementAgrees n := by
  have hblock : ONE_MEGABYTE_BLOCK.toNat = 1048576 := rfl
  have hsize : x.size ≤ ONE_MEGABYTE_BLOCK := by
    rw [BitVec.le_def]
    omega
  have hfield : (state_offset x.state).toNat + n.toNat < 2 ^ 32 := by
    rw [← size]
    omega
  have hincrement := increment_of_le ((add_le_iff n hsize).mpr (.inl h))
  have hreserve := reserve_of_le hsealed hflushing h
  constructor
  · rw [hincrement, hreserve]
  · intro offset _
    rw [hincrement, hreserve]
    exact (reserved_word_sub_writer x.state n).symm
  · rw [hincrement]
    exact takesSpace_granted h (state_offset_add_offset x.state n hfield)
  · rw [hreserve]
    exact takesSpace_granted h (state_offset_reserved x.state n hfield hwriters)

/-- A size that ends beyond one megabyte, and whose end fits in a word, is rejected both ways. -/
theorem incrementAgrees_of_lt (hsize : x.size ≤ ONE_MEGABYTE_BLOCK)
    (h : ONE_MEGABYTE_BLOCK.toNat < x.size.toNat + n.toNat) (hsum : x.size.toNat + n.toNat < 2 ^ 64) :
    x.IncrementAgrees n := by
  have hrejects : ONE_MEGABYTE_BLOCK < x.size + n := by
    rw [← BitVec.not_le, add_le_iff n hsize]
    omega
  have hincrement := increment_of_lt hrejects
  have hreserve := reserve_of_lt h
  constructor
  · rw [hincrement, hreserve]
  · intro offset hoffset
    rw [hincrement] at hoffset
    cases hoffset
  · rw [hincrement]
    exact takesSpace_rejected
  · rw [hreserve]
    exact takesSpace_rejected

/-- From a buffer open to new writers `increment_offset` and `reserve_space` agree exactly when the end of
the range asked for fits in a word. -/
theorem increment_agrees_iff (hsealed : state_sealed x.state = false)
    (hflushing : state_flush_in_progress x.state = false) (hsize : x.size ≤ ONE_MEGABYTE_BLOCK)
    (hwriters : (state_writers x.state).toNat + 1 < 2 ^ 24) :
    x.IncrementAgrees n ↔ x.size.toNat + n.toNat < 2 ^ 64 := by
  constructor
  · intro hagree
    by_contra hwrap
    -- the wrapped sum passes the guard of increment_offset
    have haccepts := (add_le_iff n hsize).mpr (.inr (Nat.not_lt.mp hwrap))
    have hfits := hagree.increments.granted x.size (by rw [increment_of_le haccepts])
    have hblock : ONE_MEGABYTE_BLOCK.toNat = 1048576 := rfl
    omega
  · intro hsum
    by_cases hfits : x.size.toNat + n.toNat ≤ ONE_MEGABYTE_BLOCK.toNat
    · exact incrementAgrees_of_le hsealed hflushing hwriters hfits
    · exact incrementAgrees_of_lt hsize (Nat.not_le.mp hfits) hsum

/-- A new buffer once ten bytes of it are taken. -/
def ten_taken : FlushBuffer 1 := ((new_buffer ONE_MEGABYTE_BLOCK).increment_offset 10).2

theorem increment_agrees_five : ten_taken.IncrementAgrees 5 :=
  (increment_agrees_iff (by decide) (by decide) (by decide) (by decide)).mpr (by decide)

/-- Asked for all but five of the `2 ^ 64` bytes, `increment_offset` grants them at ten and moves the offset
back to five; `reserve_space` fails its assertion. -/
theorem increment_offset_wraps :
    (state_sealed ten_taken.state = false ∧ state_flush_in_progress ten_taken.state = false ∧
      ten_taken.size ≤ ONE_MEGABYTE_BLOCK ∧ (state_writers ten_taken.state).toNat + 1 < 2 ^ 24) ∧
    (ten_taken.increment (-5)).1 = some 10 ∧ (ten_taken.increment (-5)).2.size = 5 ∧
      ten_taken.reserve_space (-5) = none ∧ ¬ ten_taken.IncrementAgrees (-5) := by
  refine ⟨by decide, by decide, by decide, rfl, fun hagree => ?_⟩
  have hback := hagree.increments.forward
  exact absurd hback (by decide)

end FlushBuffer

end FlushRing
