import FlushRing.Ring

/-! The scan of `rotate_after_seal`: consecutive values of the cursor visit every buffer once around. -/

namespace FlushRing

variable {L : Nat}

namespace BufferRing

theorem cursor_zero (raw : Usize) : raw + BitVec.ofNat 64 0 = raw := BitVec.add_zero raw

theorem cursor_succ (raw : Usize) (k : Nat) :
    raw + BitVec.ofNat 64 (k + 1) = raw + 1 + BitVec.ofNat 64 k := by
  rw [BitVec.add_assoc, Nat.add_comm, BitVec.ofNat_add]
  rfl

/-- A buffer within the next `n` values of the cursor is free. -/
def free_ahead (self : BufferRing L) (n : Nat) : Bool :=
  (List.range n).any fun k =>
    (self.ring (self.candidate (self.next_index + BitVec.ofNat 64 k))).is_available

/-- A free buffer is ahead if the next one is free or one behind it. -/
theorem free_ahead_succ (self : BufferRing L) (n : Nat) :
    self.free_ahead (n + 1) = ((self.ring (self.candidate self.next_index)).is_available ||
      { self with next_index := self.next_index + 1 }.free_ahead n) := by
  unfold free_ahead
  rw [List.range_succ_eq_map, List.any_cons, List.any_map]
  rw [cursor_zero]
  congr 2
  funext k
  simp only [Function.comp_apply, Nat.succ_eq_add_one, cursor_succ]
  rfl

/-- Of `L` consecutive numbers one has the remainder `c`. -/
theorem visits_all (start : Nat) {c : Nat} (hc : c < L) : ∃ k < L, (start + k) % L = c := by
  have hstart := Nat.div_add_mod start L
  have hrest := Nat.mod_lt start (Nat.zero_lt_of_lt hc)
  by_cases hle : start % L ≤ c
  · refine ⟨c - start % L, by omega, ?_⟩
    have hsum : start + (c - start % L) = c + L * (start / L) := by omega
    rw [hsum, Nat.add_mul_mod_self_left, Nat.mod_eq_of_lt hc]
  · refine ⟨c + L - start % L, by omega, ?_⟩
    have hsum : start + (c + L - start % L) = c + L * (start / L + 1) := by
      rw [Nat.mul_add]
      omega
    rw [hsum, Nat.add_mul_mod_self_left, Nat.mod_eq_of_lt hc]

/-- The cursor does not wrap in the next `L` steps, or it wraps from the last buffer to the first. -/
def unbroken (self : BufferRing L) : Bool := self.next_index.toNat + L ≤ 2 ^ 64 || 2 ^ 64 % L == 0

/-- The next `L` values of such a cursor visit every buffer. -/
theorem free_ahead_of_available {self : BufferRing L} (hcursor : self.unbroken = true) {c : Fin L}
    (hfree : (self.ring c).is_available = true) : self.free_ahead L = true := by
  obtain ⟨k, hk, hvisit⟩ := visits_all self.next_index.toNat c.isLt
  have hraw : (self.next_index + BitVec.ofNat 64 k).toNat % L = c.val := by
    rw [unbroken, Bool.or_eq_true, decide_eq_true_eq, beq_iff_eq] at hcursor
    rw [BitVec.toNat_add, BitVec.toNat_ofNat, Nat.add_mod_mod]
    obtain hfits | hdvd := hcursor
    · have hlt : self.next_index.toNat + k < 2 ^ 64 := by omega
      rw [Nat.mod_eq_of_lt hlt, hvisit]
    · rw [Nat.mod_mod_of_dvd _ (Nat.dvd_of_mod_eq_zero hdvd), hvisit]
  have hcandidate : self.candidate (self.next_index + BitVec.ofNat 64 k) = c := Fin.ext hraw
  rw [free_ahead, List.any_eq_true]
  refine ⟨k, List.mem_range.mpr hk, ?_⟩
  rw [hcandidate]
  exact hfree

/-- The `k`-th buffer in cyclic order from the one the cursor selects. -/
def ahead (self : BufferRing L) (k : Nat) : Fin L :=
  ⟨(self.next_index.toNat % L + k) % L, Nat.mod_lt _ (Fin.pos self.current_buffer)⟩

/-- A cursor that does not wrap selects the buffers in cyclic order. -/
theorem candidate_add {self : BufferRing L} {k : Nat} (hlt : self.next_index.toNat + k < 2 ^ 64) :
    self.candidate (self.next_index + BitVec.ofNat 64 k) = self.ahead k := by
  apply Fin.ext
  simp only [candidate, ahead]
  rw [BitVec.toNat_add, BitVec.toNat_ofNat, Nat.add_mod_mod, Nat.mod_eq_of_lt hlt, Nat.mod_add_mod]

theorem ahead_covers (self : BufferRing L) (b : Fin L) : ∃ k < L, self.ahead k = b := by
  obtain ⟨k, hk, hvisit⟩ := visits_all (self.next_index.toNat % L) b.isLt
  exact ⟨k, hk, Fin.ext hvisit⟩

/-- A scan passes over buffers that are not available. -/
theorem rotate_scan_skips (current : Fin L) (size : Usize) (n k : Nat) {self : BufferRing L}
    (hbusy : ∀ j < k, (self.ring (self.candidate (self.next_index + BitVec.ofNat 64 j))).is_available = false) :
    rotate_scan current size (n + k) self =
      rotate_scan current size n { self with next_index := self.next_index + BitVec.ofNat 64 k } := by
  induction k generalizing self with
  | zero =>
    rw [cursor_zero]
    rfl
  | succ k ih =>
    have hfirst : (self.ring (self.candidate self.next_index)).is_available = false := by
      have hzero := hbusy 0 (Nat.succ_pos k)
      rw [cursor_zero] at hzero
      exact hzero
    let scanned : BufferRing L := { self with next_index := self.next_index + 1 }
    have hlater : ∀ j < k, (scanned.ring (scanned.candidate (scanned.next_index + BitVec.ofNat 64 j))).is_available =
        false := by
      intro j hj
      have hnext := hbusy (j + 1) (Nat.succ_lt_succ hj)
      rw [cursor_succ] at hnext
      exact hnext
    have hrest := ih hlater
    rw [cursor_succ, ← hrest, ← Nat.add_assoc, rotate_scan]
    simp only
    rw [if_neg]
    rw [Bool.not_eq_true]
    exact hfirst

/-- A scan ends at the first available buffer. -/
theorem rotate_scan_takes (current : Fin L) (size : Usize) (n : Nat) {self : BufferRing L}
    (hfree : (self.ring (self.candidate self.next_index)).is_available = true) :
    rotate_scan current size (n + 1) self =
      (.ok (), ({ self with next_index := self.next_index + 1 }.swap_current current
        (self.candidate self.next_index)).reserve_buf_addr (self.candidate self.next_index) size) := by
  rw [rotate_scan]
  exact if_pos hfree

section Finds
variable {self : BufferRing L} {sealed_pos : Fin L}

/-- Without an available buffer the scan moves the cursor once around and changes nothing else. -/
theorem rotate_after_seal_exhausted (hcurrent : self.current_buffer = sealed_pos)
    (hbusy : ∀ b, (self.ring b).is_available = false) :
    self.rotate_after_seal sealed_pos =
      (.error .RingExhausted, { self with next_index := self.next_index + BitVec.ofNat 64 L }) := by
  have hskips := rotate_scan_skips self.current_buffer (self.ring self.current_buffer).size 0 L
    fun j _ => hbusy (self.candidate (self.next_index + BitVec.ofNat 64 j))
  rw [Nat.zero_add] at hskips
  unfold rotate_after_seal
  simp only
  rw [if_neg (not_not.mpr hcurrent), hskips, rotate_scan]

/-- The scan takes the first available buffer. -/
theorem rotate_after_seal_takes (hcursor : self.next_index.toNat + L ≤ 2 ^ 64)
    (hcurrent : self.current_buffer = sealed_pos) {k : Nat} (hk : k < L)
    (hfree : (self.ring (self.ahead k)).is_available = true)
    (hbusy : ∀ j < k, (self.ring (self.ahead j)).is_available = false) :
    ∃ slot, self.rotate_after_seal sealed_pos =
      (.ok (), ({ self with
        next_index := self.next_index + BitVec.ofNat 64 k + 1
        current_buffer := self.ahead k
        next_address_range := slot }.modify (self.ahead k) (adopt_address self.next_address_range))) := by
  let size := (self.ring self.current_buffer).size
  let scanned : BufferRing L := { self with next_index := self.next_index + BitVec.ofNat 64 k }
  have hselects : scanned.candidate scanned.next_index = self.ahead k := candidate_add (by omega)
  have hskipped : ∀ j < k,
      (self.ring (self.candidate (self.next_index + BitVec.ofNat 64 j))).is_available = false := by
    intro j hj
    rw [candidate_add (by omega)]
    exact hbusy j hj
  have hskips := rotate_scan_skips self.current_buffer size (L - k) k hskipped
  have htaken : (scanned.ring (scanned.candidate scanned.next_index)).is_available = true := by
    rw [hselects]
    exact hfree
  have htakes := rotate_scan_takes self.current_buffer size (L - k - 1) htaken
  have hleft : L - k - 1 + 1 = L - k := by omega
  have hall : L - k + k = L := by omega
  rw [hleft] at htakes
  rw [hall, htakes, hselects] at hskips
  refine ⟨self.next_address_range + size, ?_⟩
  unfold rotate_after_seal
  simp only
  rw [if_neg (not_not.mpr hcurrent), hskips, swap_current, if_pos rfl]
  rfl

/-- With nobody else stepping, `rotate_after_seal` leaves a ring whose current buffer is another one
alone, fails exactly when no buffer is available, changing nothing but its cursor, and else installs the
first available buffer in cyclic order, whose address is the only thing of any buffer it may change. -/
theorem rotate_after_seal_finds (self : BufferRing L) (sealed_pos : Fin L)
    (hcursor : self.next_index.toNat + L ≤ 2 ^ 64) :
    (self.current_buffer ≠ sealed_pos → self.rotate_after_seal sealed_pos = (.ok (), self)) ∧
    (self.current_buffer = sealed_pos →
      ((self.rotate_after_seal sealed_pos).1 = .error .RingExhausted ↔
        ∀ b, (self.ring b).is_available = false) ∧
      ((∀ b, (self.ring b).is_available = false) →
        (self.rotate_after_seal sealed_pos).2 =
          { self with next_index := self.next_index + BitVec.ofNat 64 L }) ∧
      ((∃ b, (self.ring b).is_available = true) →
        (self.rotate_after_seal sealed_pos).1 = .ok () ∧
        ∃ k < L, (self.rotate_after_seal sealed_pos).2.current_buffer = self.ahead k ∧
          (self.ring (self.ahead k)).is_available = true ∧
          (∀ j < k, (self.ring (self.ahead j)).is_available = false) ∧
          (∀ b, ((self.rotate_after_seal sealed_pos).2.ring b).state = (self.ring b).state) ∧
          ∀ b ≠ self.ahead k, (self.rotate_after_seal sealed_pos).2.ring b = self.ring b)) := by
  have htakes (hcurrent : self.current_buffer = sealed_pos)
      (hsome : ∃ b, (self.ring b).is_available = true) :
      ∃ k < L, (self.ring (self.ahead k)).is_available = true ∧
        (∀ j < k, (self.ring (self.ahead j)).is_available = false) ∧
        ∃ mem, self.rotate_after_seal sealed_pos = (.ok (), mem) ∧ mem.current_buffer = self.ahead k ∧
          mem.ring = (self.modify (self.ahead k) (adopt_address self.next_address_range)).ring := by
    obtain ⟨b, hb⟩ := hsome
    obtain ⟨k₀, hk₀, rfl⟩ := self.ahead_covers b
    have hfind : ∃ k, (self.ring (self.ahead k)).is_available = true := ⟨k₀, hb⟩
    have hk : Nat.find hfind < L := (Nat.find_min' hfind hb).trans_lt hk₀
    have hbusy (j : Nat) (hj : j < Nat.find hfind) : (self.ring (self.ahead j)).is_available = false :=
      Bool.eq_false_iff.mpr (Nat.find_min hfind hj)
    obtain ⟨slot, hrotate⟩ := rotate_after_seal_takes hcursor hcurrent hk (Nat.find_spec hfind) hbusy
    exact ⟨_, hk, Nat.find_spec hfind, hbusy, _, hrotate, rfl, rfl⟩
  refine ⟨fun hother => ?_, fun hcurrent => ⟨⟨fun hfails b => ?_, fun hbusy => ?_⟩, fun hbusy => ?_, ?_⟩⟩
  · unfold rotate_after_seal
    exact if_pos hother
  · by_contra hfree
    obtain ⟨_, _, _, _, mem, hrotate, _⟩ := htakes hcurrent ⟨b, Bool.eq_true_of_not_eq_false hfree⟩
    rw [hrotate] at hfails
    cases hfails
  · rw [rotate_after_seal_exhausted hcurrent hbusy]
  · rw [rotate_after_seal_exhausted hcurrent hbusy]
  · intro hsome
    obtain ⟨k, hk, hfree, hbusy, mem, hrotate, hinstalled, hring⟩ := htakes hcurrent hsome
    rw [hrotate]
    refine ⟨rfl, k, hk, hinstalled, hfree, hbusy, fun b => ?_, fun b hb => ?_⟩
    · rw [hring]
      exact modify_field (f := adopt_address self.next_address_range) FlushBuffer.state (fun _ => rfl) b
    · rw [hring, modify_ring, if_neg (Ne.symm hb)]

/-- The cursor stands at 4 in a ring of three whose buffer 1 is sealed: buffer 2 becomes current. -/
theorem rotate_after_seal_finds_second :
    let ring : BufferRing 3 :=
      { (with_options storeOptions : BufferRing 3).modify 1 FlushBuffer.set_sealed with
        current_buffer := 1, next_index := 4 }
    (ring.rotate_after_seal 1).1 = .ok () ∧ (ring.rotate_after_seal 1).2.current_buffer = 2 := by
  intro ring
  have hcursor : ring.next_index.toNat + 3 ≤ 2 ^ 64 := by decide
  have hfree : (ring.ring 2).is_available = true := by decide
  obtain ⟨hok, k, hk, hcurrent, hfirst, hbusy, _, _⟩ :=
    (((rotate_after_seal_finds ring 1 hcursor).2 rfl).2.2) ⟨2, hfree⟩
  refine ⟨hok, ?_⟩
  have hone : (ring.ring (ring.ahead 0)).is_available = false := by decide
  have htwo : (ring.ring (ring.ahead 1)).is_available = true := by decide
  have hk : k = 1 := by
    obtain rfl | rfl | hlarge : k = 0 ∨ k = 1 ∨ 1 < k := by omega
    · rw [hone] at hfirst
      cases hfirst
    · rfl
    · rw [hbusy 1 hlarge] at htwo
      cases htwo
  rw [hcurrent, hk]
  decide

end Finds

end BufferRing

end FlushRing
