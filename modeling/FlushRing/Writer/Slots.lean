import FlushRing.Writer.Machine

open Submission

namespace FlushRing

/-- The packed word as a number. -/
theorem pack_toNat (idx : Fin RING_LEN) {len : Usize} (hlen : len.toNat < 2 ^ 32) :
    (pack idx len).toNat = idx.val * 2 ^ 32 + len.toNat := by
  have hidx : idx.val < 4 := idx.isLt
  have hhigh : (BitVec.ofNat 64 idx.val <<< 32).toNat = idx.val <<< 32 := by
    rw [BitVec.toNat_shiftLeft, BitVec.toNat_ofNat, Nat.shiftLeft_eq, Nat.shiftLeft_eq]
    omega
  rw [pack, BitVec.toNat_or, hhigh, ← Nat.shiftLeft_add_eq_or_of_lt hlen, Nat.shiftLeft_eq]

/-- The index comes back out of the word. -/
theorem pack_index (idx : Fin RING_LEN) {len : Usize} (hlen : len.toNat < 2 ^ 32) :
    (pack idx len >>> 32).toNat = idx.val := by
  rw [BitVec.toNat_ushiftRight, pack_toNat idx hlen, Nat.shiftRight_eq_div_pow]
  omega

/-- And so does the length. -/
theorem pack_len (idx : Fin RING_LEN) {len : Usize} (hlen : len.toNat < 2 ^ 32) :
    pack idx len &&& 0xFFFFFFFF#64 = len := by
  apply BitVec.eq_of_toNat_eq
  have hmask : (0xFFFFFFFF#64).toNat = 2 ^ 32 - 1 := rfl
  rw [BitVec.toNat_and, pack_toNat idx hlen, hmask, Nat.and_two_pow_sub_one_eq_mod]
  omega

/-- The range of the file an entry writes. -/
def WriteEntry.range (e : WriteEntry) : CompletedRange :=
  { disk_offset := e.offset, sealed_len := e.len.setWidth 64 }

/-- The range is read back from the entry. -/
theorem write_e_range (disk_off : Usize) (idx : Fin RING_LEN) {valid_len : Usize} (hlen : valid_len.toNat < 2 ^ 32) :
    (write_e disk_off idx valid_len).range = { disk_offset := disk_off, sealed_len := valid_len } := by
  have hwidth : (valid_len.setWidth 32).setWidth 64 = valid_len := by
    apply BitVec.eq_of_toNat_eq
    rw [BitVec.toNat_setWidth, BitVec.toNat_setWidth, Nat.mod_eq_of_lt hlen, Nat.mod_eq_of_lt (by omega)]
  simp only [WriteEntry.range, write_e, hwidth]

namespace RingWriter

/-- The entry of a sealed slot. -/
def entry (w : RingWriter) (idx : Fin RING_LEN) : WriteEntry :=
  write_e (w.slots idx).disk_offset idx (w.slots idx).sealed_len

/-- The slots in flight have one entry each among `l`, and no other has one. -/
structure Tracks (w : RingWriter) (l : List WriteEntry) : Prop where
  distinct : (l.map WriteEntry.buf).Nodup
  flying : ∀ b, (w.slots b).state = .InFlight ↔ ∃ e ∈ l, e.buf = b
  entry : ∀ e ∈ l, e = w.entry e.buf
  len : ∀ b, (w.slots b).state = .InFlight → 0 < (w.slots b).sealed_len ∧ (w.slots b).sealed_len ≤ BATCH_SIZE
  pending : w.pending.toNat = l.length

namespace Tracks
variable {w w' : RingWriter} {l l' : List WriteEntry} {e : WriteEntry}

/-- A new writer has no slot in flight. -/
theorem new : Tracks .new [] where
  distinct := List.nodup_nil
  flying b := by
    constructor
    · intro h
      cases h
    · rintro ⟨e, he, _⟩
      cases he
  entry e he := by cases he
  len b h := by cases h
  pending := rfl

theorem perm (h : w.Tracks l) (hperm : l.Perm l') : w.Tracks l' where
  distinct := (hperm.map _).nodup_iff.mp h.distinct
  flying b := by
    rw [h.flying]
    exact exists_congr fun e => and_congr_left fun _ => hperm.mem_iff
  entry e he := h.entry e (hperm.mem_iff.mpr he)
  len := h.len
  pending := h.pending.trans hperm.length_eq

/-- There are no more entries than slots. -/
theorem length_le (h : w.Tracks l) : l.length ≤ RING_LEN := by
  have hcard := h.distinct.length_le_card
  rwa [List.length_map, Fintype.card_fin] at hcard

/-- What the tracked entries depend on. -/
theorem congr (h : w.Tracks l) (hslots : ∀ b, (w'.slots b).state = (w.slots b).state ∧
      (w'.slots b).disk_offset = (w.slots b).disk_offset ∧ (w'.slots b).sealed_len = (w.slots b).sealed_len)
    (hpending : w'.pending = w.pending) : w'.Tracks l where
  distinct := h.distinct
  flying b := by
    rw [(hslots b).1]
    exact h.flying b
  entry e he := by
    rw [RingWriter.entry, (hslots e.buf).2.1, (hslots e.buf).2.2]
    exact h.entry e he
  len b hb := by
    rw [(hslots b).2.2]
    rw [(hslots b).1] at hb
    exact h.len b hb
  pending := by
    rw [hpending]
    exact h.pending

theorem ring (h : w.Tracks l) (ring : Queues WriteEntry) : Tracks { w with ring } l :=
  ⟨h.distinct, h.flying, h.entry, h.len, h.pending⟩

theorem sealed_len_lt (h : w.Tracks l) (he : e ∈ l) : (w.slots e.buf).sealed_len.toNat < 2 ^ 32 := by
  have hle := (h.len e.buf ((h.flying e.buf).mpr ⟨e, he, rfl⟩)).2
  have hbatch : BATCH_SIZE.toNat = 1048576 := rfl
  rw [BitVec.le_def, hbatch] at hle
  omega

/-- The range of a tracked entry is its slot's. -/
theorem range (h : w.Tracks l) (he : e ∈ l) :
    e.range = { disk_offset := (w.slots e.buf).disk_offset, sealed_len := (w.slots e.buf).sealed_len } := by
  have hentry := h.entry e he
  have hrange := write_e_range (w.slots e.buf).disk_offset e.buf (h.sealed_len_lt he)
  rw [← hrange]
  exact congrArg WriteEntry.range hentry

/-- Sealing an open slot adds its entry. -/
theorem take_slot (h : w.Tracks l) {idx : Fin RING_LEN} (hopen : (w.slots idx).state = .Open) {valid_len : Usize}
    (hpos : 0 < valid_len) (hlen : valid_len ≤ BATCH_SIZE) (disk_off : Usize) (ring : Queues WriteEntry) :
    Tracks { w.take_slot disk_off idx valid_len with ring, pending := w.pending + 1 }
      (write_e disk_off idx valid_len :: l) := by
  have hnew : ∀ e ∈ l, e.buf ≠ idx := by
    intro e he heq
    have hflying := (h.flying idx).mpr ⟨e, he, heq⟩
    rw [hopen] at hflying
    cases hflying
  have hother {b : Fin RING_LEN} (hb : b ≠ idx) : (w.take_slot disk_off idx valid_len).slots b = w.slots b :=
    Function.update_of_ne hb _ _
  have hself : (w.take_slot disk_off idx valid_len).slots idx =
      { w.slots idx with disk_offset := disk_off, sealed_len := valid_len, state := .InFlight } :=
    Function.update_self ..
  refine ⟨?_, fun b => ?_, fun e he => ?_, fun b hb => ?_, ?_⟩
  · rw [List.map_cons, List.nodup_cons]
    refine ⟨fun hmem => ?_, h.distinct⟩
    obtain ⟨e, he, heq⟩ := List.mem_map.mp hmem
    exact hnew e he heq
  · by_cases hb : b = idx
    · subst b
      refine ⟨fun _ => ⟨_, List.mem_cons_self, rfl⟩, fun _ => ?_⟩
      exact congrArg Slot.state hself
    · change ((w.take_slot disk_off idx valid_len).slots b).state = _ ↔ _
      rw [hother hb, h.flying]
      constructor
      · rintro ⟨e, he, heq⟩
        exact ⟨e, List.mem_cons_of_mem _ he, heq⟩
      · rintro ⟨e, he, heq⟩
        obtain rfl | he := List.mem_cons.mp he
        · exact absurd heq.symm hb
        · exact ⟨e, he, heq⟩
  · obtain rfl | he := List.mem_cons.mp he
    · change _ = ({ w.take_slot disk_off idx valid_len with ring, pending := w.pending + 1 } : RingWriter).entry idx
      simp only [RingWriter.entry, hself]
    · have hsame := hother (hnew e he)
      simp only [RingWriter.entry, hsame]
      exact h.entry e he
  · by_cases hidx : b = idx
    · subst b
      change 0 < ((w.take_slot disk_off idx valid_len).slots idx).sealed_len ∧
        ((w.take_slot disk_off idx valid_len).slots idx).sealed_len ≤ BATCH_SIZE
      rw [hself]
      exact ⟨hpos, hlen⟩
    · change 0 < ((w.take_slot disk_off idx valid_len).slots b).sealed_len ∧
        ((w.take_slot disk_off idx valid_len).slots b).sealed_len ≤ BATCH_SIZE
      change ((w.take_slot disk_off idx valid_len).slots b).state = .InFlight at hb
      rw [hother hidx] at hb ⊢
      exact h.len b hb
  · have hle := h.length_le
    have hpending := h.pending
    have hring : RING_LEN = 4 := rfl
    change (w.pending + 1).toNat = l.length + 1
    rw [BitVec.toNat_add, hpending]
    change (l.length + 1) % 2 ^ 64 = l.length + 1
    omega

/-- Reading the completion of a tracked entry opens its slot and reports its range. -/
theorem reap {c : Submission.Completion WriteEntry} (h : w.Tracks (c.entry :: l)) :
    ∃ w', w.reap c = some w' ∧ w'.Tracks l ∧ w'.completed = w.completed ++ [c.entry.range] ∧
      w'.head = w.head ∧ w'.cursor = w.cursor ∧ w'.ring = w.ring ∧
      (∀ b, (w'.slots b).buf = (w.slots b).buf) ∧
      ∀ b, (w.slots b).state = .Open → (w'.slots b).state = .Open := by
  have hlt := h.sealed_len_lt List.mem_cons_self
  have hentry := h.entry _ List.mem_cons_self
  have hdata : c.entry.user_data = pack c.entry.buf (w.slots c.entry.buf).sealed_len :=
    congrArg WriteEntry.user_data hentry
  have hindex : (c.entry.user_data >>> 32).toNat = c.entry.buf.val := by
    rw [hdata]
    exact pack_index _ hlt
  have hlen : c.entry.user_data &&& 0xFFFFFFFF#64 = (w.slots c.entry.buf).sealed_len := by
    rw [hdata]
    exact pack_len _ hlt
  let b := c.entry.buf
  let w' : RingWriter :=
    { w with
      completed := w.completed ++ [c.entry.range]
      slots := Function.update w.slots b { w.slots b with state := .Open, sealed_len := 0 }
      pending := w.pending - 1 }
  have hreap : w.reap c = some w' := by
    unfold RingWriter.reap
    have hidx : (c.entry.user_data >>> 32).toNat < RING_LEN := by
      rw [hindex]
      exact c.entry.buf.isLt
    have hfin : (⟨(c.entry.user_data >>> 32).toNat, hidx⟩ : Fin RING_LEN) = b := Fin.ext hindex
    simp only [dif_pos hidx, hfin, hlen, w', h.range List.mem_cons_self]
    rfl
  have hself : w'.slots b = { w.slots b with state := .Open, sealed_len := 0 } := Function.update_self ..
  have hother {d : Fin RING_LEN} (hd : d ≠ b) : w'.slots d = w.slots d := Function.update_of_ne hd _ _
  have hdistinct := h.distinct
  rw [List.map_cons, List.nodup_cons] at hdistinct
  have hapart : ∀ e ∈ l, e.buf ≠ b := by
    intro e he heq
    exact hdistinct.1 (List.mem_map.mpr ⟨e, he, heq⟩)
  refine ⟨w', hreap, ⟨hdistinct.2, fun d => ?_, fun e he => ?_, fun d hd => ?_, ?_⟩, rfl, rfl, rfl, rfl,
    fun d => ?_, fun d hd => ?_⟩
  · by_cases hd : d = b
    · rw [hd, hself]
      refine ⟨fun hopen => ?_, fun hex => ?_⟩
      · cases hopen
      · obtain ⟨e, he, heq⟩ := hex
        exact absurd heq (hapart e he)
    · rw [hother hd, h.flying]
      constructor
      · rintro ⟨e, he, heq⟩
        obtain rfl | he := List.mem_cons.mp he
        · exact absurd heq.symm hd
        · exact ⟨e, he, heq⟩
      · rintro ⟨e, he, heq⟩
        exact ⟨e, List.mem_cons_of_mem _ he, heq⟩
  · simp only [RingWriter.entry, hother (hapart e he)]
    exact h.entry e (List.mem_cons_of_mem _ he)
  · have hne : d ≠ b := by
      rintro rfl
      rw [hself] at hd
      cases hd
    rw [hother hne] at hd ⊢
    exact h.len d hd
  · have hle := h.length_le
    have hpending := h.pending
    have hring : RING_LEN = 4 := rfl
    change (w.pending - 1).toNat = l.length
    rw [List.length_cons] at hle hpending
    have hone : (1 : Usize).toNat = 1 := rfl
    rw [BitVec.toNat_sub, hpending, hone]
    omega
  · by_cases hd : d = b
    · rw [hd, hself]
    · rw [hother hd]
  · by_cases hdb : d = b
    · rw [hdb, hself]
    · rw [hother hdb]
      exact hd

/-- All completions at hand are read. -/
theorem reaps {cs : List (Submission.Completion WriteEntry)}
    (h : w.Tracks (cs.map Submission.Completion.entry ++ l)) :
    ∃ w', cs.foldlM RingWriter.reap w = some w' ∧ w'.Tracks l ∧
      w'.completed = w.completed ++ cs.map (·.entry.range) ∧
      w'.head = w.head ∧ w'.cursor = w.cursor ∧ w'.ring = w.ring ∧
      (∀ b, (w'.slots b).buf = (w.slots b).buf) ∧
      ∀ b, (w.slots b).state = .Open → (w'.slots b).state = .Open := by
  induction cs generalizing w with
  | nil =>
    refine ⟨w, rfl, h, ?_, rfl, rfl, rfl, fun _ => rfl, fun _ hb => hb⟩
    rw [List.map_nil, List.append_nil]
  | cons c cs ih =>
    obtain ⟨w₁, hreap, htracks, hcompleted, hhead, hcursor, hring, hbuf, hopen⟩ := reap h
    obtain ⟨w', hreaps, htracks', hcompleted', hhead', hcursor', hring', hbuf', hopen'⟩ := ih htracks
    refine ⟨w', ?_, htracks', ?_, hhead'.trans hhead, hcursor'.trans hcursor, hring'.trans hring,
      fun b => (hbuf' b).trans (hbuf b), fun b hb => hopen' b (hopen b hb)⟩
    · rw [List.foldlM_cons, hreap]
      exact hreaps
    · rw [hcompleted', hcompleted, List.map_cons, List.append_assoc, List.singleton_append]

end Tracks

/-- A writer whose slots in flight are those with an entry outstanding. -/
def Sound (w : RingWriter) : Prop := w.Tracks w.ring.outstanding

namespace Sound
variable {w w' : RingWriter}

theorem new : Sound .new := Tracks.new

/-- `reap_all` never meets an index outside of the slots, and reports what it takes off the queue. -/
theorem reap_all (h : w.Sound) :
    ∃ w', w.reap_all = some w' ∧ w'.Sound ∧ w'.completed = w.completed ++ w.ring.cq.map (·.entry.range) ∧
      w'.head = w.head ∧ w'.cursor = w.cursor ∧ w'.ring = w.ring.drain.2 ∧
      (∀ b, (w'.slots b).buf = (w.slots b).buf) ∧
      ∀ b, (w.slots b).state = .Open → (w'.slots b).state = .Open := by
  have hdrained : Tracks { w with ring := w.ring.drain.2 }
      (w.ring.cq.map Submission.Completion.entry ++ w.ring.drain.2.outstanding) :=
    (h.ring w.ring.drain.2).perm (Queues.outstanding_drain w.ring).symm
  obtain ⟨w', hreaps, htracks, hcompleted, hhead, hcursor, hring, hbuf, hopen⟩ := hdrained.reaps
  refine ⟨w', hreaps, ?_, hcompleted, hhead, hcursor, hring, hbuf, hopen⟩
  rw [Sound, hring]
  exact htracks

/-- Handing entries over keeps the writer sound. -/
theorem submit (h : w.Sound) : w.submit.Sound :=
  (h.ring w.ring.submit).perm (Queues.outstanding_submit w.ring).symm

/-- The kernel keeps the writer sound. -/
theorem serve {order : Submission.Ordering WriteEntry} {a : Serve} {ring : Queues WriteEntry} (h : w.Sound)
    (hserve : w.ring.serve order a = some ring) : Sound { w with ring } :=
  (h.ring ring).perm (Queues.outstanding_serve hserve).symm

/-- Nothing is outstanding when nothing is pending. -/
theorem outstanding_nil (h : w.Sound) (hpending : w.pending = 0) : w.ring.outstanding = [] := by
  have hlength := h.pending
  rw [hpending] at hlength
  exact List.eq_nil_of_length_eq_zero hlength.symm

/-- The submission queue has room for every entry there can be. -/
theorem room (h : w.Sound) : w.ring.sq.length < WRITER_ENTRIES := by
  have hle := h.length_le
  have hring : RING_LEN = 4 := rfl
  have hentries : WRITER_ENTRIES = 256 := rfl
  simp only [Queues.outstanding, Queues.unserved, List.length_append] at hle
  omega

/-- Sealing an open slot queues its entry. -/
theorem submit_slot (h : w.Sound) (submits : Bool) (disk_off : Usize) {idx : Fin RING_LEN}
    (hopen : (w.slots idx).state = .Open) {valid_len : Usize} (hpos : 0 < valid_len)
    (hlen : valid_len ≤ BATCH_SIZE) :
    ∃ ring, w.ring.push WRITER_ENTRIES (write_e disk_off idx valid_len) = some ring ∧
      w.submit_slot submits disk_off idx valid_len =
        .ok { w.take_slot disk_off idx valid_len with ring, pending := w.pending + 1 } ∧
      Sound { w.take_slot disk_off idx valid_len with ring, pending := w.pending + 1 } := by
  let ring : Queues WriteEntry := { w.ring with sq := w.ring.sq ++ [write_e disk_off idx valid_len] }
  have hpush : w.ring.push WRITER_ENTRIES (write_e disk_off idx valid_len) = some ring := if_pos h.room
  refine ⟨ring, hpush, ?_, ?_⟩
  · unfold RingWriter.submit_slot
    have hpush' : (w.take_slot disk_off idx valid_len).ring.push WRITER_ENTRIES
        (write_e disk_off idx valid_len) = some ring := hpush
    simp only [hpush']
    rfl
  · exact (h.take_slot hopen hpos hlen disk_off ring).perm (Queues.outstanding_push hpush).symm

end Sound

end RingWriter

end FlushRing
