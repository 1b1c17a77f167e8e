import FlushRing.Writer.Slots
import FlushRing.Transition

open Extents Submission Transition

namespace FlushRing

variable {T : Type}

namespace Batch

def range (b : Batch T) : CompletedRange := { disk_offset := b.offset, sealed_len := b.len }

def extent (b : Batch T) : Extent := { start := b.offset.toNat, len := b.len.toNat }

def bytes (b : Batch T) : List UInt8 := b.payloads.flatMap Slice.toList

end Batch

/-- The payload a call of `seal_and_advance` has still to place. -/
def SealCaller.payload : SealCaller → List Slice
  | .append payload => [payload]
  | _ => []

/-- The slot at the head is open and holds `payloads`, one after the other. -/
structure RingWriter.Filled (w : RingWriter) (payloads : List Slice) : Prop where
  opened : (w.slots w.head).state = .Open
  fits : w.cursor ≤ BATCH_SIZE
  holds : load (w.slots w.head).buf { start := 0, len := w.cursor.toNat } = payloads.flatMap Slice.toList

/-- A payload that fits goes behind what the slot holds. -/
theorem RingWriter.Filled.write {w : RingWriter} {payloads : List Slice} (h : w.Filled payloads) {payload : Slice}
    (hfits : w.cursor.toNat + payload.len.toNat ≤ 2 ^ 20) :
    ((w.claim payload.len).2.write w.cursor payload).Filled (payloads ++ [payload]) := by
  let range : Extent := { start := w.cursor.toNat, len := payload.len.toNat }
  have hslot : ((w.claim payload.len).2.write w.cursor payload).slots w.head =
      { w.slots w.head with buf := fill (w.slots w.head).buf payload.byte range } := Function.update_self ..
  have hcursor : (w.cursor + payload.len).toNat = w.cursor.toNat + payload.len.toNat := by
    rw [BitVec.toNat_add, Nat.mod_eq_of_lt (by omega)]
  refine ⟨?_, ?_, ?_⟩
  · exact (congrArg Slot.state hslot).trans h.opened
  · rw [BitVec.le_def]
    change (w.cursor + payload.len).toNat ≤ BATCH_SIZE.toNat
    rw [hcursor]
    exact hfits
  · change load (((w.claim payload.len).2.write w.cursor payload).slots w.head).buf
      { start := 0, len := (w.cursor + payload.len).toNat } = _
    have hapart : ({ start := 0, len := w.cursor.toNat } : Extent).Apart range :=
      Extent.apart_of_le (Nat.le_of_eq (Nat.zero_add _))
    rw [hslot, hcursor, load_append, load_fill_apart _ _ hapart, h.holds, List.flatMap_append, Nat.zero_add]
    congr 1
    rw [List.flatMap_singleton, Slice.toList]
    exact load_fill_self _ _

/-- What is known of a writer by where it stands: the payloads in its slot and those still to be placed. -/
inductive Stands (w : RingWriter) : WriterStage → List Slice → List Slice → Prop where
  | idle {filling : List Slice} (hfilled : w.Filled filling) : Stands w .idle filling []
  | finished {filling : List Slice} (hfilled : w.Filled filling) (hcursor : w.cursor = 0) (hpending : w.pending = 0)
      (hcompleted : w.completed = []) : Stands w .finished filling []
  | failed (filling rest : List Slice) : Stands w .failed filling rest
  | waits {caller : SealCaller} {filling : List Slice} (hempty : filling.flatMap Slice.toList = [])
      (hlen : ∀ payload ∈ caller.payload, payload.len ≤ BATCH_SIZE) (hsq : w.ring.sq = [])
      (hnext : (w.slots w.next).state = .InFlight) : Stands w (.waits caller) filling caller.payload
  | drains {filling : List Slice} (hfilled : w.Filled filling) (hcursor : w.cursor = 0) (hsq : w.ring.sq = [])
      (hpending : 0 < w.pending) : Stands w .drains filling []

/-- A call may begin when the last one has returned and left the slot at the head open. -/
theorem Stands.of_ready {w : RingWriter} {stage : WriterStage} {filling rest : List Slice}
    (h : Stands w stage filling rest) (hready : stage.ready = true) : rest = [] ∧ w.Filled filling := by
  cases h with
  | idle hfilled => exact ⟨rfl, hfilled⟩
  | finished hfilled => exact ⟨rfl, hfilled⟩
  | failed => cases hready
  | waits => cases hready
  | drains => cases hready

/-- What waits has handed all its entries over. -/
theorem Stands.sq_nil {w : RingWriter} {stage : WriterStage} {filling rest : List Slice}
    (h : Stands w stage filling rest) (hbusy : stage.ready = false) (hfailed : stage ≠ .failed) :
    w.ring.sq = [] := by
  cases h with
  | idle => cases hbusy
  | finished => cases hbusy
  | failed => exact absurd rfl hfailed
  | waits _ _ hsq => exact hsq
  | drains _ _ hsq => exact hsq

theorem Stands.of_finished {w : RingWriter} {filling rest : List Slice} (h : Stands w .finished filling rest) :
    w.Filled filling ∧ w.cursor = 0 ∧ w.pending = 0 ∧ w.completed = [] ∧ rest = [] := by
  cases h with
  | finished hfilled hcursor hpending hcompleted => exact ⟨hfilled, hcursor, hpending, hcompleted, rfl⟩

/-- The kernel changes nothing of a writer but its queues. -/
theorem Stands.ring {w : RingWriter} {stage : WriterStage} {filling rest : List Slice}
    (h : Stands w stage filling rest) {ring : Queues WriteEntry} (hring : ring.sq = w.ring.sq) :
    Stands { w with ring } stage filling rest := by
  cases h with
  | idle hfilled => exact .idle ⟨hfilled.opened, hfilled.fits, hfilled.holds⟩
  | finished hfilled hcursor hpending hcompleted =>
    exact .finished ⟨hfilled.opened, hfilled.fits, hfilled.holds⟩ hcursor hpending hcompleted
  | failed => exact .failed _ _
  | waits hempty hlen hsq hnext => exact .waits hempty hlen (hring.trans hsq) hnext
  | drains hfilled hcursor hsq hpending =>
    exact .drains ⟨hfilled.opened, hfilled.fits, hfilled.holds⟩ hcursor (hring.trans hsq) hpending

namespace Writers
variable [DecidableEq T]

/-- The batches of one writer. -/
def mine (s : Writers T) (t : T) : List (Batch T) := s.batches.filter (·.writer = t)

/-- The accounts of writer `t`, standing as `w`: the payloads it was given are in its batches, in its slot or still
to be placed, in order; each batch has pushed its entry, and has been returned, is reported or has the entry
outstanding, with its bytes in the slot. -/
structure Keeps (s : Writers T) (t : T) (w : RingWriter) (rest : List Slice) : Prop where
  sound : w.Sound
  order : s.appended t = (s.mine t).flatMap Batch.payloads ++ s.filling t ++ rest
  pushed : w.ring.pushed.map WriteEntry.range = (s.mine t).map Batch.range
  ranges : (s.returned t ++ w.completed ++ w.ring.outstanding.map WriteEntry.range).Perm
    ((s.mine t).map Batch.range)
  slots : ∀ e ∈ w.ring.outstanding, ∃ b ∈ s.mine t, b.range = e.range ∧
    load (w.slots e.buf).buf { start := 0, len := b.len.toNat } = b.bytes

/-- A call of writer `t`, going on from `w`, changes nothing of the others, of the file, of what is claimed and of
what the kernel has started. -/
structure Within (s : Writers T) (t : T) (w : RingWriter) (s' : Writers T) : Prop where
  writer : ∀ t', t' ≠ t → s'.writer t' = s.writer t'
  stage : ∀ t', t' ≠ t → s'.stage t' = s.stage t'
  filling : ∀ t', t' ≠ t → s'.filling t' = s.filling t'
  returned : ∀ t', t' ≠ t → s'.returned t' = s.returned t'
  appended : s'.appended = s.appended
  batches : s'.batches = s.batches
  file_offset : s'.file_offset = s.file_offset
  file : s'.file = s.file
  file_len : s'.file_len = s.file_len
  log : w.ring.HandsOver (s'.writer t).ring

/-- The accounts of `t` are in order. -/
def Stood (s : Writers T) (t : T) : Prop :=
  ∃ rest, s.Keeps t (s.writer t) rest ∧ Stands (s.writer t) (s.stage t) (s.filling t) rest

section Calls
variable {s s' : Writers T} {t : T} {w w' : RingWriter} {rest : List Slice} {payload : Slice}

theorem within_set (s : Writers T) (t : T) (stage : WriterStage)
    (hlog : w.ring.HandsOver w'.ring) : s.Within t w (s.set t w' stage) where
  writer t' ht := Function.update_of_ne ht _ _
  stage t' ht := Function.update_of_ne ht _ _
  filling _ _ := rfl
  returned _ _ := rfl
  appended := rfl
  batches := rfl
  file_offset := rfl
  file := rfl
  file_len := rfl
  log := by
    change w.ring.HandsOver (Function.update s.writer t w' t).ring
    rw [Function.update_self]
    exact hlog

@[simp] theorem set_writer (s : Writers T) (t : T) (w : RingWriter) (stage : WriterStage) :
    (s.set t w stage).writer t = w := Function.update_self ..

@[simp] theorem set_stage (s : Writers T) (t : T) (w : RingWriter) (stage : WriterStage) :
    (s.set t w stage).stage t = stage := Function.update_self ..

/-- The accounts depend on the slots, the queues and the reports alone. -/
theorem Keeps.congr (h : s.Keeps t w rest) (hslots : w'.slots = w.slots) (hring : w'.ring = w.ring)
    (hpending : w'.pending = w.pending) (hcompleted : w'.completed = w.completed) : s.Keeps t w' rest where
  sound := by
    rw [RingWriter.Sound, hring]
    refine h.sound.congr (fun b => ?_) hpending
    rw [hslots]
    exact ⟨rfl, rfl, rfl⟩
  order := h.order
  pushed := by
    rw [hring]
    exact h.pushed
  ranges := by
    rw [hcompleted, hring]
    exact h.ranges
  slots := by
    rw [hslots, hring]
    exact h.slots

/-- Handing entries over keeps the account. -/
theorem Keeps.submit (h : s.Keeps t w rest) : s.Keeps t w.submit rest where
  sound := h.sound.submit
  order := h.order
  pushed := by
    change w.ring.submit.pushed.map WriteEntry.range = _
    rw [Queues.pushed_submit]
    exact h.pushed
  ranges := ((Queues.outstanding_submit w.ring).map WriteEntry.range |>.append_left _).trans h.ranges
  slots e he := h.slots e ((Queues.outstanding_submit w.ring).mem_iff.mp he)

/-- Other calls of the writer than those that place and claim keep its accounts. -/
theorem Keeps.set (h : s.Keeps t w rest) (stage : WriterStage) : (s.set t w stage).Keeps t w rest :=
  ⟨h.sound, h.order, h.pushed, h.ranges, h.slots⟩

/-- Placing a payload leaves the slots in flight alone. -/
theorem Keeps.place (h : s.Keeps t w [payload]) (hfilled : w.Filled (s.filling t))
    (hfits : w.cursor.toNat + payload.len.toNat ≤ 2 ^ 20) :
    let s' := s.place t (w.claim payload.len).2 (w.claim payload.len).1 payload
    s'.Stood t ∧ s.Within t w s' := by
  intro s'
  let placed := (w.claim payload.len).2.write w.cursor payload
  have hwriter : s'.writer t = placed := Function.update_self ..
  have hfilling : s'.filling t = s.filling t ++ [payload] := Function.update_self ..
  have hslot {b : Fin RING_LEN} (hb : b ≠ w.head) : placed.slots b = w.slots b := Function.update_of_ne hb _ _
  have hhead : placed.slots w.head =
      { w.slots w.head with buf := FlushBuffer.copyAt (w.slots w.head).buf w.cursor payload } :=
    Function.update_self ..
  refine ⟨⟨[], ?_, ?_⟩, ?_⟩
  · rw [hwriter]
    refine ⟨h.sound.congr (fun b => ?_) rfl, ?_, h.pushed, h.ranges, fun e he => ?_⟩
    · by_cases hb : b = w.head
      · rw [hb, hhead]
        exact ⟨rfl, rfl, rfl⟩
      · rw [hslot hb]
        exact ⟨rfl, rfl, rfl⟩
    · rw [hfilling, List.append_nil, ← List.append_assoc]
      exact h.order
    · have hne : e.buf ≠ w.head := by
        intro heq
        have hflying := (h.sound.flying e.buf).mpr ⟨e, he, rfl⟩
        rw [heq, hfilled.opened] at hflying
        cases hflying
      rw [hslot hne]
      exact h.slots e he
  · rw [hwriter, hfilling]
    have hstage : s'.stage t = .idle := Function.update_self ..
    rw [hstage]
    exact .idle (hfilled.write hfits)
  · have hlog : w.ring.HandsOver placed.ring := Queues.handsOver_of_log rfl
    have hset := within_set { s with filling := Function.update s.filling t (s.filling t ++ [payload]) } t .idle hlog
    exact { hset with filling := fun t' ht => Function.update_of_ne ht _ _ }

/-- `finish` returns when nothing is pending. -/
theorem Keeps.ends (h : s.Keeps t w []) (hfilled : w.Filled (s.filling t)) (hcursor : w.cursor = 0)
    (hpending : w.pending = 0) : (s.ends t w).Stood t ∧ s.Within t w (s.ends t w) := by
  let after : RingWriter := { w with completed := [] }
  have hwriter : (s.ends t w).writer t = after := Function.update_self ..
  have hreturned : (s.ends t w).returned t = s.returned t ++ w.completed := Function.update_self ..
  refine ⟨⟨[], ?_, ?_⟩, ?_⟩
  · rw [hwriter]
    refine ⟨⟨h.sound.distinct, h.sound.flying, h.sound.entry, h.sound.len, h.sound.pending⟩, h.order, h.pushed, ?_,
      h.slots⟩
    rw [hreturned]
    change (s.returned t ++ w.completed ++ [] ++ w.ring.outstanding.map WriteEntry.range).Perm _
    rw [List.append_nil]
    exact h.ranges
  · have hstage : (s.ends t w).stage t = .finished := Function.update_self ..
    rw [hwriter, hstage]
    exact .finished ⟨hfilled.opened, hfilled.fits, hfilled.holds⟩ hcursor hpending rfl
  · have hlog : w.ring.HandsOver after.ring := Queues.handsOver_of_log rfl
    have hset := within_set { s with returned := Function.update s.returned t (s.returned t ++ w.completed) } t
      .finished hlog
    exact { hset with returned := fun t' ht => Function.update_of_ne ht _ _ }

theorem within_submit (s : Writers T) (t : T) (stage : WriterStage) : s.Within t w (s.set t w.submit stage) :=
  within_set s t stage (Queues.handsOver_submit w.ring)

/-- Reading the completions keeps the account. -/
theorem Keeps.drain (h : s.Keeps t w []) (hfilled : w.Filled (s.filling t)) (hcursor : w.cursor = 0) :
    (s.drain t w).Stood t ∧ s.Within t w (s.drain t w) := by
  unfold Writers.drain
  split
  next hpending =>
    refine ⟨⟨[], ?_, ?_⟩, within_submit s t .drains⟩
    · rw [set_writer]
      exact h.submit.set .drains
    · rw [set_writer, set_stage]
      exact .drains ⟨hfilled.opened, hfilled.fits, hfilled.holds⟩ hcursor rfl hpending
  next hnone =>
    refine h.ends hfilled hcursor (BitVec.eq_of_toNat_eq ?_)
    rw [BitVec.lt_def] at hnone
    exact Nat.eq_zero_of_not_pos hnone

/-- A caller of `seal_and_advance` goes on with an empty slot. -/
theorem Keeps.sealed {caller : SealCaller} (h : s.Keeps t w caller.payload) (hfilled : w.Filled (s.filling t))
    (hcursor : w.cursor = 0) (hlen : ∀ payload ∈ caller.payload, payload.len ≤ BATCH_SIZE) :
    (s.sealed t w caller).Stood t ∧ s.Within t w (s.sealed t w caller) := by
  cases caller with
  | append payload =>
    refine h.place hfilled ?_
    have hfits := hlen payload List.mem_cons_self
    have hbatch : BATCH_SIZE.toNat = 2 ^ 20 := rfl
    rw [BitVec.le_def, hbatch] at hfits
    rw [hcursor]
    exact (Nat.zero_add _).le.trans hfits
  | flush =>
    refine ⟨⟨[], ?_, ?_⟩, within_set s t .idle (Queues.handsOver_of_log rfl)⟩
    · change (s.set t w .idle).Keeps t ((s.set t w .idle).writer t) []
      rw [set_writer]
      exact Keeps.set h .idle
    · change Stands ((s.set t w .idle).writer t) ((s.set t w .idle).stage t) (s.filling t) []
      rw [set_writer, set_stage]
      exact .idle hfilled
  | finish => exact h.drain hfilled hcursor

/-- The loop of `seal_and_advance` waits, or moves on to a slot that is open. -/
theorem Keeps.wait {caller : SealCaller} (h : s.Keeps t w caller.payload)
    (hempty : (s.filling t).flatMap Slice.toList = []) (hlen : ∀ payload ∈ caller.payload, payload.len ≤ BATCH_SIZE) :
    (s.wait t w caller).Stood t ∧ s.Within t w (s.wait t w caller) := by
  unfold Writers.wait
  split
  next hnext =>
    refine ⟨⟨caller.payload, ?_, ?_⟩, within_submit s t (.waits caller)⟩
    · rw [set_writer]
      exact h.submit.set (.waits caller)
    · rw [set_writer, set_stage]
      exact .waits hempty hlen rfl hnext
  next hfree =>
    have hopen : (w.slots w.next).state = .Open := by
      cases hstate : (w.slots w.next).state with
      | Open => rfl
      | InFlight => exact absurd hstate hfree
    have hadvance : s.Keeps t w.advance caller.payload := h.congr rfl rfl rfl rfl
    have hzero : (0 : Usize) ≤ BATCH_SIZE := by decide
    have hfilled : w.advance.Filled (s.filling t) := by
      refine ⟨hopen, hzero, ?_⟩
      rw [hempty]
      rfl
    obtain ⟨hstood, hwithin⟩ := hadvance.sealed hfilled rfl hlen
    exact ⟨hstood, ⟨hwithin.writer, hwithin.stage, hwithin.filling, hwithin.returned, hwithin.appended,
      hwithin.batches, hwithin.file_offset, hwithin.file, hwithin.file_len, hwithin.log⟩⟩

/-- A claim adds a batch of its writer. -/
theorem mine_claim (s : Writers T) (t : T) (valid_len : Usize) :
    (s.claim t valid_len).mine t =
      s.mine t ++ [{ writer := t, offset := s.file_offset, len := valid_len, payloads := s.filling t }] := by
  simp [mine, claim]

theorem mine_claim_of_ne (s : Writers T) {t t' : T} (ht : t' ≠ t) (valid_len : Usize) :
    (s.claim t valid_len).mine t' = s.mine t' := by
  simp [mine, claim, Ne.symm ht]

/-- What a writer has filled its slot with goes in a batch of its own, and its entry in the queue. -/
theorem Keeps.claim (h : s.Keeps t w rest) (hopen : (w.slots w.head).state = .Open) {valid_len : Usize}
    (hpos : 0 < valid_len) (hlen : valid_len ≤ BATCH_SIZE)
    (hholds : load (w.slots w.head).buf { start := 0, len := valid_len.toNat } = (s.filling t).flatMap Slice.toList)
    (submits : Bool) :
    ∃ w', w.submit_slot submits s.file_offset w.head valid_len = .ok w' ∧ (s.claim t valid_len).Keeps t w' rest ∧
      w'.ring.log = w.ring.log := by
  let e := write_e s.file_offset w.head valid_len
  obtain ⟨ring, hpush, hsubmit, hsound⟩ := h.sound.submit_slot submits s.file_offset hopen hpos hlen
  let w' : RingWriter := { w.take_slot s.file_offset w.head valid_len with ring, pending := w.pending + 1 }
  have hbuf (b : Fin RING_LEN) : (w'.slots b).buf = (w.slots b).buf := by
    by_cases hb : b = w.head
    · have hhead : w'.slots w.head =
          { w.slots w.head with disk_offset := s.file_offset, sealed_len := valid_len, state := .InFlight } :=
        Function.update_self ..
      rw [hb, hhead]
    · exact congrArg Slot.buf (Function.update_of_ne hb _ w.slots)
  have hrange : e.range = { disk_offset := s.file_offset, sealed_len := valid_len } := by
    apply write_e_range
    rw [BitVec.le_def] at hlen
    exact hlen.trans_lt (by decide)
  have hentries := Queues.outstanding_push hpush
  obtain ⟨hpushed, hlog⟩ := Queues.pushed_push hpush
  refine ⟨w', hsubmit, ⟨hsound, ?_, ?_, ?_, fun d hd => ?_⟩, hlog⟩
  · have hfilling : (s.claim t valid_len).filling t = [] := Function.update_self ..
    rw [mine_claim, hfilling, List.flatMap_append, List.flatMap_singleton, List.append_nil]
    exact h.order
  · change ring.pushed.map WriteEntry.range = _
    rw [mine_claim, hpushed, List.map_append, List.map_append, h.pushed, List.map_singleton, List.map_singleton,
      hrange]
    rfl
  · rw [mine_claim, List.map_append, List.map_singleton]
    refine ((hentries.map WriteEntry.range).append_left _).trans ?_
    rw [List.map_cons, hrange]
    exact (List.perm_middle.trans (List.perm_append_singleton _ _).symm).trans (h.ranges.append_right _)
  · rw [mine_claim, hbuf]
    obtain rfl | hd := List.mem_cons.mp (hentries.mem_iff.mp hd)
    · exact ⟨_, List.mem_append_right _ List.mem_cons_self, hrange.symm, hholds⟩
    · obtain ⟨b, hb, hb'⟩ := h.slots d hd
      exact ⟨b, List.mem_append_left _ hb, hb'⟩

/-- What a call of writer `t` does to the others and to what is claimed: nothing, or it claims the next part of
the file for the payloads in its slot. -/
inductive Called (s : Writers T) (t : T) (s' : Writers T) : Prop where
  | stays (h : s.Within t (s.writer t) s')
  | claims {valid_len : Usize} (hpos : 0 < valid_len) (hlen : valid_len ≤ BATCH_SIZE)
      (hbytes : ((s.filling t).flatMap Slice.toList).length = valid_len.toNat)
      (h : (s.claim t valid_len).Within t (s.writer t) s')

/-- `seal_and_advance` on a slot that holds payloads. -/
theorem Keeps.seal_and_advance (caller : SealCaller) (h : s.Keeps t w caller.payload)
    (hring : w.ring = (s.writer t).ring) (hopen : (w.slots w.head).state = .Open) {valid_len : Usize}
    (hpos : 0 < valid_len) (hlen : valid_len ≤ BATCH_SIZE)
    (hholds : load (w.slots w.head).buf { start := 0, len := valid_len.toNat } = (s.filling t).flatMap Slice.toList)
    (hfits : ∀ payload ∈ caller.payload, payload.len ≤ BATCH_SIZE) (submits : Bool) :
    (s.seal_and_advance t submits w valid_len caller).Stood t ∧
      s.Called t (s.seal_and_advance t submits w valid_len caller) := by
  obtain ⟨w', hsubmit, hkeeps, hlog⟩ := h.claim hopen hpos hlen hholds submits
  have hfilling : (s.claim t valid_len).filling t = [] := Function.update_self ..
  have hempty : ((s.claim t valid_len).filling t).flatMap Slice.toList = [] := by
    rw [hfilling]
    rfl
  obtain ⟨hstood, hwithin⟩ := hkeeps.wait hempty hfits
  have hseal : s.seal_and_advance t submits w valid_len caller = (s.claim t valid_len).wait t w' caller := by
    unfold Writers.seal_and_advance
    rw [if_pos hpos, hsubmit]
  rw [hseal]
  refine ⟨hstood, .claims hpos hlen ?_ { hwithin with log := ?_ }⟩
  · rw [← hholds, load, List.length_map, List.length_range]
  · rw [Queues.HandsOver, ← hring, ← hlog]
    exact hwithin.log

/-- `append` keeps the accounts of its writer and leaves the others alone. -/
theorem append_called (h : s.Keeps t (s.writer t) [payload]) (hfilled : (s.writer t).Filled (s.filling t))
    (hlen : payload.len ≤ BATCH_SIZE) (submits : Bool) :
    (s.append t submits payload).Stood t ∧ s.Called t (s.append t submits payload) := by
  have hbatch : BATCH_SIZE.toNat = 1048576 := rfl
  have hcursor := hfilled.fits
  rw [BitVec.le_def, hbatch] at hcursor hlen
  have hsum : ((s.writer t).cursor + payload.len).toNat = (s.writer t).cursor.toNat + payload.len.toNat := by
    rw [BitVec.toNat_add, Nat.mod_eq_of_lt (by omega)]
  unfold Writers.append RingWriter.claim
  dsimp only
  split
  next hover =>
    have hpos : 0 < (s.writer t).cursor := by
      rw [gt_iff_lt, BitVec.lt_def, hsum, hbatch] at hover
      rw [BitVec.lt_def]
      change 0 < _
      omega
    have hclaimed : s.Keeps t { s.writer t with cursor := (s.writer t).cursor + payload.len } [payload] :=
      h.congr rfl rfl rfl rfl
    refine Keeps.seal_and_advance (.append payload) hclaimed rfl hfilled.opened hpos hfilled.fits
      hfilled.holds ?_ submits
    intro p hp
    rw [List.mem_singleton.mp hp, BitVec.le_def, hbatch]
    exact hlen
  next hfit =>
    have hfits : (s.writer t).cursor.toNat + payload.len.toNat ≤ 2 ^ 20 := by
      rw [gt_iff_lt, BitVec.lt_def, hsum, hbatch] at hfit
      omega
    obtain ⟨hstood, hwithin⟩ := h.place hfilled hfits
    exact ⟨hstood, .stays hwithin⟩

/-- `flush` keeps the accounts of its writer and leaves the others alone. -/
theorem flush_called (h : s.Keeps t (s.writer t) []) (hfilled : (s.writer t).Filled (s.filling t)) (submits : Bool) :
    (s.flush t submits).Stood t ∧ s.Called t (s.flush t submits) := by
  unfold Writers.flush
  dsimp only
  split
  next hpos =>
    exact Keeps.seal_and_advance .flush h rfl hfilled.opened hpos hfilled.fits hfilled.holds
      (fun _ hp => by cases hp) submits
  next =>
    refine ⟨⟨[], ?_, ?_⟩, .stays (within_set s t .idle (Queues.handsOver_of_log rfl))⟩
    · rw [set_writer]
      exact h.set .idle
    · rw [set_writer, set_stage]
      exact .idle hfilled

/-- `finish` keeps the accounts of its writer and leaves the others alone. -/
theorem finish_called (h : s.Keeps t (s.writer t) []) (hfilled : (s.writer t).Filled (s.filling t)) (submits : Bool) :
    (s.finish t submits).Stood t ∧ s.Called t (s.finish t submits) := by
  unfold Writers.finish
  dsimp only
  split
  next hpos =>
    exact Keeps.seal_and_advance .finish h rfl hfilled.opened hpos hfilled.fits hfilled.holds
      (fun _ hp => by cases hp) submits
  next hzero =>
    have hcursor : (s.writer t).cursor = 0 := by
      apply BitVec.eq_of_toNat_eq
      rw [gt_iff_lt, BitVec.lt_def] at hzero
      exact Nat.eq_zero_of_not_pos hzero
    obtain ⟨hstood, hwithin⟩ := h.drain hfilled hcursor
    exact ⟨hstood, .stays hwithin⟩

/-- What is read off the completion queue is reported. -/
theorem Keeps.reap_all (h : s.Keeps t w rest) :
    ∃ w', w.reap_all = some w' ∧ s.Keeps t w' rest ∧ w'.head = w.head ∧ w'.cursor = w.cursor ∧
      w'.ring = w.ring.drain.2 ∧ (∀ b, (w'.slots b).buf = (w.slots b).buf) ∧
      ∀ b, (w.slots b).state = .Open → (w'.slots b).state = .Open := by
  obtain ⟨w', hreap, hsound, hcompleted, hhead, hcursor, hring, hbuf, hopen⟩ := h.sound.reap_all
  have hdrained := Queues.outstanding_drain w.ring
  refine ⟨w', hreap, ⟨hsound, h.order, ?_, ?_, fun e he => ?_⟩, hhead, hcursor, hring, hbuf, hopen⟩
  · rw [hring]
    exact h.pushed
  · rw [hcompleted, hring]
    have hranges := (hdrained.map WriteEntry.range).append_left (s.returned t ++ w.completed)
    rw [List.map_append, List.map_map, ← List.append_assoc, List.append_assoc (s.returned t)] at hranges
    exact hranges.trans h.ranges
  · rw [hring] at he
    rw [hbuf]
    exact h.slots e (hdrained.mem_iff.mp (List.mem_append_right _ he))

/-- A wake-up keeps the accounts of its writer and leaves the others alone. -/
theorem resume_called {ok : Bool} (h : s.Stood t) (hresume : s.resume t ok = some s') :
    s'.Stood t ∧ s.Called t s' := by
  obtain ⟨rest, hkeeps, hstands⟩ := h
  have hfails : (s.set t (s.writer t) .failed).Stood t ∧ s.Called t (s.set t (s.writer t) .failed) := by
    refine ⟨⟨rest, ?_, ?_⟩, .stays (within_set s t .failed (Queues.handsOver_of_log rfl))⟩
    · rw [set_writer]
      exact hkeeps.set .failed
    · rw [set_writer, set_stage]
      exact .failed _ _
  unfold Writers.resume at hresume
  generalize hstage : s.stage t = stage at hresume hstands
  generalize hfilling : s.filling t = filling at hstands
  cases hstands with
  | idle => cases hresume
  | finished => cases hresume
  | failed => cases hresume
  | waits hempty hlen _ _ =>
    cases ok with
    | false =>
      cases hresume
      exact hfails
    | true =>
      dsimp only at hresume
      rw [if_pos rfl] at hresume
      split at hresume
      next => cases hresume
      next =>
        obtain ⟨w', hreap, hkeeps', _, _, hring, _⟩ := hkeeps.reap_all
        rw [hreap] at hresume
        cases hresume
        rw [← hfilling] at hempty
        obtain ⟨hstood, hwithin⟩ := hkeeps'.wait hempty hlen
        have hlog := hwithin.log
        rw [hring] at hlog
        exact ⟨hstood, .stays { hwithin with log := hlog }⟩
  | drains hfilled hcursor _ _ =>
    cases ok with
    | false =>
      cases hresume
      exact hfails
    | true =>
      dsimp only at hresume
      rw [if_pos rfl] at hresume
      split at hresume
      next hall =>
        obtain ⟨w', hreap, hkeeps', hhead, hcursor', hring, hbuf, hopen⟩ := hkeeps.reap_all
        rw [hreap] at hresume
        cases hresume
        have hfilled' : w'.Filled (s.filling t) := by
          refine ⟨?_, ?_, ?_⟩
          · rw [hhead]
            exact hopen _ hfilled.opened
          · rw [hcursor']
            exact hfilled.fits
          · rw [hhead, hbuf, hcursor', hfilling]
            exact hfilled.holds
        -- everything outstanding has completed
        have hpending : w'.pending = 0 := by
          have hlength := hkeeps.sound.pending
          have hlength' := hkeeps'.sound.pending
          rw [hring] at hlength'
          rw [Queues.outstanding, List.length_append, List.length_map] at hlength hlength'
          apply BitVec.eq_of_toNat_eq
          rw [hlength']
          change _ + 0 = 0
          have hsame : ((s.writer t).ring.drain.2).unserved = (s.writer t).ring.unserved := rfl
          rw [hsame]
          omega
        obtain ⟨hstood, hwithin⟩ := hkeeps'.ends hfilled' (hcursor'.trans hcursor) hpending
        have hlog := hwithin.log
        rw [hring] at hlog
        exact ⟨hstood, .stays { hwithin with log := hlog }⟩
      next => cases hresume

end Calls

end Writers

end FlushRing
