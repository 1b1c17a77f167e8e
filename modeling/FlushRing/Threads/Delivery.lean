import FlushRing.Client.Delivery
import FlushRing.Threads.Submitted

/-! What `check_cque` reports, whatever the threads do in between: the write of a filling from its submission
to the message, and the reported ranges from then on. -/

open Transition Extents

namespace FlushRing

variable {L : Nat}

namespace BufferRing

/-- A write puts as many bytes of its buffer in the file as the kernel reports. -/
theorem fileAfter_write {mem : BufferRing L} {e : Sqe L} {b : Fin L} {len : BitVec 32}
    (h : e.opcode = .Write b len) (result : Int) :
    mem.fileAfter e result =
      fill mem.file (mem.ring b).buf.bytes { start := e.offset.toNat, len := result.toNat } := by
  unfold fileAfter source
  rw [h]
  rfl

/-- Each payload of a reported filling is at its place in the reported range. -/
def Located (mem : BufferRing L) (m : Sent L) : Prop :=
  ∀ copy ∈ m.filling.copied, copy.1.toNat + copy.2.len.toNat ≤ m.byte_count.toNat ∧
    load mem.file { start := m.file_offset.toNat + copy.1.toNat, len := copy.2.len.toNat } = copy.2.toList

/-- A message stays true while its part of the file does. -/
theorem Located.mono {mem mem' : BufferRing L} {m : Sent L} (h : mem.Located m)
    (hfile : load mem'.file m.extent = load mem.file m.extent) : mem'.Located m := by
  intro copy hcopy
  obtain ⟨hin, hload⟩ := h copy hcopy
  exact ⟨hin, (load_part hfile hin).trans hload⟩

/-- A completed write has put the data of the present filling of `b` in the file. -/
structure Arrived (mem : BufferRing L) (b : Fin L) (cqe : Cqe L) : Prop where
  done : ∃ c ∈ mem.io.completed, c.cqe = cqe
  whole : (mem.ring b).size.toNat ≤ cqe.result.toNat
  loaded : load mem.file { start := cqe.entry.offset.toNat, len := (mem.ring b).size.toNat } =
    load (mem.ring b).buf.bytes (mem.ring b).data

/-- What has arrived of a buffer stays there while neither the buffer nor its part of the file changes. -/
theorem Arrived.still {mem mem' : BufferRing L} {b : Fin L} {cqe : Cqe L} (h : mem.Arrived b cqe)
    (hstill : (mem.ring b).Still (mem'.ring b)) (hcompleted : ∀ c ∈ mem.io.completed, c ∈ mem'.io.completed)
    (hfile : load mem'.file { start := cqe.entry.offset.toNat, len := (mem.ring b).size.toNat } =
      load mem.file { start := cqe.entry.offset.toNat, len := (mem.ring b).size.toNat }) :
    mem'.Arrived b cqe where
  done := by
    obtain ⟨c, hc, hcqe⟩ := h.done
    exact ⟨c, hcompleted c hc, hcqe⟩
  whole := by
    rw [hstill.size]
    exact h.whole
  loaded := by
    rw [FlushBuffer.data, hstill.size, hfile, hstill.buf]
    exact h.loaded

/-- The ranges of the file that are taken, under their buffers and fillings: the slots of the present fillings
with their padding, and the ranges reported. -/
inductive Taken (mem : BufferRing L) (slot : Fin L → Option Usize) : Fin L × Nat → Extent → Prop where
  | slot {b : Fin L} {start : Usize} (h : slot b = some start) :
      Taken mem slot (b, (mem.ring b).filling.number)
        { start := start.toNat, len := (mem.ring b).data_len.toNat }
  | sent {m : Sent L} (h : m ∈ mem.sent) : Taken mem slot (m.buffer, m.filling.number) m.extent

end BufferRing

/-- What `check_cque` has read for the message it is about to send. -/
def Pc.Reports (mem : BufferRing L) : Pc L → Prop
  | .cqueAddress cqe _ _ => 0 ≤ cqe.result
  | .cqueSize cqe _ _ file_offset => 0 ≤ cqe.result ∧ file_offset = cqe.entry.offset
  | .cqueSend cqe b _ file_offset byte_count =>
    0 ≤ cqe.result ∧ file_offset = cqe.entry.offset ∧ byte_count = (mem.ring b).size
  | _ => True

/-- The report in a thread's hands needs only the sizes of the buffers it has taken completions of. -/
theorem Pc.Reports.mono {mem mem' : BufferRing L} {pc : Pc L} (h : pc.Reports mem) (hpc : pc.WellFormed)
    (hsize : ∀ b, 0 < pc.tokens b → (mem'.ring b).size = (mem.ring b).size) : pc.Reports mem' := by
  cases pc
  case cqueSend cqe b rest file_offset byte_count =>
    have huser : cqe.entry.user_data = some b := hpc
    obtain ⟨hresult, hoffset, hcount⟩ := h
    refine ⟨hresult, hoffset, ?_⟩
    rw [hsize b (Threads.tokens_pos (e := cqe.entry) List.mem_cons_self huser)]
    exact hcount
  all_goals exact h

theorem Pc.reports_cqueEntry (options : BufferRingOptions) (mem : BufferRing L) (cqe : Cqe L)
    (rest : List (Cqe L)) : (cqueEntry options cqe rest).Reports mem := by
  unfold cqueEntry
  split
  next => trivial
  next =>
    split
    next => trivial
    next hresult =>
      split
      next => exact Int.not_lt.mp hresult
      next => trivial

theorem Entered.reports {held : Option (Fin L)} {msg : Option Slice} {c : Call} {pc pc' : Pc L}
    (mem : BufferRing L) (h : Entered held msg c pc pc') : pc'.Reports mem := by
  cases h
  case put b payload result =>
    unfold Pc.putEntry
    split <;> trivial
  all_goals trivial

theorem Entered.not_resets {held : Option (Fin L)} {msg : Option Slice} {c : Call} {pc pc' : Pc L}
    (h : Entered held msg c pc pc') (b : Fin L) : ¬ pc.Resets b := by
  cases h
  all_goals exact id

section Steps
variable {options : BufferRingOptions} {ok : Bool} {mem mem' : BufferRing L} {pc pc' : Pc L}

/-- A step of `check_cque` reads off the buffer what it is going to report. -/
theorem next_reports (haddress : ∀ cqe b rest, pc = .cqueAddress cqe b rest →
      (mem.ring b).local_address = cqe.entry.offset)
    (hpc : pc.Reports mem) (h : next options ok mem pc = some (pc', mem')) : pc'.Reports mem' := by
  have hmem := next_mem h
  cases next_advances h
  case cque_address cqe b rest => exact ⟨hpc, haddress cqe b rest rfl⟩
  case cque_size cqe b rest file_offset =>
    rw [hmem]
    exact ⟨hpc.1, hpc.2, rfl⟩
  case cque_takes cqe rest => exact Pc.reports_cqueEntry options mem' cqe rest
  case flush_won call _ =>
    unfold Pc.afterOwning
    repeat' split
    all_goals trivial
  case rotated_before caller _ _ _ => cases caller <;> trivial
  case rotate_exhausted caller _ _ => cases caller <;> trivial
  case rotate_stored caller _ _ => cases caller <;> trivial
  case submit_pushed caller _ _ _ => cases caller <;> trivial
  case address_reset caller b =>
    cases caller with
    | put call => trivial
    | flush caller => cases caller <;> trivial
    | check_cque cqe rest => trivial
  all_goals trivial

/-- Only the kernel changes the file. -/
theorem next_file (h : next options ok mem pc = some (pc', mem')) : mem'.file = mem.file := by
  rw [next_mem h]
  cases pc
  case cqueRetry cqe b rest =>
    simp only [Pc.memAfter, BufferRing.retry]
    split <;> rfl
  all_goals simp only [Pc.memAfter, BufferRing.swap_current_file]
  all_goals try rfl
  all_goals split <;> rfl

/-- Only `check_cque` sends a message, and resets the buffer next. -/
theorem next_sent (h : next options ok mem pc = some (pc', mem')) :
    mem'.sent = mem.sent ∨ ∃ cqe b rest file_offset byte_count,
      pc = .cqueSend cqe b rest file_offset byte_count ∧ pc' = .resetState (.check_cque cqe rest) b ∧
        mem' = mem.send b file_offset byte_count := by
  have hmem := next_mem h
  have hadvances := next_advances h
  cases pc
  case cqueSend cqe b rest file_offset byte_count =>
    cases hadvances
    exact .inr ⟨cqe, b, rest, file_offset, byte_count, rfl, rfl, hmem⟩
  all_goals left
  case cqueRetry cqe b rest =>
    rw [hmem]
    simp only [Pc.memAfter, BufferRing.retry]
    split <;> rfl
  all_goals rw [hmem]
  all_goals simp only [Pc.memAfter, BufferRing.swap_current_sent]
  all_goals try rfl
  all_goals split <;> rfl

/-- Messages are not taken back. -/
theorem next_sends (h : next options ok mem pc = some (pc', mem')) {m : Sent L} (hm : m ∈ mem.sent) :
    m ∈ mem'.sent := by
  obtain hsame | ⟨_, _, _, _, _, _, _, hmem⟩ := next_sent h
  · rw [hsame]
    exact hm
  · rw [hmem]
    exact List.mem_append_left _ hm

end Steps

/-- The buffer a thread takes the next address for. -/
def Pc.claims : Pc L → Option (Fin L)
  | .putClaim call _ => some call.current
  | _ => none

namespace Threads

variable {T : Type} [Fintype T]

section Conditions
variable [DecidableEq T]

/-- The next address does not wrap in this step. -/
def noWrap (options : BufferRingOptions) (s : Threads T L) (a : Action T) : Bool :=
  (step options s a).all fun s' => s.mem.next_address_range.toNat ≤ s'.mem.next_address_range.toNat

omit [Fintype T] [DecidableEq T] in
/-- The kernel fails a write, or writes its full length. -/
def wholeWrites (s : Threads T L) : Action T → Bool
  | .complete i result => (s.mem.io.kernel[i]?).all fun e => result < 0 || result == e.len
  | _ => true

/-- A step of the automatic path in which no buffer is reset under a call that is deciding on it, the writer
count has room, an address is read and written in the order of `addressKept`, the next address does not wrap
and the kernel writes in full what it does not fail. -/
structure Served (options : BufferRingOptions) (s : Threads T L) (a : Action T) : Prop where
  automatic : automatic a = true
  settled : settled s a = true
  roomy : roomy s a = true
  addressKept : addressKept s a = true
  noWrap : noWrap options s a = true
  wholeWrites : wholeWrites s a = true

instance (options : BufferRingOptions) (s : Threads T L) (a : Action T) : Decidable (Served options s a) :=
  decidable_of_iff (automatic a = true ∧ settled s a = true ∧ roomy s a = true ∧ addressKept s a = true ∧
    noWrap options s a = true ∧ wholeWrites s a = true)
    ⟨fun ⟨h₁, h₂, h₃, h₄, h₅, h₆⟩ => ⟨h₁, h₂, h₃, h₄, h₅, h₆⟩,
      fun h => ⟨h.automatic, h.settled, h.roomy, h.addressKept, h.noWrap, h.wholeWrites⟩⟩

/-- Under the conditions the next address only grows. -/
theorem Served.address_le {options : BufferRingOptions} {s s' : Threads T L} {a : Action T}
    (hok : Served options s a) (h : step options s a = some s') :
    s.mem.next_address_range.toNat ≤ s'.mem.next_address_range.toNat := by
  have hwrap := hok.noWrap
  rw [Threads.noWrap, h] at hwrap
  exact of_decide_eq_true hwrap

end Conditions

/-- An entry is the write of the present filling of `b`, at the slot claimed for it. -/
structure Writes (s : Threads T L) (b : Fin L) (e : Sqe L) : Prop where
  opcode : e.opcode = .Write b ((s.mem.ring b).data_len.setWidth 32)
  slot : s.slot b = some e.offset
  unclaimed : ∀ t, (s.pc t).claiming ≠ some b

/-- A message is about a filling that has ended, or whose buffer is being reset. -/
def Past (s : Threads T L) (m : Sent L) : Prop :=
  m.filling.number < (s.mem.ring m.buffer).filling.number ∨
    (m.filling.number = (s.mem.ring m.buffer).filling.number ∧ ∃ t, (s.pc t).Resets m.buffer)

/-- What the messages sent so far, the buffers and the writes in flight satisfy in between. -/
structure Delivers (s : Threads T L) : Prop where
  contents : s.Contents
  writes : ∀ e, Flying s.mem s.pc e → e ∈ s.mem.io.pushed ∧ ∃ b, e.user_data = some b ∧ s.Writes b e
  separate : Separate (s.mem.Taken s.slot) s.mem.next_address_range.toNat
  arrived : ∀ cqe, Unread s.mem s.pc cqe → 0 ≤ cqe.result → ∀ b, cqe.user_data = some b → s.mem.Arrived b cqe
  reports : ∀ t, (s.pc t).Reports s.mem
  sent : ∀ m ∈ s.mem.sent, s.mem.Delivered m ∧ s.mem.Located m
  past : ∀ m ∈ s.mem.sent, s.Past m
  once : s.mem.sent.Pairwise fun m m' => (m.buffer, m.filling.number) ≠ (m'.buffer, m'.filling.number)

theorem delivers_init [NeZero L] (options : BufferRingOptions) :
    (init (BufferRing.with_options options) : Threads T L).Delivers where
  contents := contents_init options
  writes e he := by
    obtain he | ⟨t, he⟩ := he
    · cases he
    · cases he
  separate := by
    have hnone (k : Fin L × Nat) (e : Extent) :
        ¬ (BufferRing.with_options options : BufferRing L).Taken (fun _ => none) k e := by
      intro htaken
      cases htaken with
      | slot h => cases h
      | sent h => cases h
    exact ⟨fun k e h => absurd h (hnone k e), fun k e _ _ h => absurd h (hnone k e)⟩
  arrived cqe hcqe := by
    obtain hcqe | ⟨t, hcqe⟩ := hcqe
    · cases hcqe
    · cases hcqe
  reports _ := trivial
  sent m hm := by cases hm
  past m hm := by cases hm
  once := .nil

section Steps
variable {options : BufferRingOptions} {s s' : Threads T L} {a : Action T}
variable {t : T} {ok : Bool} {pc : Pc L} {mem : BufferRing L} {b : Fin L} {e : Sqe L} {cqe : Cqe L}

omit [Fintype T] in
/-- The range an entry writes lies in the slot of its buffer. -/
theorem Writes.region_le (h : s.Writes b e) :
    e.region.stop ≤ e.offset.toNat + (s.mem.ring b).data_len.toNat := by
  have hlen : e.len = ((s.mem.ring b).data_len.setWidth 32).toNat := by
    rw [Sqe.len, h.opcode]
  have hmod := Nat.mod_le (s.mem.ring b).data_len.toNat (2 ^ 32)
  rw [Extent.stop, Sqe.region, hlen, BitVec.toNat_setWidth]
  exact Nat.add_le_add_left hmod _

omit [Fintype T] in
/-- A write of a buffer covers all its bytes. -/
theorem Writes.size_le (h : s.Writes b e) (hfits : (s.mem.ring b).size.toNat ≤ 2 ^ 20) :
    (s.mem.ring b).size.toNat ≤ e.len := by
  have hlen : e.len = ((s.mem.ring b).data_len.setWidth 32).toNat := by
    rw [Sqe.len, h.opcode]
  have hpadded := (s.mem.ring b).data_len_toNat
  rw [hlen, BitVec.toNat_setWidth]
  omega

/-- The entry a submission builds is the write of its buffer's filling. -/
theorem Contents.submits (hs : s.Contents) {caller : FlushCaller L} {data_len offset : Usize} (store : QuikIO)
    (hpc : s.pc t = .submitPush caller b data_len offset) :
    s.Writes b (s.mem.writeEntry store b data_len offset) := by
  obtain ⟨hslot, hnone⟩ := (hs.claims.addressed b).read t offset (by rw [hpc]; rfl)
  refine ⟨?_, hslot, hnone⟩
  have hlen := hs.measured t b data_len (by rw [hpc]; rfl)
  rw [← hlen]
  rfl

/-- What is known of the completion that a thread is about to report. -/
theorem Delivers.reporting (hs : s.Delivers) {rest : List (Cqe L)} {file_offset byte_count : Usize}
    (hpc : s.pc t = .cqueSend cqe b rest file_offset byte_count) :
    s.mem.Arrived b cqe ∧ cqe.entry ∈ s.mem.io.pushed ∧ s.Writes b cqe.entry ∧
      cqe.entry.user_data = some b ∧ cqe ∈ (s.pc t).taken := by
  have htaken : cqe ∈ (s.pc t).taken := by
    rw [hpc]
    exact List.mem_cons_self
  have huser : cqe.entry.user_data = some b := by
    have hwf := hs.contents.claims.sound.owned.wellFormed t
    rw [hpc] at hwf
    exact hwf
  have hreports := hs.reports t
  rw [hpc] at hreports
  have hunread : Unread s.mem s.pc cqe := .inr ⟨t, htaken⟩
  obtain ⟨hpush, b', hb', hw⟩ := hs.writes cqe.entry hunread.flying
  obtain rfl : b = b' := Option.some.inj (huser.symm.trans hb')
  exact ⟨hs.arrived cqe hunread hreports.1 b huser, hpush, hw, huser, htaken⟩

/-- The message about to be sent tells the truth. -/
theorem Delivers.sends (hs : s.Delivers) {rest : List (Cqe L)} {file_offset byte_count : Usize}
    (hpc : s.pc t = .cqueSend cqe b rest file_offset byte_count) :
    s.mem.Delivered ⟨file_offset, byte_count, b, (s.mem.ring b).filling⟩ ∧
      s.mem.Located ⟨file_offset, byte_count, b, (s.mem.ring b).filling⟩ := by
  have hsound := hs.contents.claims.sound
  obtain ⟨harrived, hpush, hw, huser, htaken⟩ := hs.reporting hpc
  have hreports := hs.reports t
  rw [hpc] at hreports
  obtain ⟨hresult, rfl, rfl⟩ := hreports
  have hdrained := hsound.drained (tokens_pos (List.mem_map_of_mem htaken) huser)
  have hfilled := FlushBuffer.filled (hs.contents.tiled b) hdrained
  refine ⟨⟨hfilled.reserved.symm, ?_, harrived.loaded.trans hfilled.contents⟩, fun copy hcopy => ?_⟩
  · obtain ⟨c, hc, rfl⟩ := harrived.done
    have hstored := hsound.owned.storedTaken t c.cqe htaken b huser
    exact ⟨c, hc, hpush, huser, hstored.2, rfl, hresult, harrived.whole⟩
  · have hgranted : range copy ∈ (s.mem.ring b).filling.granted :=
      hdrained.granted.mem_iff.mpr (List.mem_map_of_mem hcopy)
    have hin : copy.1.toNat + copy.2.len.toNat ≤ (s.mem.ring b).size.toNat :=
      ((hs.contents.tiled b).tiles.bounds (List.mem_map_of_mem hgranted)).2
    refine ⟨hin, (load_part harrived.loaded hin).trans ?_⟩
    rw [Nat.zero_add]
    exact hdrained.copied copy hcopy

variable [DecidableEq T]

/-- The buffer of a write in flight is left alone by a step after which it is still in flight. -/
theorem Contents.flying_kept (hs : s.Contents)
    (hs' : Contents { s.record (s.pc t) pc with mem, pc := Function.update s.pc t pc })
    (hbefore : state_flush_in_progress (s.mem.ring b).state = true)
    (hafter : Flying mem (Function.update s.pc t pc) e) (hb : e.user_data = some b)
    (h : next options ok s.mem (s.pc t) = some (pc, mem)) :
    ¬ (s.pc t).Resets b ∧ (s.mem.ring b).Still (mem.ring b) := by
  have hsound := hs.claims.sound
  have hflush := hs'.claims.sound.flying_flush hafter hb
  have hreset := (next_flush_set (hsound.owned.wellFormed t) hflush h).1
  exact ⟨hreset, hsound.still hbefore hreset h⟩

/-- A write stays the write of its buffer's filling while the buffer is left alone. -/
theorem Writes.run (hw : s.Writes b e) (hs : s.Contents)
    (hflush : state_flush_in_progress (s.mem.ring b).state = true) (hreset : ¬ (s.pc t).Resets b)
    (h : next options ok s.mem (s.pc t) = some (pc, mem)) :
    Writes { s.record (s.pc t) pc with mem, pc := Function.update s.pc t pc } b e where
  opcode := by
    rw [hw.opcode, ← (hs.claims.sound.still hflush hreset h).data_len]
  slot := by
    obtain ⟨hz, _⟩ | ⟨_, hsame⟩ | ⟨call, padded, hpc, hb, _⟩ := record_slot_cases (hs.claims.manual t) h b
    · exact absurd hz hreset
    · exact hsame.trans hw.slot
    · refine absurd ?_ (hw.unclaimed t)
      rw [hpc, ← hb]
      rfl
  unclaimed t' hclaims := by
    obtain ⟨rfl, hnew⟩ | ⟨_, hold⟩ := claiming_update hclaims
    · obtain hkeep | ⟨_, hopen⟩ := (next_advances h).claiming hnew
      · exact hw.unclaimed t' hkeep
      · rw [((hs.claims.sound.orderly b).flushing hflush).1] at hopen
        cases hopen
    · exact hw.unclaimed t' hold

/-- What is in flight after a step are writes of buffers to their slots. -/
theorem Delivers.writes_run (hs : s.Delivers)
    (hs' : Contents { s.record (s.pc t) pc with mem, pc := Function.update s.pc t pc })
    (h : next options ok s.mem (s.pc t) = some (pc, mem)) (he : Flying mem (Function.update s.pc t pc) e) :
    e ∈ mem.io.pushed ∧ ∃ b, e.user_data = some b ∧
      Writes { s.record (s.pc t) pc with mem, pc := Function.update s.pc t pc } b e := by
  have hsound := hs.contents.claims.sound
  obtain hold | ⟨caller, b, data_len, offset, store, hpc, rfl, hpush⟩ := hsound.flying_run h he
  · obtain ⟨hpush, b, hb, hw⟩ := hs.writes e hold
    have hflush := hsound.flying_flush hold hb
    have hreset := (hs.contents.flying_kept hs' hflush he hb h).1
    exact ⟨(next_grows h).1 e hpush, b, hb, hw.run hs.contents hflush hreset h⟩
  · have hw := hs.contents.submits store hpc
    have hflush := hsound.flush_owned (t := t) (b := b) (by simp [hpc, Pc.tokens, Pc.owns])
    have hreset := (hs.contents.flying_kept hs' hflush he rfl h).1
    exact ⟨hpush, b, rfl, hw.run hs.contents hflush hreset h⟩

/-- A step that takes a completion changes nothing of what has arrived. -/
theorem Delivers.arrived_run (hs : s.Delivers)
    (hs' : Contents { s.record (s.pc t) pc with mem, pc := Function.update s.pc t pc })
    (h : next options ok s.mem (s.pc t) = some (pc, mem)) (hcqe : Unread mem (Function.update s.pc t pc) cqe)
    (hresult : 0 ≤ cqe.result) (hb : cqe.user_data = some b) : mem.Arrived b cqe := by
  have hbefore := unread_run h hcqe
  have hflush := hs.contents.claims.sound.flying_flush hbefore.flying hb
  have hstill := (hs.contents.flying_kept hs' hflush hcqe.flying hb h).2
  refine (hs.arrived cqe hbefore hresult b hb).still hstill ?_ ?_
  · rw [(next_grows h).2]
    exact fun _ => id
  · rw [next_file h]

/-- A step keeps the reports that threads are putting together. -/
theorem Delivers.reports_run (hs : s.Delivers) (h : next options ok s.mem (s.pc t) = some (pc, mem)) (t' : T) :
    (Function.update s.pc t pc t').Reports mem := by
  have hsound := hs.contents.claims.sound
  by_cases ht : t' = t
  · subst t'
    rw [Function.update_self]
    refine next_reports (fun cqe b rest hpc => ?_) (hs.reports t) h
    have htaken : cqe ∈ (s.pc t).taken := by
      rw [hpc]
      exact List.mem_cons_self
    have huser : cqe.entry.user_data = some b := by
      have hwf := hsound.owned.wellFormed t
      rw [hpc] at hwf
      exact hwf
    obtain ⟨_, b', hb', hw⟩ := hs.writes cqe.entry (.inr ⟨t, List.mem_map_of_mem htaken⟩)
    obtain rfl : b = b' := Option.some.inj (huser.symm.trans hb')
    have hsealed := (hsound.drained (tokens_pos (List.mem_map_of_mem htaken) huser)).sealed
    have hslot := (hs.contents.claims.addressed b).stored hsealed hw.unclaimed
    rw [hw.slot] at hslot
    exact (Option.some.inj hslot).symm
  · rw [Function.update_of_ne ht]
    refine (hs.reports t').mono (hsound.owned.wellFormed t') fun b htokens => ?_
    exact (hsound.still (hsound.flush_owned htokens) (hsound.unreset_of_tokens ht htokens) h).size

omit [DecidableEq T] in
/-- The messages sent stay true in a step, and a new one is true. -/
theorem Delivers.sent_run (hs : s.Delivers) (h : next options ok s.mem (s.pc t) = some (pc, mem)) :
    ∀ m ∈ mem.sent, mem.Delivered m ∧ mem.Located m := by
  obtain ⟨hpushed, hcompleted⟩ := next_grows h
  have hold (m : Sent L) (hm : s.mem.Delivered m ∧ s.mem.Located m) : mem.Delivered m ∧ mem.Located m := by
    refine ⟨hm.1.mono ?_ hpushed ?_, hm.2.mono ?_⟩
    · rw [next_file h]
    · rw [hcompleted]
      exact fun _ => id
    · rw [next_file h]
  intro m hm
  obtain hsame | ⟨cqe, b, rest, file_offset, byte_count, hpc, _, hmem⟩ := next_sent h
  · rw [hsame] at hm
    exact hold m (hs.sent m hm)
  · rw [hmem] at hm
    obtain hm | hm := List.mem_append.mp hm
    · exact hold m (hs.sent m hm)
    · rw [List.mem_singleton.mp hm]
      exact hold _ (hs.sends hpc)

/-- After a step every message is about a filling that has ended, or whose buffer is being reset. -/
theorem Delivers.past_run (hs : s.Delivers) (h : next options ok s.mem (s.pc t) = some (pc, mem)) :
    ∀ m ∈ mem.sent, Past { s.record (s.pc t) pc with mem, pc := Function.update s.pc t pc } m := by
  have hold (m : Sent L) (hm : m ∈ s.mem.sent) :
      Past { s.record (s.pc t) pc with mem, pc := Function.update s.pc t pc } m := by
    have hpast := hs.past m hm
    by_cases hz : (s.pc t).Resets m.buffer
    · left
      show m.filling.number < (mem.ring m.buffer).filling.number
      rw [next_number_reset hz h]
      exact Nat.lt_succ_of_le (hpast.elim Nat.le_of_lt fun heq => heq.1.le)
    · have hnumber := next_number m.buffer h hz
      refine hpast.imp (fun hlt => hlt.trans_eq hnumber.symm) ?_
      rintro ⟨heq, t', hresets⟩
      refine ⟨heq.trans hnumber.symm, t', ?_⟩
      have ht : t' ≠ t := by
        rintro rfl
        exact hz hresets
      show (Function.update s.pc t pc t').Resets m.buffer
      rw [Function.update_of_ne ht]
      exact hresets
  intro m hm
  obtain hsame | ⟨cqe, b, rest, file_offset, byte_count, _, hpc', hmem⟩ := next_sent h
  · rw [hsame] at hm
    exact hold m hm
  · have hsent := hm
    rw [hmem] at hsent
    obtain hm | hm := List.mem_append.mp hsent
    · exact hold m hm
    · obtain rfl := List.mem_singleton.mp hm
      refine .inr ⟨?_, t, ?_⟩
      · show (s.mem.ring b).filling.number = (mem.ring b).filling.number
        rw [hmem]
        rfl
      · show (Function.update s.pc t pc t).Resets b
        rw [Function.update_self, hpc']
        rfl

/-- A filling is reported once: the thread that reports it holds the one claim to its flush, and a thread that
resets the buffer for an earlier message would hold another. -/
theorem Delivers.once_run (hs : s.Delivers) (h : next options ok s.mem (s.pc t) = some (pc, mem)) :
    mem.sent.Pairwise fun m m' => (m.buffer, m.filling.number) ≠ (m'.buffer, m'.filling.number) := by
  obtain hsame | ⟨cqe, b, rest, file_offset, byte_count, hpc, _, hmem⟩ := next_sent h
  · rw [hsame]
    exact hs.once
  · have hsent : mem.sent = s.mem.sent ++ [⟨file_offset, byte_count, b, (s.mem.ring b).filling⟩] := by
      rw [hmem]
      rfl
    rw [hsent, List.pairwise_append]
    refine ⟨hs.once, List.pairwise_singleton _ _, fun m hm m' hm' heq => ?_⟩
    obtain rfl := List.mem_singleton.mp hm'
    obtain ⟨hbuffer, hnumber⟩ := Prod.mk.inj heq
    obtain ⟨_, _, _, huser, htaken⟩ := hs.reporting hpc
    obtain hlt | ⟨_, t', hresets⟩ := hs.past m hm
    · rw [hbuffer] at hlt
      exact absurd hnumber hlt.ne
    · rw [hbuffer] at hresets
      have ht : t ≠ t' := by
        rintro rfl
        rw [hpc] at hresets
        exact hresets
      exact hs.contents.claims.sound.unreset_of_tokens ht (tokens_pos (List.mem_map_of_mem htaken) huser)
        hresets

omit [DecidableEq T] in
/-- A claim takes a slot above all ranges taken before, and a message reports part of a slot. -/
theorem Delivers.separate_run (hs : s.Delivers)
    (hle : s.mem.next_address_range.toNat ≤ mem.next_address_range.toNat)
    (h : next options ok s.mem (s.pc t) = some (pc, mem)) :
    Separate (mem.Taken (s.record (s.pc t) pc).slot) mem.next_address_range.toNat := by
  have hsound := hs.contents.claims.sound
  refine hs.separate.grow hle ((s.pc t).claims.map fun b => (b, (s.mem.ring b).filling.number)) fun k e he => ?_
  cases he with
  | @slot b start hslot =>
    obtain ⟨_, hnone⟩ | ⟨hreset, hsame⟩ | ⟨call, padded, hpc, hb, hclaimed, haddress⟩ :=
      record_slot_cases (hs.contents.claims.manual t) h b
    · rw [hnone] at hslot
      cases hslot
    · rw [hsame] at hslot
      rw [next_number b h hreset, hs.contents.data_len_kept hreset (hs.contents.slotted b start hslot) h]
      exact .inl ⟨_, .slot hslot, Nat.le_refl _, Nat.le_refl _⟩
    · rw [hclaimed, Option.some.injEq] at hslot
      have hmeasured := hs.contents.measured t b padded (by rw [hpc, ← hb]; rfl)
      have hreset : ¬ (s.pc t).Resets b := by
        rw [hpc]
        exact id
      have hsealed := hsound.measuring_sealed (t := t) (b := b) (by rw [hpc, ← hb]; rfl)
      rw [next_number b h hreset, hs.contents.data_len_kept hreset hsealed h, ← hmeasured, ← hslot]
      refine .inr ⟨?_, Nat.le_refl _, ?_⟩
      · rw [hpc, ← hb]
        rfl
      · rw [haddress] at hle ⊢
        exact (add_toNat_of_le hle).ge
  | @sent m hm =>
    left
    obtain hsame | ⟨cqe, b, rest, file_offset, byte_count, hpc, _, hmem⟩ := next_sent h
    · rw [hsame] at hm
      exact ⟨_, .sent hm, Nat.le_refl _, Nat.le_refl _⟩
    · rw [hmem] at hm
      obtain hm | hm := List.mem_append.mp hm
      · exact ⟨_, .sent hm, Nat.le_refl _, Nat.le_refl _⟩
      · obtain rfl := List.mem_singleton.mp hm
        have hw := (hs.reporting hpc).2.2.1
        have hreports := hs.reports t
        rw [hpc] at hreports
        obtain ⟨_, rfl, rfl⟩ := hreports
        refine ⟨_, .slot hw.slot, Nat.le_refl _, ?_⟩
        have hpadded := (s.mem.ring b).data_len_toNat
        simp only [Extent.stop, Sent.extent]
        omega

omit [DecidableEq T] in
/-- An answer of the kernel spares the ranges taken for other fillings. -/
theorem Delivers.file_spared (hs : s.Delivers) {result : Int} {k : Fin L × Nat} {d taken : Extent}
    (he : e ∈ s.mem.io.kernel) (hle : result ≤ e.len) (htaken : s.mem.Taken s.slot k taken)
    (hstart : taken.start ≤ d.start) (hstop : d.stop ≤ taken.stop)
    (hne : ∀ b, e.user_data = some b → k ≠ (b, (s.mem.ring b).filling.number)) :
    load (s.mem.fileAfter e result) d = load s.mem.file d := by
  have hflying : Flying s.mem s.pc e := .inl (List.mem_append_left _ (List.mem_append_right _ he))
  obtain ⟨_, b, hb, hw⟩ := hs.writes e hflying
  have hapart := (hs.separate.apart _ _ _ _ htaken (.slot hw.slot) (hne b hb)).mono hstart hstop
  have hwritten : Extent.Apart { start := e.offset.toNat, len := result.toNat } d := by
    refine hapart.symm.mono (Nat.le_refl _) ?_
    have hregion := hw.region_le
    simp only [Extent.stop, Sqe.region] at hregion ⊢
    omega
  rw [BufferRing.fileAfter_write hw.opcode]
  exact load_fill_apart _ _ hwritten.symm

omit [DecidableEq T] in
/-- What is reported stays in the file when the kernel answers. -/
theorem Delivers.sent_spared (hs : s.Delivers) {result : Int} (he : e ∈ s.mem.io.kernel) (hle : result ≤ e.len)
    {m : Sent L} (hm : m ∈ s.mem.sent) : load (s.mem.fileAfter e result) m.extent = load s.mem.file m.extent := by
  refine hs.file_spared he hle (.sent hm) (Nat.le_refl _) (Nat.le_refl _) fun b hb heq => ?_
  obtain ⟨hbuffer, hnumber⟩ := Prod.mk.inj heq
  have hpos : 0 < s.mem.io.inFlight b :=
    entriesOf_pos (List.mem_append_left _ (List.mem_append_right _ he)) hb
  obtain hlt | ⟨_, t, hresets⟩ := hs.past m hm
  · rw [hbuffer] at hlt
    exact absurd hnumber hlt.ne
  · -- the write in the kernel and the thread that resets would be two claims to one flush
    rw [hbuffer] at hresets
    have hsound := hs.contents.claims.sound
    have htokens := Pc.tokens_of_resets (hsound.owned.wellFormed t) hresets
    have hle := share_le_sum (Pc.tokens b) s.pc t
    have hsingle := (hsound.owned.single b).trans (flushBit_le_one s.mem b)
    omega

omit [DecidableEq T] in
/-- What the kernel has completed has arrived in the file. -/
theorem Delivers.arrived_complete (hs : s.Delivers) {i : Nat} {result : Int}
    (hwhole : wholeWrites s (.complete i result) = true) (he : s.mem.io.kernel[i]? = some e)
    (hle : result ≤ e.len) (hcqe : cqe ∈ s.mem.io.cq ++ [{ entry := e, result }] ∨ ∃ t, cqe ∈ (s.pc t).taken)
    (hresult : 0 ≤ cqe.result) (hb : cqe.user_data = some b) :
    BufferRing.Arrived { s.mem with
      file := s.mem.fileAfter e result
      io := s.mem.io.finish i { cqe := { entry := e, result }, file := s.mem.fileAfter e result } } b cqe := by
  have hkernel := List.mem_of_getElem? he
  have hstill : (s.mem.ring b).Still (s.mem.ring b) := ⟨rfl, rfl, rfl⟩
  obtain hold | rfl : Unread s.mem s.pc cqe ∨ cqe = { entry := e, result } := by
    obtain hcqe | htaken := hcqe
    · obtain hcqe | hcqe := List.mem_append.mp hcqe
      · exact .inl (.inl hcqe)
      · exact .inr (List.mem_singleton.mp hcqe)
    · exact .inl (.inr htaken)
  · obtain ⟨_, b', hb', hw⟩ := hs.writes cqe.entry hold.flying
    obtain rfl : b = b' := Option.some.inj (hb.symm.trans hb')
    refine (hs.arrived cqe hold hresult b hb).still hstill (fun c hc => List.mem_append_left _ hc) ?_
    refine hs.file_spared hkernel hle (.slot hw.slot) (Nat.le_refl _) ?_ fun c hc heq => ?_
    · have hpadded := (s.mem.ring b).data_len_toNat
      simp only [Extent.stop]
      omega
    · exact hs.contents.claims.sound.kernel_ne_unread hkernel hold hc hb (Prod.mk.inj heq).1.symm
  · obtain ⟨_, b', hb', hw⟩ := hs.writes e (.inl (List.mem_append_left _ (List.mem_append_right _ hkernel)))
    obtain rfl : b = b' := Option.some.inj (hb.symm.trans hb')
    have hsize := hw.size_le (hs.contents.tiled b).fits
    have hlen : result = e.len := by
      simp only [wholeWrites, he, Option.all_some, Bool.or_eq_true, decide_eq_true_eq, beq_iff_eq] at hwhole
      exact hwhole.resolve_left (Int.not_lt.mpr hresult)
    have hin : (s.mem.ring b).size.toNat ≤ result.toNat := by omega
    refine ⟨⟨_, List.mem_append_right _ (List.mem_singleton_self _), rfl⟩, hin, ?_⟩
    show load (s.mem.fileAfter e result) { start := e.offset.toNat, len := (s.mem.ring b).size.toNat } =
      load (s.mem.ring b).buf.bytes { start := 0, len := (s.mem.ring b).size.toNat }
    rw [BufferRing.fileAfter_write hw.opcode]
    apply (load_eq_iff (d := { start := e.offset.toNat, len := (s.mem.ring b).size.toNat })
      (e := { start := 0, len := (s.mem.ring b).size.toNat }) rfl).mpr
    intro k hk
    rw [Nat.zero_add]
    exact fill_apply (e := { start := e.offset.toNat, len := result.toNat }) s.mem.file _ (hk.trans_le hin)

omit [DecidableEq T] in
/-- A completion keeps what is in flight and what was reported in order. -/
theorem Delivers.complete (hs : s.Delivers) {i : Nat} {result : Int}
    (hs' : Contents { s with mem }) (hwhole : wholeWrites s (.complete i result) = true)
    (h : s.mem.complete i result = some mem) : Delivers { s with mem } := by
  obtain ⟨e, he, hle, rfl⟩ := BufferRing.complete_cases h
  have hkernel := List.mem_of_getElem? he
  have hperm := IoUring.entries_finish
    (c := { cqe := { entry := e, result }, file := s.mem.fileAfter e result }) he
  refine ⟨hs', fun e' he' => ?_, ?_, fun cqe hcqe hresult b hb => hs.arrived_complete hwhole he hle hcqe hresult hb,
    fun t => ?_, fun m hm => ?_, hs.past, hs.once⟩
  · obtain ⟨hpush, b, hb, hw⟩ := hs.writes e' (he'.imp_left hperm.mem_iff.mp)
    exact ⟨hpush, b, hb, hw.opcode, hw.slot, hw.unclaimed⟩
  · refine hs.separate.grow (Nat.le_refl _) none fun k d hd => .inl ⟨d, ?_, Nat.le_refl _, Nat.le_refl _⟩
    cases hd with
    | slot h => exact .slot h
    | sent h => exact .sent h
  · exact (hs.reports t).mono (hs.contents.claims.sound.owned.wellFormed t) fun _ _ => rfl
  · have hfile := hs.sent_spared hkernel hle hm
    exact ⟨(hs.sent m hm).1.mono hfile (fun _ => id) fun c hc => List.mem_append_left _ hc,
      (hs.sent m hm).2.mono hfile⟩

/-- A call that a client enters keeps what is in flight and what was reported in order. -/
theorem Delivers.call (hs : s.Delivers) {c : Call}
    (hs' : Contents { s.note t c with pc := Function.update s.pc t pc })
    (h : Entered (s.held t) (s.msg t) c (s.pc t) pc) :
    Delivers { s.note t c with pc := Function.update s.pc t pc } := by
  have hresets (b : Fin L) (t' : T) (hz : (s.pc t').Resets b) : (Function.update s.pc t pc t').Resets b := by
    have ht : t' ≠ t := by
      rintro rfl
      exact h.not_resets b hz
    rw [Function.update_of_ne ht]
    exact hz
  refine ⟨hs', fun e he => ?_, ?_, fun cqe hcqe => ?_, ?_, ?_, ?_, ?_⟩
  all_goals simp only [note_mem, note_slot] at *
  · obtain ⟨hpush, b, hb, hw⟩ := hs.writes e (h.flying he)
    refine ⟨hpush, b, hb, hw.opcode, hw.slot, fun t' hclaims => ?_⟩
    obtain ⟨_, hnew⟩ | ⟨_, hold⟩ := claiming_update hclaims
    · rw [h.claiming.2] at hnew
      cases hnew
    · exact hw.unclaimed t' hold
  · exact hs.separate
  · exact hs.arrived cqe (h.unread hcqe)
  · rw [Function.forall_update_iff s.pc (p := fun _ pc => pc.Reports s.mem)]
    exact ⟨h.reports s.mem, fun t' _ => hs.reports t'⟩
  · exact hs.sent
  · intro m hm
    exact (hs.past m hm).imp_right (And.imp_right fun ⟨t', hz⟩ => ⟨t', hresets _ t' hz⟩)
  · exact hs.once

/-- Every step that meets the conditions keeps what is in flight and what was reported in order. -/
theorem Delivers.step (hs : s.Delivers) (hok : Served options s a) (h : Threads.step options s a = some s') :
    s'.Delivers := by
  have hs' := hs.contents.step hok.automatic hok.settled hok.roomy hok.addressKept h
  have hle := hok.address_le h
  obtain ⟨t, c, pc, rfl, hentry, rfl⟩ | ⟨t, ok, pc, mem, rfl, hnext, rfl⟩ |
    ⟨i, result, mem, rfl, hmem, rfl⟩ := step_cases h
  · exact hs.call hs' (entry_entered hentry)
  · exact {
      contents := hs'
      writes := fun e he => hs.writes_run hs' hnext he
      separate := hs.separate_run hle hnext
      arrived := fun cqe hcqe hresult b hb => hs.arrived_run hs' hnext hcqe hresult hb
      reports := hs.reports_run hnext
      sent := hs.sent_run hnext
      past := hs.past_run hnext
      once := hs.once_run hnext }
  · exact hs.complete hs' hok.wholeWrites hmem

/-- In every state of a run that meets the conditions the writes and the messages are in order. -/
theorem delivers_of_served [NeZero L]
    (h : Reaches (Threads.step options) (Served options) (init (BufferRing.with_options options)) s) :
    s.Delivers :=
  h.invariant (P := Delivers) (fun _ _ _ hs hok h => hs.step hok h) (delivers_init options)

omit [Fintype T] in
theorem sent_step {m : Sent L} (hm : m ∈ s.mem.sent) (h : Threads.step options s a = some s') :
    m ∈ s'.mem.sent := by
  obtain ⟨t, c, pc, rfl, _, rfl⟩ | ⟨t, ok, pc, mem, rfl, hnext, rfl⟩ |
    ⟨i, result, mem, rfl, hmem, rfl⟩ := step_cases h
  · rw [← note_mem s t c] at hm
    exact hm
  · exact next_sends hnext hm
  · obtain ⟨e, _, _, rfl⟩ := BufferRing.complete_cases hmem
    exact hm

/-- What is sent stays true. -/
theorem reported_of_served [NeZero L]
    (h : Reaches (Threads.step options) (Served options) (init (BufferRing.with_options options)) s)
    (hreach : Reaches (Threads.step options) (Served options) s s') {m : Sent L} (hm : m ∈ s.mem.sent) :
    m ∈ s'.mem.sent ∧ s'.mem.Delivered m ∧ s'.mem.Located m := by
  have hkept := hreach.invariant (P := fun s => m ∈ s.mem.sent) (fun _ _ _ hm _ h => sent_step hm h) hm
  exact ⟨hkept, (delivers_of_served (h.trans hreach)).sent m hkept⟩

/-- Whatever threads reserve, put and handle completions in between, no two messages report one filling or
ranges that overlap, and what a message reports is in the file from then on: the payloads of its filling in
the order of their reservations, each at its own place. -/
theorem messages_stay [NeZero L]
    (h : Reaches (Threads.step options) (Served options) (init (BufferRing.with_options options)) s) :
    s.mem.sent.Pairwise (fun m m' => (m.buffer, m.filling.number) ≠ (m'.buffer, m'.filling.number) ∧
      m.extent.Apart m'.extent) ∧
    ∀ m ∈ s.mem.sent, ∀ s', Reaches (Threads.step options) (Served options) s s' →
      m ∈ s'.mem.sent ∧ s'.mem.Delivered m ∧ s'.mem.Located m := by
  have hs := delivers_of_served h
  refine ⟨hs.once.imp_of_mem fun hm hm' hne => ?_, fun m hm s' hreach => reported_of_served h hreach hm⟩
  exact ⟨hne, hs.separate.apart _ _ _ _ (.sent hm) (.sent hm') hne⟩

end Steps

/-- Thread 0 holds a reservation of three bytes when the payload of thread 1 seals the buffer and rotates; it
copies its payload, is the last writer and submits. -/
def sealUnderWriter : List (Action (Fin 2)) :=
  List.flatten [
    [.call 0 (.take { len := 3, byte := fun i => .ofNat (i + 7) }), .call 0 .current_buffer,
      .call 0 .reserve_space], steps 0 2,
    attempt 1 (zeros ONE_MEGABYTE_BLOCK) 1 12, [.call 1 .finish, .call 0 .put], steps 0 7]

/-- The write completes and thread 1 reports it. -/
def reportOther : List (Action (Fin 2)) :=
  List.flatten [sealUnderWriter, [.complete 0 4096, .call 1 .check_cque], steps 1 7]

theorem messages_stay_reportOther :
    ∃ s : Threads (Fin 2) 2,
      Reaches (Threads.step Client.channelOptions) (Served Client.channelOptions)
        (init (BufferRing.with_options Client.channelOptions)) s ∧
      ∃ m ∈ s.mem.sent, m.filling.contents = [7, 8, 9] ∧ load s.mem.file m.extent = [7, 8, 9] := by
  have hrun : (exec (Threads.step Client.channelOptions) (Served Client.channelOptions) reportOther
      (init (BufferRing.with_options Client.channelOptions) : Threads (Fin 2) 2)).any
      (fun s => s.mem.sent.any fun m => m.filling.contents == [7, 8, 9]) = true := by
    decide +kernel
  obtain ⟨s, hreach, hcheck⟩ := exists_of_exec hrun
  simp only [List.any_eq_true, beq_iff_eq] at hcheck
  obtain ⟨m, hm, hcontents⟩ := hcheck
  obtain ⟨_, hdelivered, _⟩ := (messages_stay hreach).2 m hm s .refl
  exact ⟨s, hreach, m, hm, hcontents, hdelivered.contents.trans hcontents⟩

end Threads

end FlushRing
