import FlushRing.Threads.Delivery

/-! What an acknowledged `put` can rely on: its payload stays in its buffer until it is in the file. -/

open Transition Extents

namespace FlushRing

variable {L : Nat}

namespace BufferRing

/-- A copy belongs to the present filling of its buffer, or to one that was reported. -/
def Records (mem : BufferRing L) (b : Fin L) (copy : Usize × Slice) : Prop :=
  copy ∈ (mem.ring b).filling.copied ∨ ∃ m ∈ mem.sent, m.buffer = b ∧ copy ∈ m.filling.copied

/-- A copy is at its place in its buffer, or at its place in a reported range of the file. -/
def Holds (mem : BufferRing L) (b : Fin L) (copy : Usize × Slice) : Prop :=
  (copy ∈ (mem.ring b).filling.copied ∧
    load (mem.ring b).buf.bytes { start := copy.1.toNat, len := copy.2.len.toNat } = copy.2.toList) ∨
  ∃ m ∈ mem.sent, m.buffer = b ∧ copy ∈ m.filling.copied ∧
    load mem.file { start := m.file_offset.toNat + copy.1.toNat, len := copy.2.len.toNat } = copy.2.toList

end BufferRing

/-- With a store, automatic flushes and a channel, a buffer is reset only for a message just sent. -/
theorem Advances.resets_sent {options : BufferRingOptions} {mem : BufferRing L} {pc pc' : Pc L} {b : Fin L}
    {store : QuikIO} (hstore : options.io_instance = some store) (hauto : options.auto_flush = true)
    (hchannel : options.cq_tx = true) (h : Advances options mem pc pc') (hreset : pc'.Resets b) :
    ∃ cqe rest file_offset byte_count, pc = .cqueSend cqe b rest file_offset byte_count := by
  cases h
  case cque_sent cqe b' rest file_offset byte_count =>
    obtain rfl : b' = b := hreset
    exact ⟨cqe, rest, file_offset, byte_count, rfl⟩
  case flush_won call _ =>
    rw [Pc.afterOwning, hstore] at hreset
    simp only [hauto, if_true] at hreset
    cases hreset
  case flush_resets caller b' hnone =>
    rw [hstore] at hnone
    cases hnone
  case cque_takes cqe rest =>
    simp only [Pc.cqueEntry, hchannel, if_true] at hreset
    split at hreset
    next => cases hreset
    next => split at hreset <;> cases hreset
  case rotated_before caller _ _ _ => cases caller <;> cases hreset
  case rotate_exhausted caller _ _ => cases caller <;> cases hreset
  case rotate_stored caller _ _ => cases caller <;> cases hreset
  case submit_pushed caller _ _ _ => cases caller <;> cases hreset
  case address_reset caller b' =>
    cases caller with
    | put call => cases hreset
    | flush caller => cases caller <;> cases hreset
    | check_cque cqe rest => cases hreset
  all_goals cases hreset

theorem Entered.copied {held : Option (Fin L)} {msg : Option Slice} {c : Call} {pc pc' : Pc L}
    (h : Entered held msg c pc pc') : pc'.copied = [] := by
  cases h
  case put b payload result => exact Pc.copied_putEntry _
  all_goals rfl

namespace Threads

variable {T : Type} [Fintype T]

/-- Every copy made by a `put` that is running or has returned is recorded, and so are all copies of a buffer
that is about to be reset. -/
structure Durable (s : Threads T L) : Prop where
  delivers : s.Delivers
  resets : ∀ t b, (s.pc t).Resets b → ∃ m ∈ s.mem.sent, m.buffer = b ∧ m.filling = (s.mem.ring b).filling
  copied : ∀ t, ∀ c ∈ (s.pc t).copied, s.mem.Records c.1 c.2

theorem durable_init [NeZero L] (options : BufferRingOptions) :
    (init (BufferRing.with_options options) : Threads T L).Durable where
  delivers := delivers_init options
  resets _ _ h := by cases h
  copied _ _ h := by cases h

section Steps
variable {options : BufferRingOptions} {store : QuikIO} {s s' : Threads T L} {a : Action T}
variable {t : T} {ok : Bool} {pc : Pc L} {mem : BufferRing L} {b : Fin L} {copy : Usize × Slice}

/-- A copied payload stays on record in a step. -/
theorem Durable.records_run (hs : s.Durable) (hcopy : s.mem.Records b copy)
    (h : next options ok s.mem (s.pc t) = some (pc, mem)) : mem.Records b copy := by
  obtain hcopy | ⟨m, hm, hb, hcopy⟩ := hcopy
  · by_cases hreset : (s.pc t).Resets b
    · obtain ⟨m, hm, hb, hfilling⟩ := hs.resets t b hreset
      rw [← hfilling] at hcopy
      exact .inr ⟨m, next_sends h hm, hb, hcopy⟩
    · exact .inl (next_keeps_copies hreset h hcopy)
  · exact .inr ⟨m, next_sends h hm, hb, hcopy⟩

/-- A recorded copy is where the record says. -/
theorem Durable.holds (hs : s.Durable) (hcopy : s.mem.Records b copy) : s.mem.Holds b copy := by
  obtain hcopy | ⟨m, hm, hb, hcopy⟩ := hcopy
  · exact .inl ⟨hcopy, hs.delivers.contents.copied b copy hcopy⟩
  · exact .inr ⟨m, hm, hb, hcopy, ((hs.delivers.sent m hm).2 copy hcopy).2⟩

variable [DecidableEq T]

/-- The message for a buffer that is about to be reset holds its filling. -/
theorem Durable.resets_run (hs : s.Durable) (hstore : options.io_instance = some store)
    (hauto : options.auto_flush = true) (hchannel : options.cq_tx = true)
    (h : next options ok s.mem (s.pc t) = some (pc, mem)) {t' : T}
    (hreset : (Function.update s.pc t pc t').Resets b) :
    ∃ m ∈ mem.sent, m.buffer = b ∧ m.filling = (mem.ring b).filling := by
  have hsound := hs.delivers.contents.claims.sound
  obtain ⟨_, hnew⟩ | ⟨ht, hold⟩ := update_cases (p := fun pc => pc.Resets b) hreset
  · obtain ⟨cqe, rest, file_offset, byte_count, hpc⟩ :=
      (next_advances h).resets_sent hstore hauto hchannel hnew
    have hmem := next_mem h
    rw [hpc] at hmem
    rw [hmem]
    exact ⟨_, List.mem_append_right _ (List.mem_singleton_self _), rfl, rfl⟩
  · obtain ⟨m, hm, hb, hfilling⟩ := hs.resets t' b hold
    have htokens := Pc.tokens_of_resets (hsound.owned.wellFormed t') hold
    have hstill := hsound.still (hsound.flush_owned htokens) (hsound.unreset_of_tokens ht htokens) h
    exact ⟨m, next_sends h hm, hb, hfilling.trans hstill.filling.symm⟩

omit [Fintype T] [DecidableEq T] in
/-- The copy a step makes belongs to the present filling of its buffer. -/
theorem next_records {c : Fin L × Usize × Slice} (hc : c ∈ (s.pc t).copies)
    (h : next options ok s.mem (s.pc t) = some (pc, mem)) : mem.Records c.1 c.2 := by
  generalize hpc : s.pc t = p at hc h
  cases p
  case putWrite call offset =>
    obtain rfl := List.mem_singleton.mp hc
    left
    rw [next_filling call.current h]
    simp [Pc.fillingAfter]
  all_goals cases hc

/-- Every step that meets the conditions keeps the acknowledged payloads. -/
theorem Durable.step (hs : s.Durable) (hstore : options.io_instance = some store)
    (hauto : options.auto_flush = true) (hchannel : options.cq_tx = true) (hok : Served options s a)
    (h : Threads.step options s a = some s') : s'.Durable := by
  have hdelivers := hs.delivers.step hok h
  obtain ⟨t, c, pc, rfl, hentry, rfl⟩ | ⟨t, ok, pc, mem, rfl, hnext, rfl⟩ |
    ⟨i, result, mem, rfl, hmem, rfl⟩ := step_cases h
  · have hentered := entry_entered hentry
    refine ⟨hdelivers, fun t' b hreset => ?_, fun t' copy hcopy => ?_⟩
    all_goals simp only [note_mem]
    · obtain ⟨_, hnew⟩ | ⟨_, hold⟩ := update_cases (p := fun pc => pc.Resets b) hreset
      · exact absurd hnew (hentered.resets)
      · exact hs.resets t' b hold
    · obtain ⟨_, hnew⟩ | ⟨_, hold⟩ := update_cases (p := fun pc => copy ∈ pc.copied) hcopy
      · rw [hentered.copied] at hnew
        cases hnew
      · exact hs.copied t' copy hold
  · refine ⟨hdelivers, fun t' b => hs.resets_run hstore hauto hchannel hnext, fun t' copy hcopy => ?_⟩
    obtain ⟨rfl, hnew⟩ | ⟨_, hold⟩ := update_cases (p := fun pc => copy ∈ pc.copied) hcopy
    · rw [(next_advances hnext).copied (hs.delivers.contents.claims.sound.fits t'), List.mem_append] at hnew
      obtain hold | hmade := hnew
      · exact hs.records_run (hs.copied t' copy hold) hnext
      · exact next_records hmade hnext
    · exact hs.records_run (hs.copied t' copy hold) hnext
  · obtain ⟨e, _, _, rfl⟩ := BufferRing.complete_cases hmem
    exact ⟨hdelivers, hs.resets, hs.copied⟩

/-- A copied payload stays on record. -/
theorem Durable.records_step (hs : s.Durable) (hcopy : s.mem.Records b copy)
    (h : Threads.step options s a = some s') : s'.mem.Records b copy := by
  obtain ⟨t, c, pc, rfl, _, rfl⟩ | ⟨t, ok, pc, mem, rfl, hnext, rfl⟩ |
    ⟨i, result, mem, rfl, hmem, rfl⟩ := step_cases h
  · rw [← note_mem s t c] at hcopy
    exact hcopy
  · exact hs.records_run hcopy hnext
  · obtain ⟨e, _, _, rfl⟩ := BufferRing.complete_cases hmem
    exact hcopy

/-- With a store, automatic flushes and a completion channel: once a `put` has acknowledged a payload that was
granted a reservation, the payload is at its place in its buffer, or in a reported filling and at its place
in the file, whatever the threads and the kernel do from then on. -/
theorem acknowledged_stays [NeZero L] (hstore : options.io_instance = some store)
    (hauto : options.auto_flush = true) (hchannel : options.cq_tx = true)
    (h : Reaches (Threads.step options) (Served options) (init (BufferRing.with_options options)) s)
    {call : PutCall L} {offset : Usize} (hput : (s.pc t).acknowledged = some call)
    (hgranted : call.reserve_result = .ok offset) (h' : Reaches (Threads.step options) (Served options) s s') :
    s'.mem.Holds call.current (offset, call.payload) := by
  have hs : s.Durable := h.invariant (P := Durable)
    (fun _ _ _ hs hok h => hs.step hstore hauto hchannel hok h) (durable_init options)
  have hcopy : s.mem.Records call.current (offset, call.payload) := by
    refine hs.copied t (call.current, offset, call.payload) ?_
    generalize s.pc t = p at hput
    unfold Pc.acknowledged at hput
    split at hput
    next call' msg =>
      obtain rfl := Option.some.inj hput
      simp [Pc.copied, Pc.putCall, PutCall.copied, hgranted]
    next => cases hput
  obtain ⟨hs', hcopy'⟩ := h'.invariant (P := fun s => s.Durable ∧ s.mem.Records call.current (offset, call.payload))
    (fun _ _ _ hs hok h => ⟨hs.1.step hstore hauto hchannel hok h, hs.1.records_step hs.2 h⟩) ⟨hs, hcopy⟩
  exact hs'.holds hcopy'

end Steps

/-- After the writer has returned, the write completes and is reported, and the buffer is reset. -/
def completeAndReport : List (Action (Fin 2)) :=
  [.complete 0 4096, .call 1 .check_cque] ++ steps 1 9

theorem acknowledged_stays_sealUnderWriter :
    ∃ (s s' : Threads (Fin 2) 2) (call : PutCall 2),
      Reaches (Threads.step Client.channelOptions) (Served Client.channelOptions)
        (init (BufferRing.with_options Client.channelOptions)) s ∧
      (s.pc 0).acknowledged = some call ∧ call.reserve_result = .ok 0 ∧
      Reaches (Threads.step Client.channelOptions) (Served Client.channelOptions) s s' ∧
      s'.mem.sent ≠ [] ∧ (s'.mem.ring call.current).state = 0 ∧
      s'.mem.Holds call.current (0, call.payload) := by
  have hrun : (exec (Threads.step Client.channelOptions) (Served Client.channelOptions) sealUnderWriter
      (init (BufferRing.with_options Client.channelOptions) : Threads (Fin 2) 2)).any
      (fun s => ((s.pc 0).acknowledged.any fun call =>
        decide (call.current = 0) && call.reserve_result.toOption == some 0) &&
        (exec (Threads.step Client.channelOptions) (Served Client.channelOptions) completeAndReport s).any
          (fun s' => !s'.mem.sent.isEmpty && (s'.mem.ring 0).state == 0)) = true := by
    decide +kernel
  obtain ⟨s, h, hcheck⟩ := exists_of_exec hrun
  rw [Bool.and_eq_true] at hcheck
  obtain ⟨s', h', hafter⟩ := exists_of_exec hcheck.2
  obtain ⟨call, hput, hcall⟩ := (Option.any_eq_true _ _).mp hcheck.1
  rw [Bool.and_eq_true, decide_eq_true_eq, beq_iff_eq] at hcall
  obtain ⟨hbuffer, hresult⟩ := hcall
  have hgranted : call.reserve_result = .ok 0 := by
    cases hgrant : call.reserve_result with
    | ok offset =>
      rw [hgrant] at hresult
      exact congrArg Except.ok (Option.some.inj hresult)
    | error e =>
      rw [hgrant] at hresult
      cases hresult
  simp only [Bool.and_eq_true, Bool.not_eq_true', List.isEmpty_eq_false_iff, beq_iff_eq] at hafter
  refine ⟨s, s', call, h, hput, hgranted, h', hafter.1, ?_, ?_⟩
  · rw [hbuffer]
    exact hafter.2
  · have hstore : Client.channelOptions.io_instance = some QuikIO.new := rfl
    exact acknowledged_stays hstore rfl rfl h hput hgranted h'

end Threads

end FlushRing
