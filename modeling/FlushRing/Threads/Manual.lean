import FlushRing.Threads.Bounds
import FlushRing.Threads.InFlight
import FlushRing.Threads.Lifecycle

/-! The manual protocol, where `put` seals and the client flushes: a buffer that is sealed waits for its
submission, with its bytes, as long as no `put` is the first to set a flush bit. -/

open Transition Extents

namespace FlushRing

variable {L : Nat}

/-- The buffer a `put` resets next. -/
def Pc.putReset : Pc L → Option (Fin L)
  | .resetState (.put _) b => some b
  | _ => none

section Steps
variable {options : BufferRingOptions} {ok : Bool} {mem mem' : BufferRing L} {b : Fin L}

/-- A copy is on record until the next reset. -/
theorem next_keeps_copies {pc pc' : Pc L} (hreset : ¬ pc.Resets b)
    (h : next options ok mem pc = some (pc', mem')) {copy : Usize × Slice}
    (hcopy : copy ∈ (mem.ring b).filling.copied) : copy ∈ (mem'.ring b).filling.copied := by
  rw [next_filling b h]
  cases pc
  case putWrite call offset =>
    simp only [Pc.fillingAfter]
    split
    · exact List.mem_append_left _ hcopy
    · exact hcopy
  case reserveExchange b' payload state offset new =>
    simp only [Pc.fillingAfter]
    split <;> exact hcopy
  case resetState caller b' =>
    have hne : b' ≠ b := hreset
    rwa [Pc.fillingAfter, if_neg hne]
  all_goals exact hcopy

/-- With a store a buffer is reset for a completion, or by the `put` that was the first to set its flush
bit. -/
theorem Advances.resets {pc pc' : Pc L} (h : Advances options mem pc pc')
    (hstore : options.io_instance.isSome) (hreset : pc'.Resets b) :
    (∃ cqe rest, pc' = .resetState (.check_cque cqe rest) b) ∨
      ∃ call, pc = .putSetFlush call ∧
        state_flush_in_progress (mem.ring call.current).state = false := by
  cases h
  case flush_resets caller b' hnone =>
    rw [hnone] at hstore
    cases hstore
  case flush_won call hclear => exact .inr ⟨call, rfl, hclear⟩
  case rotated_before caller _ _ _ => cases caller <;> cases hreset
  case rotate_exhausted caller _ _ => cases caller <;> cases hreset
  case rotate_stored caller _ _ => cases caller <;> cases hreset
  case submit_pushed caller b' _ _ => cases caller <;> cases hreset
  case address_reset caller b' =>
    cases caller with
    | put call => cases hreset
    | flush caller => cases caller <;> cases hreset
    | check_cque cqe rest => cases hreset
  case cque_takes cqe rest =>
    unfold Pc.cqueEntry at hreset ⊢
    split at hreset
    next => cases hreset
    next b' hb =>
      split at hreset
      next => cases hreset
      next hresult =>
        split at hreset
        next => cases hreset
        next htx =>
          obtain rfl : b' = b := hreset
          exact .inl ⟨cqe, rest, by simp [hresult, htx]⟩
  case cque_sent cqe b' rest _ _ =>
    obtain rfl : b' = b := hreset
    exact .inl ⟨cqe, rest, rfl⟩
  all_goals cases hreset

end Steps

theorem Entered.resets {held : Option (Fin L)} {msg : Option Slice} {c : Call} {pc pc' : Pc L} {b : Fin L}
    (h : Entered held msg c pc pc') : ¬ pc'.Resets b := by
  cases h
  case put b' payload result =>
    unfold Pc.putEntry
    split <;> exact id
  all_goals exact id

namespace Threads

variable {T : Type}

/-- A `put` that comes to set a flush bit finds it set: a flush of the buffer has begun. -/
def flushBegun (s : Threads T L) : Action T → Bool
  | .run t _ =>
    match s.pc t with
    | .putSetFlush call => state_flush_in_progress (s.mem.ring call.current).state
    | _ => true
  | _ => true

/-- The conditions of the manual protocol: whoever flushes a buffer begins its flush, before any `put` does;
and a reset finds no writer and a reservation room in the writer count. -/
def tended (s : Threads T L) (a : Action T) : Bool :=
  flushBegun s a && flushFresh s a && resetsDrained s a && roomy s a

/-- The step does not submit `b`. -/
def unsubmitted (b : Fin L) (s : Threads T L) : Action T → Bool
  | .run t _ =>
    match s.pc t with
    | .submitPush _ b' _ _ => b' != b
    | _ => true
  | _ => true

/-- What the manual protocol maintains: ownership of flushes, the reservation ledger, the bytes of every
copied payload, and that buffers are reset for completions only. -/
structure Tended [Fintype T] (s : Threads T L) (size : Usize) : Prop where
  owned : s.Owned
  contained : Contained s.mem s.pc size
  laid : ∀ b, Laid s.mem s.pc b
  reaped : ∀ t b, (s.pc t).Resets b → ∃ cqe rest, s.pc t = .resetState (.check_cque cqe rest) b

section Steps
variable [Fintype T] {options : BufferRingOptions} {s s' : Threads T L} {a : Action T} {size : Usize}
variable {b : Fin L}

theorem tended_init [NeZero L] (options : BufferRingOptions) :
    (init (BufferRing.with_options options) : Threads T L).Tended options.buffer_size where
  owned := owned_init
  contained := ⟨fun _ => trivial, fun _ _ => trivial, fun _ => .of_empty rfl rfl rfl,
    fun _ => (Tiled.of_empty rfl rfl).fits, fun _ => rfl⟩
  laid _ := .of_empty rfl rfl rfl
  reaped _ _ h := by cases h

variable [DecidableEq T]

/-- Every step that meets the conditions keeps the ring tended. -/
theorem Tended.step (hs : s.Tended size) (hstore : options.io_instance.isSome) (htended : tended s a = true)
    (h : Threads.step options s a = some s') : s'.Tended size := by
  simp only [tended, Bool.and_eq_true] at htended
  obtain ⟨⟨⟨hbegun, hfresh⟩, hdrained⟩, hroomy⟩ := htended
  have hrest : (∀ b, Laid s'.mem s'.pc b) ∧
      ∀ t b, (s'.pc t).Resets b → ∃ cqe rest, s'.pc t = .resetState (.check_cque cqe rest) b := by
    refine step_keeps_ring (P := fun mem pc => (∀ b, Laid mem pc b) ∧
      ∀ t b, (pc t).Resets b → ∃ cqe rest, pc t = .resetState (.check_cque cqe rest) b) h ?_ ?_ ?_
    · intro t c pc _ hentered
      refine ⟨fun b => (hs.laid b).call hentered, ?_⟩
      rw [Function.forall_update_iff s.pc (p := fun _ pc => ∀ b, pc.Resets b →
        ∃ cqe rest, pc = .resetState (.check_cque cqe rest) b)]
      exact ⟨fun b hreset => absurd hreset hentered.resets, fun t' _ => hs.reaped t'⟩
    · rintro t ok pc mem rfl hnext
      refine ⟨fun b => ?_, ?_⟩
      · exact (hs.laid b).run (hs.contained.balanced b) (hs.contained.wellFormed t) (roomy_run hroomy) hnext
      · rw [Function.forall_update_iff s.pc (p := fun _ pc => ∀ b, pc.Resets b →
          ∃ cqe rest, pc = .resetState (.check_cque cqe rest) b)]
        refine ⟨fun b hreset => ?_, fun t' _ => hs.reaped t'⟩
        obtain hcqe | ⟨call, hpc, hclear⟩ := (next_advances hnext).resets hstore hreset
        · exact hcqe
        · simp [flushBegun, hpc, hclear] at hbegun
    · intro i result mem _ hmem
      exact ⟨fun b => (hs.laid b).complete hmem, hs.reaped⟩
  exact ⟨owned_step hs.owned hfresh h, hs.contained.step hroomy hdrained h, hrest.1, hrest.2⟩

omit [Fintype T] [DecidableEq T] in
/-- No write of `b` is queued or in the kernel, and no completion of one waits or is in hand. -/
def Unwritten (s : Threads T L) (b : Fin L) : Prop :=
  ∀ e : Sqe L, e.user_data = some b →
    e ∉ s.mem.io.entries ∧ ∀ t, e ∉ (s.pc t).taken.map Cqe.entry

omit [DecidableEq T] in
/-- A write of a buffer goes with its flush bit, so an empty word leaves none. -/
theorem Tended.unwritten (hs : s.Tended size) (hword : (s.mem.ring b).state = 0) : s.Unwritten b := by
  have hbit : flushBit s.mem b = 0 := by
    rw [flushBit, hword]
    rfl
  have hsingle := hs.owned.single b
  intro e he
  refine ⟨fun hmem => ?_, fun t hmem => ?_⟩
  · have hpos : 0 < s.mem.io.inFlight b := entriesOf_pos hmem he
    omega
  · have hpos := tokens_pos hmem he
    have hshare := share_le_sum (Pc.tokens b) s.pc t
    omega

omit [DecidableEq T] in
/-- A buffer that has not been submitted is not reset. -/
theorem Tended.unreset (hs : s.Tended size) (hunwritten : s.Unwritten b) (t : T) : ¬ (s.pc t).Resets b := by
  intro hreset
  obtain ⟨cqe, rest, hpc⟩ := hs.reaped t b hreset
  have hwf := hs.owned.wellFormed t
  rw [hpc] at hwf
  apply (hunwritten cqe.entry hwf).2 t
  rw [hpc]
  exact List.mem_cons_self

omit [Fintype T] [DecidableEq T] in
/-- The step submits another buffer. -/
theorem unsubmitted_run {t : T} {ok : Bool} (h : unsubmitted b s (.run t ok) = true) {b' : Fin L}
    {caller : FlushCaller L} {data_len offset : Usize} (hpc : s.pc t = .submitPush caller b' data_len offset) :
    b' ≠ b := by
  simpa [unsubmitted, hpc] using h

/-- Only a submission of `b` brings up a write of it. -/
theorem Unwritten.step (hunwritten : s.Unwritten b) (hs : s.Tended size)
    (hunsubmitted : unsubmitted b s a = true) (h : Threads.step options s a = some s') :
    s'.Unwritten b := by
  refine step_keeps_ring (P := fun mem pc => ∀ e : Sqe L, e.user_data = some b →
    e ∉ mem.io.entries ∧ ∀ t, e ∉ (pc t).taken.map Cqe.entry) h ?_ ?_ ?_
  · intro t c pc _ hentered e he
    refine ⟨(hunwritten e he).1, ?_⟩
    rw [Function.forall_update_iff s.pc (p := fun _ pc => e ∉ pc.taken.map Cqe.entry)]
    refine ⟨?_, fun t' _ => (hunwritten e he).2 t'⟩
    rw [hentered.taken]
    exact List.not_mem_nil
  · rintro t ok pc mem rfl hnext e he
    have hnone : ¬ (e ∈ mem.io.entries ∨ e ∈ pc.taken.map Cqe.entry) := by
      intro hafter
      obtain (hqueued | htaken) | ⟨caller, b', data_len, offset, hpc, hb', _⟩ :=
        next_entries (hs.owned.wellFormed t) (hs.owned.storedTaken t) hnext hafter
      · exact (hunwritten e he).1 hqueued
      · exact (hunwritten e he).2 t htaken
      · exact unsubmitted_run hunsubmitted hpc (Option.some.inj (hb'.symm.trans he))
    refine ⟨fun hmem => hnone (.inl hmem), ?_⟩
    rw [Function.forall_update_iff s.pc (p := fun _ pc => e ∉ pc.taken.map Cqe.entry)]
    exact ⟨fun hmem => hnone (.inr hmem), fun t' _ => (hunwritten e he).2 t'⟩
  · intro i result mem _ hmem e he
    obtain ⟨entry, hentry, _, rfl⟩ := BufferRing.complete_cases hmem
    refine ⟨fun hmem => (hunwritten e he).1 ?_, (hunwritten e he).2⟩
    exact (IoUring.entries_finish hentry).mem_iff.mp hmem

/-- `b` is sealed with this offset in its word, and these copies are on its record. -/
structure Holds (s : Threads T L) (b : Fin L) (offset : Usize) (copies : List (Usize × Slice)) : Prop where
  sealed : state_sealed (s.mem.ring b).state = true
  offset : state_offset (s.mem.ring b).state = offset
  copies : ∀ copy ∈ copies, copy ∈ (s.mem.ring b).filling.copied

/-- A sealed buffer keeps its bit, its offset and its bytes in every step that does not submit it. -/
theorem Holds.step {offset : Usize} {copies : List (Usize × Slice)} (hholds : s.Holds b offset copies)
    (hs : s.Tended size) (hunwritten : s.Unwritten b) (h : Threads.step options s a = some s') :
    s'.Holds b offset copies := by
  obtain ⟨t, c, pc, rfl, _, rfl⟩ | ⟨t, ok, pc, mem, rfl, hnext, rfl⟩ |
    ⟨i, result, mem, rfl, hmem, rfl⟩ := step_cases h
  · constructor
    · rw [note_mem]
      exact hholds.sealed
    · rw [note_mem]
      exact hholds.offset
    · rw [note_mem]
      exact hholds.copies
  · have hpc := hs.owned.wellFormed t
    have hreset := hs.unreset hunwritten t
    exact {
      sealed := next_stays_sealed hpc hreset hholds.sealed hnext
      offset := (next_keeps_offset (hs.contained.balanced b) hpc hreset hholds.sealed hnext).trans
        hholds.offset
      copies := fun copy hcopy => next_keeps_copies hreset hnext (hholds.copies copy hcopy) }
  · obtain ⟨e, _, _, rfl⟩ := BufferRing.complete_cases hmem
    exact ⟨hholds.sealed, hholds.offset, hholds.copies⟩

/-- As long as a flush of the buffer has begun, on a clear flush bit, whenever a `put` comes to set the bit,
a reset finds no writer and the writer count has room: `put` resets no buffer, and from any moment at which
the word of a buffer is 0 until the buffer is submitted, once it is sealed it stays sealed, with its offset
and every payload copied to it. -/
theorem manual_keeps_sealed [NeZero L] (hstore : options.io_instance.isSome) {s₀ : Threads T L}
    (h₀ : Reaches (Threads.step options) (fun s a => tended s a = true)
      (init (BufferRing.with_options options)) s₀) :
    (∀ t, (s₀.pc t).putReset = none) ∧
    ∀ b s₁ s₂, (s₀.mem.ring b).state = 0 →
      Reaches (Threads.step options) (fun s a => tended s a = true ∧ unsubmitted b s a = true) s₀ s₁ →
      state_sealed (s₁.mem.ring b).state = true →
      Reaches (Threads.step options) (fun s a => tended s a = true ∧ unsubmitted b s a = true) s₁ s₂ →
      state_sealed (s₂.mem.ring b).state = true ∧
        state_offset (s₂.mem.ring b).state = state_offset (s₁.mem.ring b).state ∧
        ∀ copy ∈ (s₁.mem.ring b).filling.copied,
          load (s₂.mem.ring b).buf.bytes (extent (range copy)) = copy.2.toList := by
  have hs₀ : s₀.Tended options.buffer_size := h₀.invariant (P := fun s => s.Tended options.buffer_size)
    (fun _ _ _ hs hok h => hs.step hstore hok h) (tended_init options)
  refine ⟨fun t => ?_, fun b s₁ s₂ hword h₁ hsealed h₂ => ?_⟩
  · have hreaped := hs₀.reaped t
    generalize s₀.pc t = p at hreaped
    cases p
    case resetState caller b =>
      obtain ⟨cqe, rest, hpc⟩ := hreaped b rfl
      rw [hpc]
      rfl
    all_goals rfl
  · obtain ⟨hs₁, hunwritten₁⟩ := h₁.invariant
      (P := fun s => s.Tended options.buffer_size ∧ s.Unwritten b)
      (fun _ _ _ hs hok h => ⟨hs.1.step hstore hok.1 h, hs.2.step hs.1 hok.2 h⟩)
      ⟨hs₀, hs₀.unwritten hword⟩
    obtain ⟨hs₂, _, hholds⟩ := h₂.invariant
      (P := fun s => s.Tended options.buffer_size ∧ s.Unwritten b ∧
        s.Holds b (state_offset (s₁.mem.ring b).state) (s₁.mem.ring b).filling.copied)
      (fun _ _ _ hs hok h => ⟨hs.1.step hstore hok.1 h, hs.2.1.step hs.1 hok.2 h,
        hs.2.2.step hs.1 hs.2.1 h⟩)
      ⟨hs₁, hunwritten₁, hsealed, rfl, fun _ hcopy => hcopy⟩
    exact ⟨hholds.sealed, hholds.offset, fun copy hcopy => (hs₂.laid b).copied copy (hholds.copies copy hcopy)⟩

end Steps

/-- `storeOptions` with the flushing left to the client. -/
def manualOptions : BufferRingOptions := { storeOptions with auto_flush := false }

/-- Thread 1 finds the buffer full and seals it under thread 0's reservation, begins its flush, and thread 0
copies its payload. -/
def sealAndFlush : List (Action (Fin 2)) :=
  List.flatten [
    [.call 0 (.take (zeros ONE_MEGABYTE_BLOCK)), .call 0 .current_buffer, .call 0 .reserve_space],
    steps 0 2, attempt 1 (zeros 1) 1 10, [.call 1 .finish, .call 1 .flush], steps 1 1, [.call 0 .put],
    steps 0 1]

theorem manual_keeps_sealed_sealAndFlush :
    ∃ s₁ s₂ : Threads (Fin 2) 1,
      Reaches (Threads.step manualOptions) (fun s a => tended s a = true ∧ unsubmitted 0 s a = true)
        (init (BufferRing.with_options manualOptions)) s₁ ∧
      Reaches (Threads.step manualOptions) (fun s a => tended s a = true ∧ unsubmitted 0 s a = true)
        s₁ s₂ ∧
      (s₁.mem.ring 0).filling.copied.length = 1 ∧ state_sealed (s₂.mem.ring 0).state = true ∧
      ∀ copy ∈ (s₁.mem.ring 0).filling.copied,
        load (s₂.mem.ring 0).buf.bytes (extent (range copy)) = copy.2.toList := by
  have hrun : (exec (Threads.step manualOptions)
      (fun s a => tended s a = true ∧ unsubmitted 0 s a = true) sealAndFlush
      (init (BufferRing.with_options manualOptions) : Threads (Fin 2) 1)).any
      (fun s₁ => state_sealed (s₁.mem.ring 0).state && (s₁.mem.ring 0).filling.copied.length == 1 &&
        (exec (Threads.step manualOptions) (fun s a => tended s a = true ∧ unsubmitted 0 s a = true)
          (steps 0 2) s₁).isSome) = true := by decide +kernel
  obtain ⟨s₁, h₁, hcheck⟩ := exists_of_exec hrun
  simp only [Bool.and_eq_true, beq_iff_eq] at hcheck
  obtain ⟨⟨hsealed, hcopied⟩, hsome⟩ := hcheck
  obtain ⟨s₂, hexec⟩ := Option.isSome_iff_exists.mp hsome
  have h₂ := exec_reaches hexec
  obtain ⟨hkept, _, hcopies⟩ := (manual_keeps_sealed rfl .refl).2 0 s₁ s₂ rfl h₁ hsealed h₂
  exact ⟨s₁, s₂, h₁, h₂, hcopied, hkept, hcopies⟩

/-- One thread fills the buffer; its next payload does not fit, so it seals the buffer, and sees no writer. -/
def fillAndReset : List (Action (Fin 1)) :=
  attempt 0 (zeros ONE_MEGABYTE_BLOCK) 2 2 ++ [.call 0 .finish] ++ attempt 0 (zeros 1) 1 11

/-- The buffer is full, sealed and was never submitted, and `put` resets it. -/
theorem put_resets_unsubmitted :
    ∃ s s' : Threads (Fin 1) 1,
      Reaches (Threads.step manualOptions) (fun _ _ => True)
        (init (BufferRing.with_options manualOptions)) s ∧
      (s.pc 0).putReset = some 0 ∧ state_sealed (s.mem.ring 0).state = true ∧
      state_offset (s.mem.ring 0).state = ONE_MEGABYTE_BLOCK ∧ s.submissions = [] ∧
      Threads.step manualOptions s (.run 0 true) = some s' ∧ (s'.mem.ring 0).state = 0 := by
  have hrun : (exec (Threads.step manualOptions) (fun _ _ => True) fillAndReset
      (init (BufferRing.with_options manualOptions) : Threads (Fin 1) 1)).any
      (fun s => (s.pc 0).putReset == some 0 && state_sealed (s.mem.ring 0).state &&
        state_offset (s.mem.ring 0).state == ONE_MEGABYTE_BLOCK && s.submissions.isEmpty &&
        (Threads.step manualOptions s (.run 0 true)).any fun s' => (s'.mem.ring 0).state == 0) = true := by
    decide +kernel
  obtain ⟨s, hreach, hcheck⟩ := exists_of_exec hrun
  simp only [Bool.and_eq_true, beq_iff_eq, List.isEmpty_iff] at hcheck
  obtain ⟨⟨⟨⟨hreset, hsealed⟩, hoffset⟩, hnone⟩, hnext⟩ := hcheck
  obtain ⟨s', hstep, hzero⟩ := (Option.any_eq_true _ _).mp hnext
  exact ⟨s, s', hreach, hreset, hsealed, hoffset, hnone, hstep, by simpa using hzero⟩

end Threads

end FlushRing
