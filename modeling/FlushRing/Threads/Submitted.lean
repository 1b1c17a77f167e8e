import FlushRing.Client.Moves
import FlushRing.Threads.Contents

/-! A submitted buffer, until the completion of its write has been acted on: `submit` asks that the memory it
hands to the kernel stays as it is for that long. -/

open Transition

namespace FlushRing

variable {L : Nat}

/-- A submission queues its own entry, if any. -/
theorem BufferRing.submit_raw_grows (mem : BufferRing L) (store : QuikIO) (ok : Bool) (b : Fin L) (data_len offset : Usize) :
    (∀ e ∈ mem.io.pushed, e ∈ (mem.submit_raw store ok b data_len offset).io.pushed) ∧
      (mem.submit_raw store ok b data_len offset).io.completed = mem.io.completed ∧
      (mem.submit_raw store ok b data_len offset).io.cq = mem.io.cq := by
  obtain ⟨_, hraw⟩ | ⟨io, hpush, hio, _⟩ := mem.submit_raw_cases store ok b data_len offset
  · rw [hraw]
    exact ⟨fun _ => id, rfl, rfl⟩
  · obtain ⟨_, rfl⟩ := IoUring.push_eq_some hpush
    rw [hio, IoUring.submit_pushed, IoUring.submit_completed, IoUring.submit_cq]
    exact ⟨fun _ => List.mem_append_left _, rfl, rfl⟩

section Steps
variable {options : BufferRingOptions} {ok : Bool} {mem mem' : BufferRing L} {pc pc' : Pc L}

/-- The histories of the queues grow. -/
theorem next_grows (h : next options ok mem pc = some (pc', mem')) :
    (∀ e ∈ mem.io.pushed, e ∈ mem'.io.pushed) ∧ mem'.io.completed = mem.io.completed := by
  rw [next_io h]
  cases pc
  case submitPush caller b data_len offset =>
    simp only [Pc.ioAfter]
    split
    next store _ =>
      obtain ⟨hpushed, hcompleted, _⟩ := mem.submit_raw_grows store ok b data_len offset
      exact ⟨hpushed, hcompleted⟩
    next => exact ⟨fun _ => id, rfl⟩
  case cqueRetry cqe b rest =>
    obtain ⟨hpushed, hcompleted, _⟩ := Client.retry_grows mem ok b
    exact ⟨hpushed, hcompleted⟩
  all_goals exact ⟨fun _ => id, rfl⟩

/-- A reset begins the next filling. -/
theorem next_number_reset {b : Fin L} (hreset : pc.Resets b) (h : next options ok mem pc = some (pc', mem')) :
    (mem'.ring b).filling.number = (mem.ring b).filling.number + 1 := by
  rw [next_filling b h]
  cases pc
  case resetState caller b' => exact congrArg Filling.number (if_pos hreset)
  all_goals cases hreset

/-- The flush bit of `b` is turned off by a reset only. -/
theorem next_stays_flushing {b : Fin L} (hpc : pc.WellFormed) (hreset : ¬ pc.Resets b)
    (hset : state_flush_in_progress (mem.ring b).state = true) (h : next options ok mem pc = some (pc', mem')) :
    state_flush_in_progress (mem'.ring b).state = true := by
  rw [next_flushing b h hpc, hset]
  cases pc
  case resetState caller b' =>
    have hne : b' ≠ b := hreset
    simp [Pc.flushingAfter, hne]
  all_goals rfl

/-- A completion that is unread or with `check_cque` after a step was so before it. -/
theorem next_unread {cqe : Cqe L} (h : next options ok mem pc = some (pc', mem'))
    (hcqe : cqe ∈ mem'.io.cq ∨ cqe ∈ pc'.taken) : cqe ∈ mem.io.cq ∨ cqe ∈ pc.taken := by
  rw [next_io h] at hcqe
  cases next_advances h
  case submit_pushed caller b data_len offset =>
    rw [Pc.taken_afterFlush] at hcqe
    simp only [Pc.ioAfter] at hcqe
    split at hcqe
    next store _ =>
      rw [(mem.submit_raw_grows store ok b data_len offset).2.2] at hcqe
      exact hcqe
    next => exact hcqe
  case cque_empty hempty =>
    obtain hcqe | hcqe := hcqe
    · cases hcqe
    · cases hcqe
  case cque_drained =>
    obtain hcqe | hcqe := hcqe
    · cases hcqe
    · exact .inl hcqe
  case cque_takes c rest => exact hcqe.imp_right Pc.mem_taken_cqueEntry
  case cque_retried c b rest =>
    have hcq : ((Pc.cqueRetry c b rest).ioAfter options ok mem).cq = mem.io.cq := (Client.retry_grows mem ok b).2.2
    rw [hcq] at hcqe
    exact hcqe.imp_right (List.mem_cons_of_mem _)
  case state_reset caller b => exact hcqe.imp_right (Pc.mem_taken_resetAddress b caller)
  case address_reset caller b =>
    rw [Pc.taken_afterReset] at hcqe
    exact hcqe
  case flush_won =>
    rw [Pc.taken_afterOwning] at hcqe
    exact hcqe
  case rotated_before | rotate_exhausted | rotate_stored =>
    rw [Pc.taken_afterRotate] at hcqe
    exact hcqe
  all_goals exact hcqe

/-- An entry in flight or taken after a step was so before it, or is the one a submission has just built. -/
theorem next_pushes {e : Sqe L} (hpc : pc.WellFormed) (hstored : ∀ c ∈ pc.taken, Stored mem c.entry)
    (h : next options ok mem pc = some (pc', mem'))
    (he : e ∈ mem'.io.entries ∨ e ∈ pc'.taken.map Cqe.entry) :
    (e ∈ mem.io.entries ∨ e ∈ pc.taken.map Cqe.entry) ∨
      ∃ caller b data_len offset store, pc = .submitPush caller b data_len offset ∧
        e = mem.writeEntry store b data_len offset ∧ e ∈ mem'.io.pushed := by
  obtain hbefore | ⟨caller, b, data_len, offset, rfl, _, hsqe, _⟩ := next_entries hpc hstored h he
  · exact .inl hbefore
  · have hmem := next_mem h
    simp only [Pc.memAfter] at hmem
    split at hmem
    next store _ =>
      obtain ⟨_, hraw⟩ | ⟨io, hpush, hio, hnew, _⟩ := mem.submit_raw_cases store ok b data_len offset
      · cases next_advances h
        rw [hmem, hraw, Pc.taken_afterFlush] at he
        exact .inl he
      · rw [hmem, hnew, Option.some.injEq] at hsqe
        refine .inr ⟨caller, b, data_len, offset, store, rfl, hsqe.symm, ?_⟩
        obtain ⟨_, rfl⟩ := IoUring.push_eq_some hpush
        rw [hmem, hio, IoUring.submit_pushed, ← hsqe]
        exact List.mem_append_right _ (List.mem_singleton_self _)
    next =>
      cases next_advances h
      rw [hmem, Pc.taken_afterFlush] at he
      exact .inl he

end Steps

section Flying
variable {T : Type}

/-- An entry not yet acted on: queued, in the kernel, unread, or with a thread in `check_cque`. -/
def Flying (mem : BufferRing L) (pc : T → Pc L) (e : Sqe L) : Prop :=
  e ∈ mem.io.entries ∨ ∃ t, e ∈ (pc t).taken.map Cqe.entry

/-- A completion that `check_cque` has not acted on yet. -/
def Unread (mem : BufferRing L) (pc : T → Pc L) (cqe : Cqe L) : Prop :=
  cqe ∈ mem.io.cq ∨ ∃ t, cqe ∈ (pc t).taken

/-- A completion not acted on is an entry not acted on. -/
theorem Unread.flying {mem : BufferRing L} {pc : T → Pc L} {cqe : Cqe L} (h : Unread mem pc cqe) :
    Flying mem pc cqe.entry := by
  obtain h | ⟨t, h⟩ := h
  · exact .inl (List.mem_append_right _ (List.mem_map_of_mem h))
  · exact .inr ⟨t, List.mem_map_of_mem h⟩

/-- A call that a client enters takes no completion. -/
theorem Entered.flying [DecidableEq T] {mem : BufferRing L} {pc : T → Pc L} {t : T} {held : Option (Fin L)}
    {msg : Option Slice} {c : Call} {pc' : Pc L} (h : Entered held msg c (pc t) pc') {e : Sqe L}
    (he : Flying mem (Function.update pc t pc') e) : Flying mem pc e := by
  refine he.imp_right ?_
  rintro ⟨t', ht'⟩
  obtain ⟨_, hnew⟩ | ⟨_, hold⟩ := Threads.update_cases (p := fun pc => e ∈ pc.taken.map Cqe.entry) ht'
  · rw [h.taken] at hnew
    cases hnew
  · exact ⟨t', hold⟩

/-- A call that a client enters reads no completion. -/
theorem Entered.unread [DecidableEq T] {mem : BufferRing L} {pc : T → Pc L} {t : T} {held : Option (Fin L)}
    {msg : Option Slice} {c : Call} {pc' : Pc L} (h : Entered held msg c (pc t) pc') {cqe : Cqe L}
    (hcqe : Unread mem (Function.update pc t pc') cqe) : Unread mem pc cqe := by
  refine hcqe.imp_right ?_
  rintro ⟨t', ht'⟩
  obtain ⟨_, hnew⟩ | ⟨_, hold⟩ := Threads.update_cases (p := fun pc => cqe ∈ pc.taken) ht'
  · rw [h.taken] at hnew
    cases hnew
  · exact ⟨t', hold⟩

end Flying

namespace Threads

variable {T : Type} [Fintype T]

section Sound
variable {options : BufferRingOptions} {s : Threads T L} {t : T} {ok : Bool} {pc : Pc L} {mem : BufferRing L}
variable {b : Fin L} {e : Sqe L} {cqe : Cqe L}

/-- A buffer with an entry in flight is being flushed. -/
theorem Sound.flying_flush (hs : s.Sound) (he : Flying s.mem s.pc e) (hb : e.user_data = some b) :
    state_flush_in_progress (s.mem.ring b).state = true := by
  obtain he | ⟨t, he⟩ := he
  · have hpos : 0 < s.mem.io.inFlight b := entriesOf_pos he hb
    have hsingle := hs.owned.single b
    cases hflush : state_flush_in_progress (s.mem.ring b).state with
    | true => rfl
    | false =>
      have hzero : flushBit s.mem b = 0 := by
        rw [flushBit, hflush]
        rfl
      omega
  · exact hs.flush_owned (tokens_pos he hb)

/-- The entry in flight is the one stored in its buffer, of the present filling. -/
theorem Sound.flying_stored (hs : s.Sound) (he : Flying s.mem s.pc e) (hb : e.user_data = some b) :
    (s.mem.ring b).sqe = some e ∧ e.filling = (s.mem.ring b).filling.number := by
  obtain he | ⟨t, he⟩ := he
  · exact hs.owned.stored e he b hb
  · obtain ⟨c, hc, rfl⟩ := List.mem_map.mp he
    exact hs.owned.storedTaken t c hc b hb

/-- A write in the kernel and a completion not acted on belong to different buffers. -/
theorem Sound.kernel_ne_unread (hs : s.Sound) {c : Fin L} (he : e ∈ s.mem.io.kernel)
    (hcqe : Unread s.mem s.pc cqe) (hb : e.user_data = some b) (hc : cqe.user_data = some c) : b ≠ c := by
  rintro rfl
  have hsingle := (hs.owned.single b).trans (flushBit_le_one s.mem b)
  have hcount : s.mem.io.inFlight b = entriesOf b s.mem.io.sq + entriesOf b s.mem.io.kernel +
      entriesOf b (s.mem.io.cq.map Cqe.entry) := by
    rw [IoUring.inFlight, IoUring.entries, List.countP_append, List.countP_append]
    rfl
  have hkernel : 0 < entriesOf b s.mem.io.kernel := entriesOf_pos he hb
  obtain hcqe | ⟨t, hcqe⟩ := hcqe
  · have hunread : 0 < entriesOf b (s.mem.io.cq.map Cqe.entry) := entriesOf_pos (List.mem_map_of_mem hcqe) hc
    omega
  · have htokens := tokens_pos (List.mem_map_of_mem (f := Cqe.entry) hcqe) hc
    have hle := share_le_sum (Pc.tokens b) s.pc t
    omega

variable [DecidableEq T]

/-- An entry in flight after a step was so before or has just been submitted. -/
theorem Sound.flying_run (hs : s.Sound) (h : next options ok s.mem (s.pc t) = some (pc, mem))
    (he : Flying mem (Function.update s.pc t pc) e) :
    Flying s.mem s.pc e ∨ ∃ caller b data_len offset store, s.pc t = .submitPush caller b data_len offset ∧
      e = s.mem.writeEntry store b data_len offset ∧ e ∈ mem.io.pushed := by
  have hnew (he : e ∈ mem.io.entries ∨ e ∈ pc.taken.map Cqe.entry) :=
    (next_pushes (hs.owned.wellFormed t) (hs.owned.storedTaken t) h he).imp_left
      (Or.imp_right fun htaken => (⟨t, htaken⟩ : ∃ t, e ∈ (s.pc t).taken.map Cqe.entry))
  obtain he | ⟨t', he⟩ := he
  · exact hnew (.inl he)
  · obtain ⟨_, he⟩ | ⟨_, hold⟩ := update_cases (p := fun pc => e ∈ pc.taken.map Cqe.entry) he
    · exact hnew (.inr he)
    · exact .inl (.inr ⟨t', hold⟩)

omit [Fintype T] in
/-- No step of a thread completes a write. -/
theorem unread_run (h : next options ok s.mem (s.pc t) = some (pc, mem))
    (hcqe : Unread mem (Function.update s.pc t pc) cqe) : Unread s.mem s.pc cqe := by
  obtain hcqe | ⟨t', hcqe⟩ := hcqe
  · exact (next_unread h (.inl hcqe)).imp_right fun htaken => ⟨t, htaken⟩
  · obtain ⟨_, hnew⟩ | ⟨_, hold⟩ := update_cases (p := fun pc => cqe ∈ pc.taken) hcqe
    · exact (next_unread h (.inr hnew)).imp_right fun htaken => ⟨t, htaken⟩
    · exact .inr ⟨t', hold⟩

/-- The buffer is still being flushed as it stood in its `n`-th filling, or that filling has ended. -/
def Lent (x : FlushBuffer L) (n : Nat) (y : FlushBuffer L) : Prop :=
  (y.filling.number = n ∧ state_flush_in_progress y.state = true ∧ x.Still y) ∨ n < y.filling.number

omit [DecidableEq T] in
/-- A step leaves the data of a lent buffer alone. -/
theorem Sound.lent_run (hs : s.Sound) {x : FlushBuffer L} {n : Nat} (hlent : Lent x n (s.mem.ring b))
    (h : next options ok s.mem (s.pc t) = some (pc, mem)) : Lent x n (mem.ring b) := by
  by_cases hreset : (s.pc t).Resets b
  · right
    rw [next_number_reset hreset h]
    exact Nat.lt_succ_of_le (hlent.elim (fun hflush => hflush.1.ge) Nat.le_of_lt)
  · have hnumber := next_number b h hreset
    obtain ⟨hsame, hflush, hstill⟩ | hlt := hlent
    · refine .inl ⟨hnumber.trans hsame, ?_, hstill.trans (hs.still hflush hreset h)⟩
      exact next_stays_flushing (hs.owned.wellFormed t) hreset hflush h
    · right
      rw [hnumber]
      exact hlt

end Sound

section Run
variable [DecidableEq T] {options : BufferRingOptions} {s s' : Threads T L} {a : Action T} {b : Fin L} {e : Sqe L}

/-- A lent buffer stays as it is until it is reset. -/
theorem Sound.lent_step (hs : s.Sound) {x : FlushBuffer L} {n : Nat} (hlent : Lent x n (s.mem.ring b))
    (h : Threads.step options s a = some s') : Lent x n (s'.mem.ring b) := by
  obtain ⟨t, c, pc, rfl, _, rfl⟩ | ⟨t, ok, pc, mem, rfl, hnext, rfl⟩ |
    ⟨i, result, mem, rfl, hmem, rfl⟩ := step_cases h
  · rw [← note_mem s t c] at hlent
    exact hlent
  · exact hs.lent_run hlent hnext
  · obtain ⟨e, _, _, rfl⟩ := BufferRing.complete_cases hmem
    exact hlent

/-- As long as `flush_current` seals only open buffers without writers, no buffer is reset under a call that is
deciding on it and the writer count has room, the memory of a submitted buffer stays as it is while its
write is not acted on: at any later time the buffer holds the same data, or it has been reset and the write
is in flight no more. -/
theorem submitted_unmodified [NeZero L]
    (h : Reaches (Threads.step options)
      (fun s a => seizesOpen s a = true ∧ settled s a = true ∧ roomy s a = true)
      (init (BufferRing.with_options options)) s)
    (he : Flying s.mem s.pc e) (hb : e.user_data = some b)
    (h' : Reaches (Threads.step options)
      (fun s a => seizesOpen s a = true ∧ settled s a = true ∧ roomy s a = true) s s') :
    ((s'.mem.ring b).filling.number = e.filling ∧ (s.mem.ring b).Still (s'.mem.ring b)) ∨
      (e.filling < (s'.mem.ring b).filling.number ∧ ¬ Flying s'.mem s'.pc e) := by
  have hs : s.Sound := h.invariant
    (fun s a s' hs hok => hs.step hok.2.2 hok.2.1 hok.1) (sound_init options)
  have hlent : Lent (s.mem.ring b) e.filling (s.mem.ring b) :=
    .inl ⟨(hs.flying_stored he hb).2.symm, hs.flying_flush he hb, rfl, rfl, rfl⟩
  obtain ⟨hs', hlent'⟩ := h'.invariant (P := fun s' => s'.Sound ∧ Lent (s.mem.ring b) e.filling (s'.mem.ring b))
    (fun _ _ _ hs hok h => ⟨hs.1.step hok.2.2 hok.2.1 hok.1 h, hs.1.lent_step hs.2 h⟩) ⟨hs, hlent⟩
  refine hlent'.imp (fun hflush => ⟨hflush.1, hflush.2.2⟩) fun hlt => ⟨hlt, fun he' => ?_⟩
  exact hlt.ne (hs'.flying_stored he' hb).2

end Run

/-- The write that `flushAlone` is about to submit is submitted. -/
def flushSubmitted : List (Action (Fin 1)) := flushAlone ++ steps 0 1

/-- It is completed, and the thread resets the buffer. -/
def completeAlone : List (Action (Fin 1)) :=
  steps 0 5 ++ [.complete 0 4096, .call 0 .check_cque] ++ steps 0 3

theorem submitted_unmodified_flushSubmitted :
    ∃ (s s' : Threads (Fin 1) 1) (e : Sqe 1),
      Reaches (Threads.step storeOptions)
        (fun s a => seizesOpen s a = true ∧ settled s a = true ∧ roomy s a = true)
        (init (BufferRing.with_options storeOptions)) s ∧
      Flying s.mem s.pc e ∧ e.user_data = some 0 ∧
      Reaches (Threads.step storeOptions)
        (fun s a => seizesOpen s a = true ∧ settled s a = true ∧ roomy s a = true) s s' ∧
      (s'.mem.ring 0).filling.number = 1 ∧ ¬ Flying s'.mem s'.pc e := by
  have hrun : (exec (Threads.step storeOptions)
      (fun s a => seizesOpen s a = true ∧ settled s a = true ∧ roomy s a = true) flushSubmitted
      (init (BufferRing.with_options storeOptions) : Threads (Fin 1) 1)).any
      (fun s => (s.mem.io.kernel.any fun e => e.user_data == some 0 && e.filling == 0) &&
        (exec (Threads.step storeOptions)
          (fun s a => seizesOpen s a = true ∧ settled s a = true ∧ roomy s a = true) completeAlone s).any
          fun s' => (s'.mem.ring 0).filling.number == 1) = true := by
    decide +kernel
  obtain ⟨s, h, hcheck⟩ := exists_of_exec hrun
  rw [Bool.and_eq_true, List.any_eq_true] at hcheck
  obtain ⟨⟨e, he, hentry⟩, hlater⟩ := hcheck
  obtain ⟨s', h', hreset⟩ := exists_of_exec hlater
  simp only [Bool.and_eq_true, beq_iff_eq] at hentry hreset
  have hflying : Flying s.mem s.pc e := .inl (List.mem_append_left _ (List.mem_append_right _ he))
  refine ⟨s, s', e, h, hflying, hentry.1, h', hreset, ?_⟩
  obtain ⟨hsame, _⟩ | ⟨_, hgone⟩ := submitted_unmodified h hflying hentry.1 h'
  · rw [hreset, hentry.2] at hsame
    cases hsame
  · exact hgone

end Threads

end FlushRing
