import FlushRing.Threads.Ownership

open Transition

namespace FlushRing

variable {L : Nat}

theorem Entered.tokens {held : Option (Fin L)} {msg : Option Slice} {c : Call} {pc pc' : Pc L}
    (b : Fin L) (h : Entered held msg c pc pc') : pc'.tokens b = 0 := by
  cases h
  case put b' payload result => exact Pc.tokens_putEntry b _
  all_goals rfl

theorem Entered.taken {held : Option (Fin L)} {msg : Option Slice} {c : Call} {pc pc' : Pc L}
    (h : Entered held msg c pc pc') : pc'.taken = [] := by
  cases h
  case put b' payload result => exact Pc.taken_putEntry _
  all_goals rfl

/-- The completion a thread is acting on, with the buffer it takes it for. -/
def Pc.handling : Pc L → Option (Cqe L × Fin L)
  | .cqueRetry cqe b _ => some (cqe, b)
  | .cqueAddress cqe b _ => some (cqe, b)
  | .cqueSize cqe b _ _ => some (cqe, b)
  | .cqueSend cqe b _ _ _ => some (cqe, b)
  | .resetState (.check_cque cqe _) b => some (cqe, b)
  | _ => none

/-- The completion being handled is among those taken, and belongs to the buffer. -/
theorem Pc.handling_taken {pc : Pc L} {cqe : Cqe L} {b : Fin L}
    (h : pc.handling = some (cqe, b)) (hpc : pc.WellFormed) :
    cqe ∈ pc.taken ∧ cqe.user_data = some b := by
  unfold handling at h
  split at h
  all_goals try contradiction
  all_goals
    obtain ⟨rfl, rfl⟩ := Prod.mk.inj (Option.some.inj h)
    exact ⟨List.mem_cons_self, hpc⟩

namespace Threads

variable {T : Type}

/-- Every claim to a flush is covered by the flush bit, and every entry in flight or taken off the
queue is the one stored for its buffer's present filling. -/
structure Owned [Fintype T] (s : Threads T L) : Prop where
  wellFormed : ∀ t, (s.pc t).WellFormed
  entries : ∀ b e, (s.mem.ring b).sqe = some e → e.user_data = some b
  single : ∀ b, (∑ t, (s.pc t).tokens b) + s.mem.io.inFlight b ≤ flushBit s.mem b
  stored : ∀ e ∈ s.mem.io.entries, Stored s.mem e
  storedTaken : ∀ t, ∀ c ∈ (s.pc t).taken, Stored s.mem c.entry

/-- `flush`, called by a client or by `flush_current`, is the one that turns the flush bit on. -/
def flushFresh (s : Threads T L) : Action T → Bool
  | .run t _ =>
    match s.pc t with
    | .flushSet (.put _) _ => true
    | .flushSet _ b => !state_flush_in_progress (s.mem.ring b).state
    | _ => true
  | _ => true

/-- A flush that finds the bit on is one `put` has already claimed. -/
theorem flushFresh_run {s : Threads T L} {t : T} {ok : Bool} (h : flushFresh s (.run t ok) = true)
    {caller : FlushCaller L} {b : Fin L} (hpc : s.pc t = .flushSet caller b)
    (hset : flushBit s.mem b = 1) : ∃ call, caller = .put call := by
  cases caller with
  | put call => exact ⟨call, rfl⟩
  | flush_current =>
    simp [flushFresh, hpc] at h
    simp [flushBit, h] at hset
  | client =>
    simp [flushFresh, hpc] at h
    simp [flushBit, h] at hset

theorem entriesOf_pos {b : Fin L} {e : Sqe L} {entries : List (Sqe L)} (hmem : e ∈ entries)
    (he : e.user_data = some b) : 0 < entriesOf b entries :=
  List.countP_pos_iff.mpr ⟨e, hmem, by simpa using he⟩

/-- A taken completion of `b` is a token of `b`. -/
theorem tokens_pos {b : Fin L} {pc : Pc L} {e : Sqe L} (hmem : e ∈ pc.taken.map Cqe.entry)
    (he : e.user_data = some b) : 0 < pc.tokens b :=
  Nat.lt_of_lt_of_le (entriesOf_pos hmem he) (Nat.le_add_left _ _)

section Steps
variable [Fintype T] [DecidableEq T] {options : BufferRingOptions}

omit [DecidableEq T] in
theorem owned_init [NeZero L] : (init (BufferRing.with_options options) : Threads T L).Owned where
  wellFormed _ := trivial
  entries _ _ h := by cases h
  single b := by simp [init, Pc.tokens, Pc.owns, Pc.taken, BufferRing.with_options, IoUring.new,
    IoUring.inFlight, IoUring.entries, flushBit, FlushBuffer.new_buffer]
  stored e he := by cases he
  storedTaken t c hc := by cases hc

/-- A call that a client enters moves no claim. -/
theorem owned_call {s : Threads T L} (hs : s.Owned) {t : T} {c : Call} {pc : Pc L}
    (h : Entered (s.held t) (s.msg t) c (s.pc t) pc) :
    Owned { s.note t c with pc := Function.update s.pc t pc } where
  wellFormed := by
    rw [Function.forall_update_iff s.pc (p := fun _ pc => pc.WellFormed)]
    exact ⟨h.wellFormed, fun t' _ => hs.wellFormed t'⟩
  entries b e hsqe := by
    rw [note_mem] at hsqe
    exact hs.entries b e hsqe
  single b := by
    rw [note_mem]
    refine bound_step (hs.single b) ?_
    rw [h.tokens b]
    omega
  stored e he := by
    rw [note_mem] at he ⊢
    exact hs.stored e he
  storedTaken := by
    rw [note_mem]
    rw [Function.forall_update_iff s.pc (p := fun _ pc => ∀ c ∈ pc.taken, Stored s.mem c.entry)]
    refine ⟨fun cqe hcqe => ?_, fun t' _ => hs.storedTaken t'⟩
    rw [h.taken] at hcqe
    cases hcqe

omit [DecidableEq T] in
/-- A completion moves an entry from the kernel to the unread ones. -/
theorem owned_complete {s : Threads T L} (hs : s.Owned) {i : Nat} {result : Int} {mem : BufferRing L}
    (h : s.mem.complete i result = some mem) : Owned { s with mem } := by
  obtain ⟨e, he, _, rfl⟩ := BufferRing.complete_cases h
  have hperm : (s.mem.io.finish i
      { cqe := { entry := e, result }, file := s.mem.fileAfter e result }).entries.Perm s.mem.io.entries :=
    IoUring.entries_finish he
  exact {
    wellFormed := hs.wellFormed
    entries := hs.entries
    single := fun b => by
      have hcount := hperm.countP_eq (·.user_data = some b)
      exact (Nat.add_le_add_left hcount.le _).trans (hs.single b)
    stored := fun e' he' => hs.stored e' (hperm.mem_iff.mp he')
    storedTaken := hs.storedTaken }

/-- After a step the entries still in flight or taken are stored for the present filling: only a
submission replaces a stored entry and only a reset ends a filling, and either is made by a thread
that holds the one token of its buffer. -/
theorem owned_stored {s : Threads T L} (hs : s.Owned) {t : T} {ok : Bool} {pc : Pc L}
    {mem : BufferRing L} (h : next options ok s.mem (s.pc t) = some (pc, mem))
    (hsingle : ∀ b, (∑ t', (Function.update s.pc t pc t').tokens b) + mem.io.inFlight b ≤
      flushBit mem b)
    {e : Sqe L} (hafter : e ∈ mem.io.entries ∨
      ∃ t', e ∈ (Function.update s.pc t pc t').taken.map Cqe.entry) : Stored mem e := by
  intro b hb
  by_cases hreset : (s.pc t).Resets b
  · -- the reset clears the flush bit, so no entry of `b` is left
    exfalso
    have hbit : flushBit mem b = 0 := by
      rw [flushBit, next_flushing b h (hs.wellFormed t)]
      cases hpc : s.pc t
      all_goals rw [hpc] at hreset
      case resetState caller b' =>
        obtain rfl : b' = b := hreset
        simp [Pc.flushingAfter]
      all_goals cases hreset
    have hzero := hsingle b
    rw [hbit] at hzero
    obtain he | ⟨t', he⟩ := hafter
    · have hpos : 0 < mem.io.inFlight b := entriesOf_pos he hb
      omega
    · have hpos := tokens_pos he hb
      have hle := share_le_sum (Pc.tokens b) (Function.update s.pc t pc) t'
      omega
  · have hnumber := next_number b h hreset
    have hbefore : (e ∈ s.mem.io.entries ∨ ∃ t', e ∈ (s.pc t').taken.map Cqe.entry) ∨
        ∃ caller b data_len offset, s.pc t = .submitPush caller b data_len offset ∧
          e.user_data = some b ∧ (mem.ring b).sqe = some e ∧
          e.filling = (s.mem.ring b).filling.number := by
      obtain he | ⟨t', he⟩ := hafter
      · exact (next_entries (hs.wellFormed t) (hs.storedTaken t) h (.inl he)).imp_left
          (Or.imp_right fun htaken => ⟨t, htaken⟩)
      · obtain ⟨rfl, hnew⟩ | ⟨_, hold⟩ := update_cases (p := fun pc => e ∈ pc.taken.map Cqe.entry) he
        · exact (next_entries (hs.wellFormed t') (hs.storedTaken t') h (.inr hnew)).imp_left
            (Or.imp_right fun htaken => ⟨t', htaken⟩)
        · exact .inl (.inr ⟨t', hold⟩)
    obtain hbefore | ⟨caller, b', data_len, offset, hpc, hb', hsqe, hfilling⟩ := hbefore
    · have hstored : Stored s.mem e := by
        obtain he | ⟨t', he⟩ := hbefore
        · exact hs.stored e he
        · obtain ⟨c, hc, rfl⟩ := List.mem_map.mp he
          exact hs.storedTaken t' c hc
      obtain ⟨hsqe, hfilling⟩ := hstored b hb
      obtain hkeep | ⟨caller, data_len, offset, _, hpc, _⟩ := next_sqe b h
      · exact ⟨hkeep.trans hsqe, hfilling.trans hnumber.symm⟩
      · -- the submitting thread and the old entry would be two tokens
        exfalso
        have hone : (s.pc t).tokens b = 1 := by simp [hpc, Pc.tokens, Pc.owns, Pc.taken]
        have hle := (hs.single b).trans (flushBit_le_one s.mem b)
        obtain he | ⟨t', he⟩ := hbefore
        · have hpos : 0 < s.mem.io.inFlight b := entriesOf_pos he hb
          have hshare := share_le_sum (Pc.tokens b) s.pc t
          omega
        · have hpos := tokens_pos he hb
          have hne : t ≠ t' := by
            rintro rfl
            rw [hpc] at he
            cases he
          have hpair := pair_le_sum (Pc.tokens b) s.pc hne
          omega
    · obtain rfl := Option.some.inj (hb.symm.trans hb')
      exact ⟨hsqe, hfilling.trans hnumber.symm⟩

/-- A step passes claims to a flush on and makes no second one. -/
theorem owned_run {s : Threads T L} (hs : s.Owned) {t : T} {ok : Bool} {pc : Pc L}
    {mem : BufferRing L} (hok : flushFresh s (.run t ok) = true)
    (h : next options ok s.mem (s.pc t) = some (pc, mem)) :
    Owned { s.record (s.pc t) pc with mem, pc := Function.update s.pc t pc } := by
  have hsingle (b : Fin L) : (∑ t', (Function.update s.pc t pc t').tokens b) +
      mem.io.inFlight b ≤ flushBit mem b :=
    bound_step (hs.single b) (next_tokens b (hs.wellFormed t) hs.entries
      (fun _ hpc hset => flushFresh_run hok hpc hset) h)
  exact {
    wellFormed := by
      rw [Function.forall_update_iff s.pc (p := fun _ pc => pc.WellFormed)]
      exact ⟨next_wellFormed h (hs.wellFormed t), fun t' _ => hs.wellFormed t'⟩
    entries := fun b e hsqe => by
      obtain hkeep | ⟨_, _, _, e', _, hnew, hdata, _⟩ := next_sqe b h
      · exact hs.entries b e (hkeep.symm.trans hsqe)
      · obtain rfl := Option.some.inj (hnew.symm.trans hsqe)
        exact hdata
    single := hsingle
    stored := fun e he => owned_stored hs h hsingle (.inl he)
    storedTaken := fun t' c hc =>
      owned_stored hs h hsingle (.inr ⟨t', List.mem_map_of_mem hc⟩) }

/-- Every step that meets the condition keeps one claim to a flush. -/
theorem owned_step {s s' : Threads T L} {a : Action T} (hs : s.Owned) (hok : flushFresh s a = true)
    (h : step options s a = some s') : s'.Owned := by
  refine step_keeps h ?_ ?_ ?_
  · intro t c pc _ hentry
    exact owned_call hs (entry_entered hentry)
  · rintro t ok pc mem rfl hnext
    exact owned_run hs hok hnext
  · intro i result mem _ hmem
    exact owned_complete hs hmem

/-- As long as `flush` is only called on buffers whose flush bit is off, a buffer never has two
writes in flight, and a completion handled by `check_cque` is one of the buffer's present filling. -/
theorem one_write_in_flight [NeZero L] {s : Threads T L}
    (h : Reaches (step options) (fun s a => flushFresh s a = true)
      (init (BufferRing.with_options options)) s) :
    (∀ b, s.mem.io.inFlight b ≤ 1) ∧
      ∀ t cqe b, (s.pc t).handling = some (cqe, b) →
        cqe.entry.filling = (s.mem.ring b).filling.number := by
  have hs : s.Owned := h.invariant (fun s a s' => owned_step) owned_init
  refine ⟨fun b => ?_, fun t cqe b hhandling => ?_⟩
  · have hle := (hs.single b).trans (flushBit_le_one s.mem b)
    omega
  · obtain ⟨htaken, hdata⟩ := Pc.handling_taken hhandling (hs.wellFormed t)
    exact (hs.storedTaken t cqe htaken b hdata).2

end Steps

/-- One thread logs four bytes and calls `flush_current`; the submitted write is in flight. -/
def flushOnce : List (Action (Fin 1)) :=
  attempt 0 (zeros 4) 2 2 ++ [.call 0 .finish, .call 0 .flush_current] ++ steps 0 15

theorem one_write_in_flight_flushOnce :
    ∃ s : Threads (Fin 1) 1,
      Reaches (step storeOptions) (fun s a => flushFresh s a = true)
        (init (BufferRing.with_options storeOptions)) s ∧
      s.mem.io.inFlight 0 = 1 ∧ (∀ b, s.mem.io.inFlight b ≤ 1) := by
  have hrun : (exec (step storeOptions) (fun s a => flushFresh s a = true) flushOnce
      (init (BufferRing.with_options storeOptions) : Threads (Fin 1) 1)).any
      (fun s => s.mem.io.inFlight 0 == 1) = true := by decide +kernel
  obtain ⟨s, hreach, hone⟩ := exists_of_exec hrun
  exact ⟨s, hreach, by simpa using hone, (one_write_in_flight hreach).1⟩

/-- With one buffer the rotation of `flush_current` fails and leaves the submitted buffer current; a
second `flush_current` submits it again. -/
theorem flush_current_submits_twice :
    ∃ s : Threads (Fin 1) 1,
      Reaches (step storeOptions) (fun _ _ => True)
        (init (BufferRing.with_options storeOptions)) s ∧ s.mem.io.inFlight 0 = 2 := by
  have hrun : (exec (step storeOptions) (fun _ _ => True)
      (flushOnce ++ [.call 0 .flush_current] ++ steps 0 10)
      (init (BufferRing.with_options storeOptions) : Threads (Fin 1) 1)).any
      (fun s => s.mem.io.inFlight 0 == 2) = true := by decide +kernel
  obtain ⟨s, hreach, htwo⟩ := exists_of_exec hrun
  exact ⟨s, hreach, by simpa using htwo⟩

end Threads

end FlushRing
