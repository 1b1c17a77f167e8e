import FlushRing.Threads.Effects

/-! The flush bit as a lock: whoever turns it on owns the buffer until the buffer is reset, and hands
ownership to the write it submits and then to the thread that reads the completion. -/

namespace FlushRing

variable {L : Nat}

/-- Entries of one buffer in a list. -/
def entriesOf (b : Fin L) (entries : List (Sqe L)) : Nat := entries.countP (·.user_data = some b)

@[simp] theorem entriesOf_nil (b : Fin L) : entriesOf b [] = 0 := rfl

theorem entriesOf_cons (b : Fin L) (e : Sqe L) (rest : List (Sqe L)) :
    entriesOf b (e :: rest) = entriesOf b rest + if e.user_data = some b then 1 else 0 := by
  simp [entriesOf, List.countP_cons]

/-- The flush bit of `b` as a number. -/
def flushBit (mem : BufferRing L) (b : Fin L) : Nat :=
  (state_flush_in_progress (mem.ring b).state).toNat

theorem flushBit_le_one (mem : BufferRing L) (b : Fin L) : flushBit mem b ≤ 1 :=
  Bool.toNat_le _

namespace Pc

/-- Completions a thread has taken off the queue and not yet acted on. -/
def taken : Pc L → List (Cqe L)
  | .cqueNext cqes => cqes
  | .cqueRetry cqe _ rest => cqe :: rest
  | .cqueAddress cqe _ rest => cqe :: rest
  | .cqueSize cqe _ rest _ => cqe :: rest
  | .cqueSend cqe _ rest _ _ => cqe :: rest
  | .resetState (.check_cque cqe rest) _ => cqe :: rest
  | .resetAddress (.check_cque _ rest) _ => rest
  | _ => []

/-- The thread has turned the flush bit of `b` on and has not yet submitted or reset the buffer. -/
def owns (b : Fin L) : Pc L → Nat
  | .flushSet (.put _) b' => if b' = b then 1 else 0
  | .submitData _ b' => if b' = b then 1 else 0
  | .submitOffset _ b' _ => if b' = b then 1 else 0
  | .submitPush _ b' _ _ => if b' = b then 1 else 0
  | .resetState (.put _) b' => if b' = b then 1 else 0
  | .resetState (.flush _) b' => if b' = b then 1 else 0
  | _ => 0

/-- Claims to the flush of `b`: ownership of the bit, and completions of `b` in hand. -/
def tokens (b : Fin L) (pc : Pc L) : Nat :=
  pc.owns b + entriesOf b (pc.taken.map Cqe.entry)

section Continuations
variable (b b' : Fin L)

@[simp] theorem tokens_afterRotate (caller : RotateCaller L) : (afterRotate caller).tokens b = 0 := by
  cases caller <;> rfl

@[simp] theorem tokens_afterFlush (caller : FlushCaller L) : (afterFlush b' caller).tokens b = 0 := by
  cases caller <;> rfl

theorem tokens_afterReset (caller : ResetCaller L) :
    (afterReset b' caller).tokens b = (resetAddress caller b').tokens b := by
  cases caller with
  | put call => rfl
  | flush caller => exact tokens_afterFlush b b' caller
  | check_cque cqe rest => rfl

/-- Winning the flush bit is a claim to the flush. -/
theorem tokens_afterOwning (options : BufferRingOptions) (call : PutCall L) :
    (afterOwning options call).tokens b = if call.current = b then 1 else 0 := by
  unfold afterOwning
  split
  · split <;> rfl
  · rfl

@[simp] theorem tokens_putEntry (call : PutCall L) : (putEntry call).tokens b = 0 := by
  unfold putEntry
  split <;> rfl

/-- Taking up a completion keeps the claim it stands for. -/
theorem tokens_cqueEntry (options : BufferRingOptions) (cqe : Cqe L) (rest : List (Cqe L)) :
    (cqueEntry options cqe rest).tokens b = (cqueNext (cqe :: rest)).tokens b := by
  unfold cqueEntry
  split
  next hnone =>
    have hnone' : cqe.entry.user_data = none := hnone
    simp [tokens, owns, taken, entriesOf_cons, hnone']
  next =>
    split
    · rfl
    · split <;> rfl

@[simp] theorem taken_afterRotate (caller : RotateCaller L) : (afterRotate caller).taken = [] := by
  cases caller <;> rfl

@[simp] theorem taken_afterFlush (caller : FlushCaller L) : (afterFlush b' caller).taken = [] := by
  cases caller <;> rfl

@[simp] theorem taken_afterOwning (options : BufferRingOptions) (call : PutCall L) :
    (afterOwning options call).taken = [] := by
  unfold afterOwning
  split
  · split <;> rfl
  · rfl

@[simp] theorem taken_putEntry (call : PutCall L) : (putEntry call).taken = [] := by
  unfold putEntry
  split <;> rfl

theorem taken_afterReset (caller : ResetCaller L) :
    (afterReset b' caller).taken = (resetAddress caller b').taken := by
  cases caller with
  | put call => rfl
  | flush caller => exact taken_afterFlush b' caller
  | check_cque cqe rest => rfl

theorem mem_taken_resetAddress {cqe : Cqe L} (caller : ResetCaller L)
    (h : cqe ∈ (resetAddress caller b').taken) : cqe ∈ (resetState caller b').taken := by
  cases caller with
  | put call => exact h
  | flush caller => exact h
  | check_cque cqe rest => exact List.mem_cons_of_mem _ h

theorem mem_taken_cqueEntry {options : BufferRingOptions} {cqe c : Cqe L} {rest : List (Cqe L)}
    (h : c ∈ (cqueEntry options cqe rest).taken) : c ∈ cqe :: rest := by
  unfold cqueEntry at h
  split at h
  next => exact List.mem_cons_of_mem _ h
  next =>
    split at h
    · exact h
    · split at h <;> exact h

/-- A reset gives up one claim. -/
theorem tokens_resetState (caller : ResetCaller L) (hpc : (resetState caller b').WellFormed) :
    (resetState caller b').tokens b =
      (resetAddress caller b').tokens b + if b' = b then 1 else 0 := by
  cases caller with
  | put call => simp [tokens, owns, taken]
  | flush caller => simp [tokens, owns, taken]
  | check_cque cqe rest =>
    have hcqe : cqe.entry.user_data = some b' := hpc
    simp [tokens, owns, taken, entriesOf_cons, hcqe]

end Continuations

end Pc

section Local
variable {options : BufferRingOptions} {ok : Bool} {mem mem' : BufferRing L} {pc pc' : Pc L}

/-- A submission puts at most one entry of its buffer in flight. -/
theorem inFlight_submit_raw (store : QuikIO) (b b' : Fin L) (data_len offset : Usize) :
    (mem.submit_raw store ok b' data_len offset).io.inFlight b ≤
      mem.io.inFlight b + if b' = b then 1 else 0 := by
  obtain ⟨_, hraw⟩ | ⟨io, hpush, hio, _⟩ := mem.submit_raw_cases store ok b' data_len offset
  · rw [hraw]
    exact Nat.le_add_right _ _
  · rw [hio]
    have hperm := ((IoUring.entries_submit io ok).trans (IoUring.entries_push hpush)).countP_eq
      (·.user_data = some b)
    simp only [List.countP_cons, BufferRing.writeEntry, Option.some.injEq,
      decide_eq_true_eq] at hperm
    exact hperm.le

/-- A retry puts at most one entry of its buffer in flight. -/
theorem inFlight_retry (b b' : Fin L) (howned : ∀ e, (mem.ring b').sqe = some e → e.user_data = some b') :
    (mem.retry ok b').io.inFlight b ≤ mem.io.inFlight b + if b' = b then 1 else 0 := by
  unfold BufferRing.retry
  split
  next e he =>
    cases hpush : mem.io.push e with
    | none =>
      have hperm := (IoUring.entries_submit mem.io ok).countP_eq (·.user_data = some b)
      exact hperm.le.trans (Nat.le_add_right _ _)
    | some io =>
      have hperm := ((IoUring.entries_submit io ok).trans (IoUring.entries_push hpush)).countP_eq
        (·.user_data = some b)
      simp only [List.countP_cons, howned e he, Option.some.injEq, decide_eq_true_eq] at hperm
      exact hperm.le
  next => exact Nat.le_add_right _ _

/-- Draining the queue passes the unread entries to the thread. -/
theorem inFlight_drain (io : IoUring L) (b : Fin L) :
    entriesOf b (io.drain.1.map Cqe.entry) + io.drain.2.inFlight b = io.inFlight b := by
  have hperm := (IoUring.entries_drain io).countP_eq (·.user_data = some b)
  rw [List.countP_append] at hperm
  exact hperm

/-- A buffer whose flush `put` has won keeps its claim in `flush`; another caller raises the claims to the
flush of `b` by no more than the bit it turns on. -/
theorem next_tokens_flushSet {caller : FlushCaller L} {b b' : Fin L}
    (hafter : pc'.tokens b = if b' = b then 1 else 0)
    (hflush : ∀ caller', Pc.flushSet caller b' = .flushSet caller' b → flushBit mem b = 1 →
      ∃ call, caller' = .put call) :
    pc'.tokens b + mem.io.inFlight b + flushBit mem b ≤
      (Pc.flushSet caller b').tokens b + mem.io.inFlight b +
        ((Pc.flushSet caller b').flushingAfter b (state_flush_in_progress (mem.ring b).state)).toNat := by
  have hle := flushBit_le_one mem b
  rw [hafter]
  by_cases hb : b' = b
  · subst b'
    have hon : ((Pc.flushSet caller b).flushingAfter b
        (state_flush_in_progress (mem.ring b).state)).toNat = 1 := by simp [Pc.flushingAfter]
    rw [hon, if_pos rfl]
    by_cases hset : flushBit mem b = 1
    · obtain ⟨call, rfl⟩ := hflush caller rfl hset
      have hone : (Pc.flushSet (.put call) b).tokens b = 1 := by simp [Pc.tokens, Pc.owns, Pc.taken]
      omega
    · omega
  · simp [hb, Pc.flushingAfter, flushBit]

/-- No step raises the claims to the flush of `b`, with the writes of `b` in flight, by more than it
turns on the flush bit: except that `flush`, called by anyone but `put`, submits a buffer whose bit
was already on. -/
theorem next_tokens (b : Fin L) (hpc : pc.WellFormed)
    (howned : ∀ b e, (mem.ring b).sqe = some e → e.user_data = some b)
    (hflush : ∀ caller, pc = .flushSet caller b → flushBit mem b = 1 → ∃ call, caller = .put call)
    (h : next options ok mem pc = some (pc', mem')) :
    pc'.tokens b + mem'.io.inFlight b + flushBit mem b ≤
      pc.tokens b + mem.io.inFlight b + flushBit mem' b := by
  have hbit : flushBit mem' b = (pc.flushingAfter b
      (state_flush_in_progress (mem.ring b).state)).toNat :=
    congrArg Bool.toNat (next_flushing b h hpc)
  rw [hbit, next_io h]
  cases next_advances h
  case flush_lost call hset =>
    have hkeep : flushBit mem b ≤ ((Pc.putSetFlush call).flushingAfter b
        (state_flush_in_progress (mem.ring b).state)).toNat := by
      simp only [Pc.flushingAfter, flushBit]
      cases state_flush_in_progress (mem.ring b).state <;> simp
    exact Nat.add_le_add_left hkeep _
  case flush_won call hclear =>
    rw [Pc.tokens_afterOwning]
    by_cases hb : call.current = b
    · subst hb
      have hzero : flushBit mem call.current = 0 := by simpa [flushBit] using hclear
      simp [hzero, Pc.flushingAfter, Pc.ioAfter, Nat.add_comm]
    · simp [hb, Pc.flushingAfter, Pc.ioAfter, flushBit]
  case flush_submits caller b' _ => exact next_tokens_flushSet rfl hflush
  case flush_resets caller b' _ => exact next_tokens_flushSet rfl hflush
  case submit_pushed caller b' data_len offset =>
    have hio : (Pc.submitPush caller b' data_len offset |>.ioAfter options ok mem).inFlight b ≤
        mem.io.inFlight b + if b' = b then 1 else 0 := by
      simp only [Pc.ioAfter]
      split
      next store _ => exact inFlight_submit_raw store b b' data_len offset
      next => exact Nat.le_add_right _ _
    have hone : (Pc.submitPush caller b' data_len offset).tokens b = if b' = b then 1 else 0 := rfl
    rw [Pc.tokens_afterFlush, hone]
    simp only [Pc.flushingAfter, flushBit]
    omega
  case state_reset caller b' =>
    have hle := flushBit_le_one mem b
    rw [Pc.tokens_resetState b b' caller hpc]
    by_cases hb : b' = b
    · simp only [hb, if_true, Pc.ioAfter]
      omega
    · simp [hb, Pc.flushingAfter, Pc.ioAfter, flushBit]
  case address_reset caller b' =>
    rw [Pc.tokens_afterReset]
    exact Nat.le_refl _
  case cque_empty | cque_drained =>
    have hdrain := inFlight_drain mem.io b
    simp only [IoUring.drain] at hdrain
    simp only [Pc.tokens, Pc.owns, Pc.taken, Pc.flushingAfter, Pc.ioAfter, IoUring.drain, flushBit,
      List.map_nil, entriesOf_nil]
    omega
  case cque_takes cqe rest =>
    rw [Pc.tokens_cqueEntry]
    exact Nat.le_refl _
  case cque_retried cqe b' rest =>
    have hio : (mem.retry ok b').io.inFlight b ≤ _ := inFlight_retry b b' (howned b')
    have hcqe : cqe.entry.user_data = some b' := hpc
    simp only [Pc.tokens, Pc.owns, Pc.taken, Pc.flushingAfter, Pc.ioAfter, flushBit, List.map_cons,
      entriesOf_cons, hcqe, Option.some.injEq]
    omega
  case rotated_before | rotate_exhausted | rotate_stored =>
    rw [Pc.tokens_afterRotate]
    exact Nat.le_refl _
  all_goals exact Nat.le_refl _

/-- The stored entry of a buffer changes only when the buffer is submitted, to an entry of the
buffer's present filling. -/
theorem next_sqe (b : Fin L) (h : next options ok mem pc = some (pc', mem')) :
    (mem'.ring b).sqe = (mem.ring b).sqe ∨
      ∃ caller data_len offset e, pc = .submitPush caller b data_len offset ∧
        (mem'.ring b).sqe = some e ∧ e.user_data = some b ∧
        e.filling = (mem.ring b).filling.number := by
  rw [next_mem h]
  cases pc
  case submitPush caller b' data_len offset =>
    simp only [Pc.memAfter]
    split
    next store _ =>
      obtain ⟨_, hraw⟩ | ⟨io, _, _, hsqe, hother⟩ :=
        mem.submit_raw_cases store ok b' data_len offset
      · exact .inl (by rw [hraw])
      · by_cases hb : b = b'
        · subst b'
          exact .inr ⟨caller, data_len, offset, _, rfl, hsqe, rfl, rfl⟩
        · exact .inl (by rw [hother b hb])
    next => exact .inl rfl
  all_goals left
  case reserveExchange b' payload state offset new =>
    simp only [Pc.memAfter]
    split
    next =>
      exact BufferRing.modify_field (f := (·.grant new offset payload.len)) FlushBuffer.sqe (fun _ => rfl) b
    next => rfl
  case rotateNext caller current size left =>
    simp only [Pc.memAfter]
    split <;> rfl
  all_goals simp only [Pc.memAfter, BufferRing.modify_ring, BufferRing.swap_current_ring,
    BufferRing.retry_ring]
  all_goals try rfl
  all_goals split <;> rfl

/-- `e` is the entry stored for the present filling of the buffer it belongs to. -/
def Stored (mem : BufferRing L) (e : Sqe L) : Prop :=
  ∀ b, e.user_data = some b →
    (mem.ring b).sqe = some e ∧ e.filling = (mem.ring b).filling.number

/-- An entry in flight or taken after a step was there before it, or is the one just built for the
buffer that is submitted: a retry pushes the entry whose completion it handles. -/
theorem next_entries {e : Sqe L} (hpc : pc.WellFormed)
    (hstored : ∀ c ∈ pc.taken, Stored mem c.entry)
    (h : next options ok mem pc = some (pc', mem'))
    (he : e ∈ mem'.io.entries ∨ e ∈ pc'.taken.map Cqe.entry) :
    (e ∈ mem.io.entries ∨ e ∈ pc.taken.map Cqe.entry) ∨
      ∃ caller b data_len offset, pc = .submitPush caller b data_len offset ∧
        e.user_data = some b ∧ (mem'.ring b).sqe = some e ∧
        e.filling = (mem.ring b).filling.number := by
  rw [next_io h] at he
  have hring := next_mem h
  cases next_advances h
  case submit_pushed caller b' data_len offset =>
    rw [Pc.taken_afterFlush] at he
    simp only [Pc.memAfter] at hring
    simp only [Pc.ioAfter] at he
    split at he
    next store hstore =>
      rw [hstore] at hring
      obtain ⟨_, hraw⟩ | ⟨io, hpush, hio, hsqe, _⟩ :=
        mem.submit_raw_cases store ok b' data_len offset
      · rw [hraw] at he
        exact .inl he
      · rw [hio, ((IoUring.entries_submit io ok).trans (IoUring.entries_push hpush)).mem_iff,
          List.mem_cons] at he
        obtain (rfl | he) | he := he
        · exact .inr ⟨caller, b', data_len, offset, rfl, rfl, hring ▸ hsqe, rfl⟩
        · exact .inl (.inl he)
        · exact .inl (.inr he)
    next => exact .inl he
  case cque_empty =>
    obtain he | he := he
    · exact .inl (.inl ((IoUring.entries_drain mem.io).mem_iff.mp (List.mem_append_right _ he)))
    · exact .inl (.inr he)
  case cque_drained =>
    exact .inl (.inl ((IoUring.entries_drain mem.io).mem_iff.mp (List.mem_append.mpr he.symm)))
  case cque_takes cqe rest =>
    refine .inl (he.imp_right fun htaken => ?_)
    obtain ⟨c, hc, rfl⟩ := List.mem_map.mp htaken
    exact List.mem_map_of_mem (Pc.mem_taken_cqueEntry hc)
  case cque_retried cqe b' rest =>
    have hrest : e ∈ rest.map Cqe.entry → e ∈ (cqe :: rest).map Cqe.entry :=
      fun hmem => by
        rw [List.map_cons]
        exact List.mem_cons_of_mem _ hmem
    simp only [Pc.ioAfter] at he
    unfold BufferRing.retry at he
    split at he
    next stored hsqe =>
      obtain he | he := he
      · rw [(IoUring.entries_submit _ ok).mem_iff] at he
        cases hpush : mem.io.push stored with
        | none =>
          rw [hpush] at he
          exact .inl (.inl he)
        | some io =>
          rw [hpush, Option.getD_some, (IoUring.entries_push hpush).mem_iff, List.mem_cons] at he
          obtain rfl | he := he
          · obtain ⟨hcqe, _⟩ := hstored cqe (List.mem_cons_self) b' hpc
            obtain rfl := Option.some.inj (hsqe.symm.trans hcqe)
            exact .inl (.inr (List.mem_map_of_mem List.mem_cons_self))
          · exact .inl (.inl he)
      · exact .inl (.inr (hrest he))
    next => exact .inl (he.imp_right hrest)
  case state_reset caller b' =>
    refine .inl (he.imp_right fun htaken => ?_)
    obtain ⟨c, hc, rfl⟩ := List.mem_map.mp htaken
    exact List.mem_map_of_mem (Pc.mem_taken_resetAddress b' caller hc)
  case address_reset caller b' =>
    rw [Pc.taken_afterReset] at he
    exact .inl he
  case flush_won =>
    rw [Pc.taken_afterOwning] at he
    exact .inl he
  case rotated_before | rotate_exhausted | rotate_stored =>
    rw [Pc.taken_afterRotate] at he
    exact .inl he
  all_goals exact .inl he

end Local

end FlushRing
