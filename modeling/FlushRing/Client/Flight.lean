import FlushRing.Client.Filling

open Extents

namespace FlushRing

variable {L : Nat}

/-- The completions `check_cque` has drained and still has to handle. -/
def Stage.polled : Stage L → List (Cqe L)
  | .polling cqes => cqes
  | _ => []

theorem Stage.polled_waited (caller : Option (Fin L)) : (waited caller).polled = [] := by
  cases caller <;> rfl

theorem Stage.polled_failed (caller : Option (Fin L)) : (failed caller).polled = [] := by
  cases caller <;> rfl

theorem Stage.polled_drained (cqes : List (Cqe L)) :
    (if cqes.isEmpty then .between else .polling cqes : Stage L).polled = cqes := by
  split
  next hempty => exact (List.isEmpty_iff.mp hempty).symm
  next => rfl

theorem Stage.polled_ite {p : Prop} [Decidable p] {stage stage' : Stage L} (h : stage.polled = [])
    (h' : stage'.polled = []) : (if p then stage else stage').polled = [] := by
  split
  · exact h
  · exact h'

theorem Stage.polled_tested (p : Prop) [Decidable p] (caller : Option (Fin L)) :
    (if p then .waited caller else .waiting caller : Stage L).polled = [] :=
  polled_ite (polled_waited caller) rfl

theorem Stage.polled_submitted (p : Prop) [Decidable p] (caller : Option (Fin L)) :
    (if p then .synced caller else .failed caller : Stage L).polled = [] :=
  polled_ite rfl (polled_failed caller)

theorem Stage.polled_reading (p : Prop) [Decidable p] :
    (if p then .reading else .between : Stage L).polled = [] :=
  polled_ite rfl rfl

theorem Client.polled_wait (s : Client L) (caller : Option (Fin L)) : (s.wait caller).stage.polled = [] :=
  Stage.polled_ite (Stage.polled_waited caller) rfl

/-- Where a buffer's data belongs in the file. -/
def FlushBuffer.placed (self : FlushBuffer L) : Extent :=
  { start := self.local_address.toNat, len := self.size.toNat }

/-- Where a buffer's data is in its memory. -/
def FlushBuffer.data (self : FlushBuffer L) : Extent := { start := 0, len := self.size.toNat }

/-- The entry of a buffer of at most a megabyte has the length of its data. -/
theorem FlushBuffer.entry_len {self : FlushBuffer L} (hfits : self.size.toNat ≤ 2 ^ 20) (store : QuikIO)
    (b : Fin L) : (self.entry store b).len = self.data_len.toNat := by
  have hlen : (self.entry store b).len = (self.data_len.setWidth 32).toNat := rfl
  have hpadded := self.data_len_toNat
  rw [hlen, BitVec.toNat_setWidth]
  omega

/-- It covers all bytes of the buffer. -/
theorem FlushBuffer.size_le_entry_len {self : FlushBuffer L} (hfits : self.size.toNat ≤ 2 ^ 20)
    (store : QuikIO) (b : Fin L) : self.size.toNat ≤ (self.entry store b).len := by
  have hpadded := self.data_len_toNat
  rw [entry_len hfits]
  omega

namespace BufferRing

/-- Entries not yet acted on: queued, in the kernel, unread, or with `check_cque`. -/
def flying (mem : BufferRing L) (polled : List (Cqe L)) : List (Sqe L) :=
  mem.io.entries ++ polled.map Cqe.entry

/-- A write of the present filling of `b` has completed and put all of its data in the file. -/
def Persisted (store : QuikIO) (mem : BufferRing L) (b : Fin L) : Prop :=
  ∃ c ∈ mem.io.completed, c.cqe.entry = (mem.ring b).entry store b ∧ c.cqe.entry ∈ mem.io.pushed ∧
    0 ≤ c.cqe.result ∧ (mem.ring b).size.toNat ≤ c.cqe.result.toNat ∧
    load c.file (mem.ring b).placed = load (mem.ring b).buf.bytes (mem.ring b).data

/-- A persisted filling stays so while its buffer is unchanged. -/
theorem Persisted.mono {store : QuikIO} {mem mem' : BufferRing L} {b : Fin L}
    (h : Persisted store mem b) (hring : mem'.ring b = mem.ring b)
    (hcompleted : ∀ c ∈ mem.io.completed, c ∈ mem'.io.completed)
    (hpushed : ∀ e ∈ mem.io.pushed, e ∈ mem'.io.pushed) : Persisted store mem' b := by
  obtain ⟨c, hc, hentry, hpush, hrest⟩ := h
  rw [← hring] at hentry hrest
  exact ⟨c, hcompleted c hc, hentry, hpushed _ hpush, hrest⟩

/-- Every write not yet acted on is the one write of its buffer's present filling, kept in the buffer
for a retry, and an unread success has left the data in the file. -/
structure Flight (store : QuikIO) (mem : BufferRing L) (polled : List (Cqe L)) : Prop where
  stored : ∀ e ∈ mem.flying polled, (e.user_data = none ∧ ∀ b len, e.opcode ≠ .Write b len) ∨
    ∃ b, e = (mem.ring b).entry store b ∧ state_flush_in_progress (mem.ring b).state = true ∧
      (mem.ring b).sqe = some e ∧ e ∈ mem.io.pushed
  unique : ∀ b, (mem.flying polled).countP (·.user_data = some b) ≤ 1
  answered : ∀ cqe ∈ mem.io.cq ++ polled, 0 ≤ cqe.result → ∀ b, cqe.user_data = some b →
    Persisted store mem b

theorem flight_init [NeZero L] (options : BufferRingOptions) (store : QuikIO) :
    Flight store (with_options options : BufferRing L) [] where
  stored e he := by cases he
  unique b := Nat.zero_le _
  answered cqe hcqe := by cases hcqe

/-- The write of a buffer puts its bytes in its place. -/
theorem fileAfter_entry {mem : BufferRing L} {e : Sqe L} {store : QuikIO} {b : Fin L} {result : Int}
    (hentry : e = (mem.ring b).entry store b) :
    mem.fileAfter e result =
      fill mem.file (mem.ring b).buf.bytes
        { start := (mem.ring b).placed.start, len := result.toNat } := by
  rw [hentry]
  rfl

/-- A write that is long enough puts the buffer's data in the file. -/
theorem fileAfter_load {mem : BufferRing L} {e : Sqe L} {store : QuikIO} {b : Fin L} {result : Int}
    (hentry : e = (mem.ring b).entry store b)
    (hsize : (mem.ring b).size.toNat ≤ result.toNat) :
    load (mem.fileAfter e result) (mem.ring b).placed =
      load (mem.ring b).buf.bytes (mem.ring b).data := by
  have hlen : (mem.ring b).placed.len = (mem.ring b).data.len := rfl
  apply (load_eq_iff hlen).mpr
  intro k hk
  have hlt : k < result.toNat := lt_of_lt_of_le hk hsize
  rw [fileAfter_entry hentry, FlushBuffer.data, Nat.zero_add]
  exact fill_apply (e := { start := (mem.ring b).placed.start, len := result.toNat }) mem.file _ hlt

/-- A completion not acted on is in flight. -/
theorem unread_flying {mem : BufferRing L} {polled : List (Cqe L)} {cqe : Cqe L}
    (h : cqe ∈ mem.io.cq ++ polled) : cqe.entry ∈ mem.flying polled := by
  rw [flying, IoUring.entries, List.append_assoc, ← List.map_append]
  exact List.mem_append_right _ (List.mem_map_of_mem h)

namespace Flight
variable {store : QuikIO} {ok : Bool} {mem mem' : BufferRing L} {polled polled' : List (Cqe L)}
variable {b : Fin L} {x : FlushBuffer L}

/-- The write of a buffer that is in flight. -/
theorem write (h : Flight store mem polled) {e : Sqe L} (he : e ∈ mem.flying polled)
    (hb : e.user_data = some b) :
    e = (mem.ring b).entry store b ∧ state_flush_in_progress (mem.ring b).state = true ∧
      (mem.ring b).sqe = some e ∧ e ∈ mem.io.pushed := by
  obtain ⟨hnone, _⟩ | ⟨c, hentry, hrest⟩ := h.stored e he
  · rw [hnone] at hb
    cases hb
  · have hc : e.user_data = some c := by
      rw [hentry]
      rfl
    obtain rfl : c = b := Option.some.inj (hc.symm.trans hb)
    exact ⟨hentry, hrest⟩

/-- A buffer that is not being flushed has nothing in flight. -/
theorem not_flying (h : Flight store mem polled)
    (hclear : state_flush_in_progress (mem.ring b).state = false) :
    ∀ e ∈ mem.flying polled, e.user_data ≠ some b := by
  intro e he hb
  have hflush := (h.write he hb).2.1
  rw [hclear] at hflush
  cases hflush

/-- A step that leaves the buffers in flight alone and adds no entry. -/
theorem keep (h : Flight store mem polled)
    (hring : ∀ c, ∀ e ∈ mem'.flying polled', e.user_data = some c → mem'.ring c = mem.ring c)
    (hpushed : ∀ e ∈ mem.io.pushed, e ∈ mem'.io.pushed)
    (hcompleted : ∀ c ∈ mem.io.completed, c ∈ mem'.io.completed)
    (hflying : (mem'.flying polled').Subperm (mem.flying polled))
    (hunread : ∀ cqe ∈ mem'.io.cq ++ polled', cqe ∈ mem.io.cq ++ polled) :
    Flight store mem' polled' where
  stored e he := by
    obtain hnone | ⟨c, hentry, hflush, hsqe, hpush⟩ := h.stored e (hflying.subset he)
    · exact .inl hnone
    · have hc : e.user_data = some c := by
        rw [hentry]
        rfl
      rw [← hring c e he hc] at hentry hflush hsqe
      exact .inr ⟨c, hentry, hflush, hsqe, hpushed e hpush⟩
  unique c := (hflying.countP_le _).trans (h.unique c)
  answered cqe hcqe hresult c hc :=
    (h.answered cqe (hunread cqe hcqe) hresult c hc).mono (hring c _ (unread_flying hcqe) hc) hcompleted
      hpushed

/-- A step that only changes buffers that have no write in flight. -/
theorem ring (h : Flight store mem polled) (hio : mem'.io = mem.io)
    (hring : ∀ c, ∀ e ∈ mem.flying polled, e.user_data = some c → mem'.ring c = mem.ring c) :
    Flight store mem' polled := by
  have hflying : mem'.flying polled = mem.flying polled := by
    rw [flying, flying, hio]
  refine h.keep (fun c e he hc => ?_) ?_ ?_ ?_ ?_
  · rw [hflying] at he
    exact hring c e he hc
  · rw [hio]
    exact fun _ => id
  · rw [hio]
    exact fun _ => id
  · rw [hflying]
  · rw [hio]
    exact fun _ => id

/-- A change to a buffer that is not being flushed touches nothing in flight. -/
theorem changed (h : Flight store mem polled) (hmem : Changed mem mem' b x)
    (hclear : state_flush_in_progress (mem.ring b).state = false) : Flight store mem' polled :=
  h.ring hmem.io fun _ _ he hc => flushing_kept hmem.others hclear (h.write he hc).2.1

/-- A buffer with no write in flight is handed to `flush`. -/
theorem launched (h : Flight store mem polled) (hmem : Launched store ok mem mem' b x)
    (hfree : ∀ e ∈ mem.flying polled, e.user_data ≠ some b) : Flight store mem' polled := by
  have hring (c : Fin L) (hc : c ≠ b) (hflush : state_flush_in_progress (mem.ring c).state = true) :
      mem'.ring c = mem.ring c := (hmem.others c hc).eq_of_flushing hflush
  have hkeep {e : Sqe L} (he : e ∈ mem.flying polled) {c : Fin L} (hc : e.user_data = some c) :
      mem'.ring c = mem.ring c := by
    refine hring c ?_ (h.write he hc).2.1
    rintro rfl
    exact hfree e he hc
  obtain ⟨_, hio, _⟩ | ⟨io, hpush, hio, htarget⟩ := hmem.outcome
  · exact h.ring hio fun c e he hc => hkeep he hc
  · have hflying : (mem'.flying polled).Perm (x.entry store b :: mem.flying polled) := by
      rw [flying, hio, flying, ← List.cons_append]
      exact (((io.entries_submit ok).trans (IoUring.entries_push hpush))).append_right _
    obtain ⟨_, rfl⟩ := IoUring.push_eq_some hpush
    have hpushed : mem'.io.pushed = mem.io.pushed ++ [x.entry store b] := by
      rw [hio, IoUring.submit_pushed]
    have hcq : mem'.io.cq = mem.io.cq := by
      rw [hio, IoUring.submit_cq]
    have hcompleted : mem'.io.completed = mem.io.completed := by
      rw [hio, IoUring.submit_completed]
    refine ⟨fun e he => ?_, fun c => ?_, fun cqe hcqe hresult c hc => ?_⟩
    · obtain rfl | he := List.mem_cons.mp (hflying.mem_iff.mp he)
      · right
        refine ⟨b, ?_, ?_, ?_, ?_⟩
        · rw [htarget, ← FlushBuffer.entry_set_flush_in_progress]
          rfl
        · rw [hmem.target_state]
          exact state_flush_in_progress_or_flush _
        · rw [htarget]
        · rw [hpushed]
          exact List.mem_append_right _ (List.mem_singleton_self _)
      · obtain hnone | ⟨c, hentry, hflush, hsqe, hpush⟩ := h.stored e he
        · exact .inl hnone
        · have hc : e.user_data = some c := by
            rw [hentry]
            rfl
          rw [← hkeep he hc] at hentry hflush hsqe
          right
          refine ⟨c, hentry, hflush, hsqe, ?_⟩
          rw [hpushed]
          exact List.mem_append_left _ hpush
    · rw [hflying.countP_eq, List.countP_cons]
      by_cases hc : b = c
      · subst c
        have hzero : (mem.flying polled).countP (·.user_data = some b) = 0 := by
          rw [List.countP_eq_zero]
          intro e he
          simpa using hfree e he
        rw [hzero]
        split <;> omega
      · have hne : ¬ decide ((x.entry store b).user_data = some c) = true := by
          rw [decide_eq_true_eq]
          exact fun heq => hc (Option.some.inj heq)
        rw [if_neg hne]
        exact h.unique c
    · rw [hcq] at hcqe
      refine (h.answered cqe hcqe hresult c hc).mono (hkeep (unread_flying hcqe) hc) ?_ ?_
      · rw [hcompleted]
        exact fun _ => id
      · rw [hpushed]
        exact fun _ => List.mem_append_left _

/-- The retry of a failed write queues the same entry again, or loses it to a full queue. -/
theorem retried {cqe : Cqe L} {rest : List (Cqe L)} (h : Flight store mem (cqe :: rest))
    (huser : cqe.user_data = some b) : Flight store (mem.retry ok b) rest := by
  have hunread : cqe ∈ mem.io.cq ++ cqe :: rest :=
    List.mem_append_right _ List.mem_cons_self
  obtain ⟨_, _, hsqe, _⟩ := h.write (unread_flying hunread) huser
  have hio : (mem.retry ok b).io = ((mem.io.push cqe.entry).getD mem.io).submit ok := by
    simp only [BufferRing.retry, hsqe]
  have hmiddle : (cqe.entry :: mem.flying rest).Perm (mem.flying (cqe :: rest)) :=
    List.perm_middle.symm
  have hrest (cqe' : Cqe L) (hcqe' : cqe' ∈ mem.io.cq ++ rest) : cqe' ∈ mem.io.cq ++ cqe :: rest := by
    obtain hcqe' | hcqe' := List.mem_append.mp hcqe'
    · exact List.mem_append_left _ hcqe'
    · exact List.mem_append_right _ (List.mem_cons_of_mem _ hcqe')
  cases hpush : mem.io.push cqe.entry with
  | none =>
    rw [hpush, Option.getD_none] at hio
    have hflying : ((mem.retry ok b).flying rest).Perm (mem.flying rest) := by
      rw [flying, hio]
      exact (mem.io.entries_submit ok).append_right _
    refine h.keep (fun c e _ _ => by rw [retry_ring]) ?_ ?_ ?_ ?_
    · rw [hio, IoUring.submit_pushed]
      exact fun _ => id
    · rw [hio, IoUring.submit_completed]
      exact fun _ => id
    · exact hflying.subperm.trans ((List.sublist_cons_self _ _).subperm.trans hmiddle.subperm)
    · rw [hio, IoUring.submit_cq]
      exact hrest
  | some io =>
    rw [hpush, Option.getD_some] at hio
    have hflying : ((mem.retry ok b).flying rest).Perm (cqe.entry :: mem.flying rest) := by
      rw [flying, hio, flying, ← List.cons_append]
      exact ((io.entries_submit ok).trans (IoUring.entries_push hpush)).append_right _
    obtain ⟨_, rfl⟩ := IoUring.push_eq_some hpush
    refine h.keep (fun c e _ _ => by rw [retry_ring]) ?_ ?_ ?_ ?_
    · rw [hio, IoUring.submit_pushed]
      exact fun _ => List.mem_append_left _
    · rw [hio, IoUring.submit_completed]
      exact fun _ => id
    · exact (hflying.trans hmiddle).subperm
    · rw [hio, IoUring.submit_cq]
      exact hrest

/-- A buffer with no write left in flight is reset. -/
theorem reset (h : Flight store mem polled) (hio : mem'.io = mem.io)
    (hring : ∀ c ≠ b, mem'.ring c = mem.ring c) (hpolled : List.Sublist polled' polled)
    (hfree : ∀ e ∈ mem.flying polled', e.user_data ≠ some b) : Flight store mem' polled' := by
  have hflying : mem'.flying polled' = mem.flying polled' := by
    rw [flying, flying, hio]
  refine h.keep (fun c e he hc => hring c ?_) ?_ ?_ ?_ ?_
  · rintro rfl
    rw [hflying] at he
    exact hfree e he hc
  · rw [hio]
    exact fun _ => id
  · rw [hio]
    exact fun _ => id
  · rw [hflying]
    exact ((hpolled.map _).append_left _).subperm
  · rw [hio]
    exact fun _ hcqe => (hpolled.append_left _).subset hcqe

/-- A write in the kernel and a completion not handled yet belong to different buffers. -/
theorem kernel_ne_unread (h : Flight store mem polled) {e : Sqe L} {cqe : Cqe L} {c : Fin L}
    (he : e ∈ mem.io.kernel) (hcqe : cqe ∈ mem.io.cq ++ polled) (hb : e.user_data = some b)
    (hc : cqe.user_data = some c) : b ≠ c := by
  rintro rfl
  have hcount := h.unique b
  rw [flying, IoUring.entries, List.append_assoc, ← List.map_append, List.countP_append,
    List.countP_append] at hcount
  have hkernel : 0 < mem.io.kernel.countP (·.user_data = some b) :=
    List.countP_pos_iff.mpr ⟨e, he, decide_eq_true hb⟩
  have hunread : 0 < ((mem.io.cq ++ polled).map Cqe.entry).countP (·.user_data = some b) :=
    List.countP_pos_iff.mpr ⟨cqe.entry, List.mem_map_of_mem hcqe, decide_eq_true hc⟩
  omega

/-- The completions taken off the queue by `check_cque` are handled later. -/
theorem drained (h : Flight store mem []) :
    Flight store { mem with io := mem.io.drain.2 } mem.io.drain.1 := by
  refine h.keep (fun _ _ _ _ => rfl) (fun _ => id) (fun _ => id) ?_ fun cqe hcqe => ?_
  · rw [flying, flying, List.map_nil, List.append_nil]
    exact (List.perm_append_comm.trans mem.io.entries_drain).subperm
  · rw [List.append_nil]
    exact hcqe

/-- The completion at hand is the only trace of its buffer's write. -/
theorem alone {cqe : Cqe L} {rest : List (Cqe L)} (h : Flight store mem (cqe :: rest))
    (huser : cqe.user_data = some b) : ∀ e ∈ mem.flying rest, e.user_data ≠ some b := by
  have hmiddle : (mem.flying (cqe :: rest)).Perm (cqe.entry :: mem.flying rest) := List.perm_middle
  have hcount := h.unique b
  have htrue : decide (cqe.entry.user_data = some b) = true := decide_eq_true huser
  rw [hmiddle.countP_eq, List.countP_cons, if_pos htrue] at hcount
  have hzero : (mem.flying rest).countP (·.user_data = some b) = 0 := by
    omega
  intro e he
  simpa using (List.countP_eq_zero.mp hzero) e he

/-- An entry that is no write of a buffer joins the queue. -/
theorem pushed (h : Flight store mem polled) {e : Sqe L} {io : IoUring L}
    (hpush : mem.io.push e = some io) (huser : e.user_data = none)
    (hopcode : ∀ b len, e.opcode ≠ .Write b len) :
    Flight store { mem with io := io.submit ok } polled := by
  have hflying : (flying { mem with io := io.submit ok } polled).Perm (e :: mem.flying polled) := by
    rw [flying, flying, ← List.cons_append]
    exact ((io.entries_submit ok).trans (IoUring.entries_push hpush)).append_right _
  obtain ⟨_, rfl⟩ := IoUring.push_eq_some hpush
  refine ⟨fun e' he' => ?_, fun c => ?_, fun cqe hcqe hresult c hc => ?_⟩
  · obtain rfl | he' := List.mem_cons.mp (hflying.mem_iff.mp he')
    · exact .inl ⟨huser, hopcode⟩
    · obtain hnone | ⟨c, hentry, hflush, hsqe, hpush⟩ := h.stored e' he'
      · exact .inl hnone
      · refine .inr ⟨c, hentry, hflush, hsqe, ?_⟩
        rw [IoUring.submit_pushed]
        exact List.mem_append_left _ hpush
  · rw [hflying.countP_eq, List.countP_cons, huser, if_neg (by simp)]
    exact h.unique c
  · rw [IoUring.submit_cq] at hcqe
    refine (h.answered cqe hcqe hresult c hc).mono rfl ?_ ?_
    · rw [IoUring.submit_completed]
      exact fun _ => id
    · rw [IoUring.submit_pushed]
      exact fun _ => List.mem_append_left _

/-- The kernel answers an entry; a write that does not fail covers the buffer's data. -/
theorem completed (h : Flight store mem polled) {i : Nat} {result : Int}
    (hmem : mem.complete i result = some mem')
    (hlong : ∀ e b, mem.io.kernel[i]? = some e → e.user_data = some b → 0 ≤ result →
      (mem.ring b).size.toNat ≤ result.toNat) :
    Flight store mem' polled := by
  obtain ⟨e, he, _, rfl⟩ := complete_cases hmem
  have hflying : (flying { mem with
      file := mem.fileAfter e result
      io := mem.io.finish i { cqe := { entry := e, result }, file := mem.fileAfter e result } }
      polled).Perm (mem.flying polled) :=
    (IoUring.entries_finish he).append_right _
  refine ⟨fun e' he' => h.stored e' (hflying.mem_iff.mp he'), fun c => ?_,
    fun cqe hcqe hresult c hc => ?_⟩
  · rw [hflying.countP_eq]
    exact h.unique c
  · have hcqe : cqe ∈ mem.io.cq ++ [{ entry := e, result }] ++ polled := hcqe
    obtain hcqe | rfl : cqe ∈ mem.io.cq ++ polled ∨ cqe = { entry := e, result } := by
      simp only [List.mem_append, List.mem_singleton] at hcqe ⊢
      tauto
    · exact (h.answered cqe hcqe hresult c hc).mono rfl (fun _ => List.mem_append_left _) fun _ => id
    · have hmem : e ∈ mem.flying polled :=
        List.mem_append_left _ (List.mem_append_left _ (List.mem_append_right _
          (List.mem_of_getElem? he)))
      obtain ⟨hentry, _, _, hpush⟩ := h.write hmem hc
      have hsize := hlong e c he hc hresult
      exact ⟨_, List.mem_append_right _ (List.mem_singleton_self _), hentry, hpush, hresult, hsize,
        fileAfter_load hentry hsize⟩

end Flight

end BufferRing

open BufferRing

namespace Client
variable {options : BufferRingOptions} {store : QuikIO} {s s' : Client L} {a : Action L}

/-- An open buffer is not being flushed. -/
theorem Steady.open_clear (hs : s.Steady) (hstage : s.stage = .between) {b : Fin L}
    (hopen : state_sealed (s.mem.ring b).state = false) :
    state_flush_in_progress (s.mem.ring b).state = false := by
  rw [Bool.eq_false_iff]
  intro hflush
  obtain hsealed | hsyncs := (hs.flushing b hflush).2
  · rw [hopen] at hsealed
    cases hsealed
  · rw [hstage] at hsyncs
    cases hsyncs

/-- The buffer of a reservation that is outstanding is not being flushed. -/
theorem Steady.granted_clear (hs : s.Steady) {i : Nat} {call : PutCall L} {offset : Usize}
    (hcall : s.calls[i]? = some call) (hresult : call.reserve_result = .ok offset) :
    state_flush_in_progress (s.mem.ring call.current).state = false := by
  rw [Bool.eq_false_iff]
  intro hflush
  have hperm := outstanding_erase_ok hcall hresult
  rw [(hs.flushing _ hflush).1] at hperm
  exact List.cons_ne_nil _ _ hperm.nil_eq.symm

/-- Buffers are handed over only without a write in flight, and reset by `f_sync` likewise. -/
theorem Steady.flight_step (hs : s.Steady) (hflight : Flight store s.mem s.stage.polled)
    (hfree : ∀ b, s.target a = some b → ∀ e ∈ s.mem.flying s.stage.polled, e.user_data ≠ some b)
    (hdone : ∀ b, s.stage = .synced (some b) →
      ∀ e ∈ s.mem.flying s.stage.polled, e.user_data ≠ some b)
    (hlong : ∀ i result, a = .complete i result → ∀ e b, s.mem.io.kernel[i]? = some e →
      e.user_data = some b → 0 ≤ result → (s.mem.ring b).size.toNat ≤ result.toNat)
    (h : Moves options store s a s') : Flight store s'.mem s'.stage.polled := by
  have hquiet {stage : Stage L} (hstage : s.stage.polled = []) (hpolled : stage.polled = []) :
      Flight store s.mem stage.polled := by
    rw [hpolled, ← hstage]
    exact hflight
  cases h
  case granted b payload offset new _ _ hdecision =>
    exact hflight.changed (.of_modify s.mem b (·.grant new offset payload.len))
      (FlushBuffer.reserve_decision_ok hdecision).2.1
  case put_seals hstage _ _ hopen _ hmem _ => exact hflight.changed hmem (hs.open_clear hstage hopen)
  case put_launches hclear _ hmem _ => exact hflight.launched hmem (hflight.not_flying hclear)
  case put_discards hclear _ hmem _ => exact hflight.changed hmem hclear
  case copies hcall hresult _ hmem _ => exact hflight.changed hmem (hs.granted_clear hcall hresult)
  case copy_launches hclear _ hmem _ => exact hflight.launched hmem (hflight.not_flying hclear)
  case copy_discards hclear _ hmem _ => exact hflight.changed hmem hclear
  case flushes b _ _ _ hmem _ => exact hflight.launched hmem (hfree b rfl)
  case current_launches hsize hmem _ =>
    refine hflight.launched hmem (hfree _ ?_)
    exact if_neg hsize
  case polls hstage => exact hquiet (congrArg Stage.polled hstage) rfl
  case drains hstage =>
    rw [hstage] at hflight
    simp only [drain, Stage.polled_drained]
    exact hflight.drained
  case ignores cqe rest hstage huser =>
    rw [hstage] at hflight
    exact hflight.keep (fun _ _ _ _ => rfl) (fun _ => id) (fun _ => id)
      (((List.sublist_cons_self _ _).map _).append_left _).subperm
      fun _ hcqe => ((List.sublist_cons_self _ _).append_left _).subset hcqe
  case retries hstage huser _ =>
    rw [hstage] at hflight
    exact hflight.retried huser
  case succeeds cqe rest b hstage huser _ =>
    rw [hstage] at hflight
    refine hflight.reset (report_io options s.mem b) (fun c hc => ?_) (List.sublist_cons_self _ _)
      (hflight.alone huser)
    rw [reset_buffer_ring, report_ring, if_neg (Ne.symm hc)]
  case sync_launches b _ _ hstage hmem _ =>
    have hlaunched := hflight.launched hmem (hfree b rfl)
    rw [hstage] at hlaunched
    exact hlaunched
  case wait_starts hstage => exact hquiet (congrArg Stage.polled hstage) rfl
  case wait_drains caller _ hstage =>
    rw [hstage] at hflight
    rw [polled_wait]
    refine hflight.keep (fun _ _ _ _ => rfl) (fun _ => id) (fun _ => id) ?_ fun cqe hcqe => by
      cases hcqe
    have hdrained : s.mem.io.drain.2.entries.Subperm s.mem.io.entries :=
      (List.sublist_append_right _ _).subperm.trans s.mem.io.entries_drain.subperm
    rw [flying, List.map_nil, List.append_nil]
    exact hdrained.trans (List.sublist_append_left _ _).subperm
  case wait_tests caller _ hstage =>
    exact hquiet (congrArg Stage.polled hstage) (Stage.polled_tested _ caller)
  case sync_starts hstage => exact hquiet (congrArg Stage.polled hstage) rfl
  case sync_refused caller _ hstage =>
    exact hquiet (congrArg Stage.polled hstage) (Stage.polled_failed caller)
  case sync_submits caller ok io hstage hpush =>
    rw [Stage.polled_submitted]
    rw [hstage] at hflight
    exact hflight.pushed hpush rfl fun _ _ h => by cases h
  case sync_ends hstage _ => exact hquiet (congrArg Stage.polled hstage) rfl
  case sync_resets b _ hstage _ =>
    have hfree := hdone b hstage
    rw [hstage] at hflight hfree
    refine hflight.reset (b := b) rfl (fun c hc => ?_) (.refl _) hfree
    rw [reset_buffer_ring, if_neg (Ne.symm hc)]
  case read_submits len offset ok io hstage hpush =>
    rw [Stage.polled_reading]
    rw [hstage] at hflight
    exact hflight.pushed hpush rfl fun _ _ h => by cases h
  case read_takes cqe rest hstage hcq =>
    rw [hstage] at hflight
    refine hflight.keep (fun _ _ _ _ => rfl) (fun _ => id) (fun _ => id) ?_ fun cqe' hcqe' => ?_
    · rw [flying, flying, IoUring.entries, IoUring.entries, hcq]
      exact ((((List.sublist_cons_self _ _).map _).append_left _).append_right _).subperm
    · rw [hcq]
      exact List.mem_cons_of_mem _ hcqe'
  case completes i result mem hmem => exact hflight.completed hmem (hlong i result rfl)
  all_goals exact hflight

/-- New completions come from the kernel. -/
theorem Moves.unread (h : Moves options store s a s') (ha : ∀ i result, a ≠ .complete i result) :
    ∀ cqe ∈ s'.mem.io.cq ++ s'.stage.polled, cqe ∈ s.mem.io.cq ++ s.stage.polled := by
  have hsame {mem : BufferRing L} (hcq : mem.io.cq = s.mem.io.cq) :
      ∀ cqe ∈ mem.io.cq ++ s.stage.polled, cqe ∈ s.mem.io.cq ++ s.stage.polled := by
    rw [hcq]
    exact fun _ => id
  have hquiet {cq : List (Cqe L)} {stage : Stage L} (hpolled : stage.polled = [])
      (hcq : ∀ cqe ∈ cq, cqe ∈ s.mem.io.cq) :
      ∀ cqe ∈ cq ++ stage.polled, cqe ∈ s.mem.io.cq ++ s.stage.polled := by
    intro cqe hcqe
    rw [hpolled, List.append_nil] at hcqe
    exact List.mem_append_left _ (hcq cqe hcqe)
  cases h
  case put_seals hmem _ => exact hsame (congrArg IoUring.cq hmem.io)
  case put_launches hmem _ => exact hsame (launched_grows hmem).2.2
  case put_discards hmem _ => exact hsame (congrArg IoUring.cq hmem.io)
  case copies hmem _ => exact hsame (congrArg IoUring.cq hmem.io)
  case copy_launches hmem _ => exact hsame (launched_grows hmem).2.2
  case copy_discards hmem _ => exact hsame (congrArg IoUring.cq hmem.io)
  case flushes hmem _ => exact hsame (launched_grows hmem).2.2
  case current_launches hmem _ => exact hsame (launched_grows hmem).2.2
  case polls => exact hquiet rfl fun _ => id
  case drains hstage =>
    intro cqe hcqe
    rw [hstage]
    simp only [drain, Stage.polled_drained] at hcqe
    exact List.mem_append_left _ hcqe
  case ignores hstage _ =>
    rw [hstage]
    exact fun _ hcqe => ((List.sublist_cons_self _ _).append_left _).subset hcqe
  case retries b hstage _ _ =>
    rw [hstage]
    simp only [(retry_grows s.mem _ b).2.2]
    exact fun _ hcqe => ((List.sublist_cons_self _ _).append_left _).subset hcqe
  case succeeds b hstage _ _ =>
    rw [hstage]
    have hio : ((s.mem.report options b).reset_buffer b).io = s.mem.io := report_io options s.mem b
    simp only [hio]
    exact fun _ hcqe => ((List.sublist_cons_self _ _).append_left _).subset hcqe
  case sync_launches hmem _ =>
    refine hquiet rfl fun _ hcqe => ?_
    rwa [(launched_grows hmem).2.2] at hcqe
  case wait_drains caller _ _ =>
    refine hquiet (s.polled_wait caller) fun cqe hcqe => ?_
    cases hcqe
  case wait_tests caller _ _ =>
    exact hquiet (Stage.polled_tested _ caller) fun _ => id
  case sync_refused caller _ _ => exact hquiet (Stage.polled_failed caller) fun _ => id
  case sync_submits caller ok io _ hpush =>
    obtain ⟨_, rfl⟩ := IoUring.push_eq_some hpush
    refine hquiet (Stage.polled_submitted _ caller) fun _ hcqe => ?_
    rwa [IoUring.submit_cq] at hcqe
  case wait_starts | sync_starts | sync_ends | sync_resets => exact hquiet rfl fun _ => id
  case read_submits len offset ok io _ hpush =>
    obtain ⟨_, rfl⟩ := IoUring.push_eq_some hpush
    refine hquiet (Stage.polled_reading _) fun _ hcqe => ?_
    rwa [IoUring.submit_cq] at hcqe
  case read_takes hstage hcq =>
    refine hquiet rfl fun cqe hcqe => ?_
    rw [hcq]
    exact List.mem_cons_of_mem _ hcqe
  case completes i result _ _ => exact absurd rfl (ha i result)
  all_goals exact fun _ => id

end Client

end FlushRing
