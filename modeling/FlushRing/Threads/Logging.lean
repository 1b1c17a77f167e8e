import FlushRing.Client.Recovery
import FlushRing.Client.Storeless
import FlushRing.Threads.Serial

open Transition

namespace FlushRing

variable {L : Nat}

/-- Where a thread stands in the loop of `log_message`. -/
inductive Loop where
  | out
  -- ring.current_buffer
  | fetch
  -- current.reserve_space, before and after it is called
  | reserve
  | reserving
  | putting
  -- ring.check_cque, before and after it is called
  | poll
  | polling
  deriving DecidableEq

/-- `log_message`: the call of the ring a thread makes next, and where in the loop that leaves it. A
reservation that fails or meets a sealed buffer is made again at once; completions are looked for only after a
`put` has failed. -/
def log_message : Loop → Pc L → Option (Call × Loop)
  | .fetch, .idle => some (.current_buffer, .reserve)
  | .reserve, .idle => some (.reserve_space, .reserving)
  | .reserving, .reserved _ _ (.error .FailedReservation) => some (.finish, .fetch)
  | .reserving, .reserved _ _ (.error .EncounteredSealedBuffer) => some (.finish, .fetch)
  | .reserving, .reserved _ _ _ => some (.put, .putting)
  | .putting, .returned _ (.error .EncounteredSealedBuffer) => some (.finish, .poll)
  | .putting, .returned _ (.error .RingExhausted) => some (.finish, .poll)
  | .putting, .returned _ _ => some (.finish, .out)
  | .poll, .idle => some (.check_cque, .polling)
  | _, _ => none

/-- Threads that only call `log_message`. -/
structure Logger (T : Type) (L : Nat) where
  threads : Threads T L
  loop : T → Loop

namespace Logger

/-- A thread starts `log_message`, goes on with its loop or with the call of the ring it is in, or the kernel
answers an entry. -/
inductive Action (T : Type) where
  | log_message (t : T) (payload : Slice)
  | go (t : T)
  | run (t : T) (ok : Bool)
  | complete (i : Nat) (result : Int)

variable {T : Type} [DecidableEq T]

def init (mem : BufferRing L) : Logger T L := { threads := Threads.init mem, loop := fun _ => .out }

/-- The loop goes on at `l`. Without a store `check_cque` returns an error at once, which the loop drops. -/
def go (options : BufferRingOptions) (s : Logger T L) (t : T) : Option (Logger T L) :=
  match s.loop t, s.threads.pc t with
  | .polling, .idle => some { s with loop := Function.update s.loop t .fetch }
  | l, pc =>
    if l = .poll ∧ options.io_instance.isNone then
      some { s with loop := Function.update s.loop t .fetch }
    else
      match log_message l pc with
      | some (c, l') =>
        (s.threads.step options (.call t c)).map fun threads =>
          { threads, loop := Function.update s.loop t l' }
      | none => none

def step (options : BufferRingOptions) (s : Logger T L) : Action T → Option (Logger T L)
  | .log_message t payload =>
    if s.loop t = .out then
      (s.threads.step options (.call t (.take payload))).map fun threads =>
        { threads, loop := Function.update s.loop t .fetch }
    else none
  | .go t => s.go options t
  | .run t ok => (s.threads.step options (.run t ok)).map fun threads => { s with threads }
  | .complete i result => (s.threads.step options (.complete i result)).map fun threads => { s with threads }

/-- Where a thread stands that keeps meeting closed buffers. -/
inductive Spins (mem : BufferRing L) (held : Option (Fin L)) : Loop → Pc L → Prop where
  | out : Spins mem held .out .idle
  | fetch : Spins mem held .fetch .idle
  | reserve {b : Fin L} (hheld : held = some b) (hclosed : (mem.ring b).is_open = false) :
      Spins mem held .reserve .idle
  | loads {b : Fin L} {payload : Slice} (hclosed : (mem.ring b).is_open = false) :
      Spins mem held .reserving (.reserveLoad b payload)
  | exchanges {b : Fin L} {payload : Slice} {state offset new : Usize} (hmoved : (mem.ring b).state ≠ state) :
      Spins mem held .reserving (.reserveExchange b payload state offset new)
  | refused {b : Fin L} {payload : Slice} {e : BufferError}
      (he : e = .FailedReservation ∨ e = .EncounteredSealedBuffer) :
      Spins mem held .reserving (.reserved b payload (.error e))

/-- The current buffer is closed, and no thread is further than a reservation that meets a closed buffer. -/
structure Stalled (s : Logger T L) : Prop where
  current : (s.threads.mem.ring s.threads.mem.current_buffer).is_open = false
  spins : ∀ t, Spins s.threads.mem (s.threads.held t) (s.loop t) (s.threads.pc t)

/-- What a stalled ring keeps: its buffers, the current one, what it has reported and the completions nobody has
read; and no call that is under way has returned. -/
structure Stuck (s s' : Logger T L) : Prop where
  ring : s'.threads.mem.ring = s.threads.mem.ring
  current : s'.threads.mem.current_buffer = s.threads.mem.current_buffer
  sent : s'.threads.mem.sent = s.threads.mem.sent
  unread : s.threads.mem.io.cq <+: s'.threads.mem.io.cq
  loop : ∀ t, s.loop t ≠ .out → s'.loop t ≠ .out

omit [DecidableEq T] in
theorem Stuck.refl (s : Logger T L) : Stuck s s := ⟨rfl, rfl, rfl, List.prefix_rfl, fun _ h => h⟩

omit [DecidableEq T] in
theorem Stuck.trans {s s' s'' : Logger T L} (h : Stuck s s') (h' : Stuck s' s'') : Stuck s s'' :=
  ⟨h'.ring.trans h.ring, h'.current.trans h.current, h'.sent.trans h.sent, h.unread.trans h'.unread,
    fun t ht => h'.loop t (h.loop t ht)⟩

/-- A closed buffer grants nothing. -/
theorem reserve_decision_closed {x : FlushBuffer L} (h : x.is_open = false) (n : Usize) :
    FlushBuffer.reserve_decision x.state n = .error .EncounteredSealedBuffer := by
  have hflags : x.state &&& (SEALED_BIT ||| FLUSH_IN_PROGRESS_BIT) ≠ 0 := by
    intro hzero
    rw [flags_clear_iff, ← FlushBuffer.is_open_iff, h] at hzero
    cases hzero
  rw [FlushBuffer.reserve_decision, if_pos hflags]

section Stall
variable {options : BufferRingOptions} {s s' : Logger T L} {a : Action T}

/-- A thread that moves on leaves the others where they are. -/
theorem Stalled.moved (h : Stalled s) {t : T} {l : Loop} {pc : Pc L} (hmem : s'.threads.mem = s.threads.mem)
    (hpc : s'.threads.pc = Function.update s.threads.pc t pc) (hloop : s'.loop = Function.update s.loop t l)
    (hheld : ∀ t', t' ≠ t → s'.threads.held t' = s.threads.held t')
    (hspins : Spins s.threads.mem (s'.threads.held t) l pc) (hout : s.loop t ≠ .out → l ≠ .out) :
    Stalled s' ∧ Stuck s s' := by
  refine ⟨⟨?_, fun t' => ?_⟩, ⟨by rw [hmem], by rw [hmem], by rw [hmem], by rw [hmem], fun t' ht' => ?_⟩⟩
  · rw [hmem]
    exact h.current
  · rw [hmem, hpc, hloop]
    by_cases ht : t' = t
    · subst t'
      rw [Function.update_self, Function.update_self]
      exact hspins
    · rw [Function.update_of_ne ht, Function.update_of_ne ht, hheld t' ht]
      exact h.spins t'
  · rw [hloop]
    by_cases ht : t' = t
    · subst t'
      rw [Function.update_self]
      exact hout ht'
    · rw [Function.update_of_ne ht]
      exact ht'

/-- A call made by the loop is a call of its thread. -/
theorem call_cases {t : T} {c : Call} {l : Loop} (h : (s.threads.step options (.call t c)).map
      (fun threads => ({ threads, loop := Function.update s.loop t l } : Logger T L)) = some s') :
    ∃ pc, entry options (s.threads.held t) (s.threads.msg t) c (s.threads.pc t) = some pc ∧
      s' = { threads := { s.threads.note t c with pc := Function.update s.threads.pc t pc },
             loop := Function.update s.loop t l } := by
  obtain ⟨threads, hstep, rfl⟩ := Option.map_eq_some_iff.mp h
  obtain ⟨t', c', pc, ha, hentry, rfl⟩ | ⟨t', ok, pc, mem, ha, -⟩ | ⟨i, result, mem, ha, -⟩ :=
    Threads.step_cases hstep
  · cases ha
    exact ⟨pc, hentry, rfl⟩
  · cases ha
  · cases ha

/-- A loop that meets a closed buffer goes round: it fetches the same buffer and tries it again. -/
theorem Stalled.go {t : T} (h : Stalled s) (hgo : s.go options t = some s') : Stalled s' ∧ Stuck s s' := by
  have hspins := h.spins t
  unfold Logger.go at hgo
  generalize hl : s.loop t = l at hspins hgo
  generalize hpc : s.threads.pc t = pc at hspins hgo
  cases hspins with
  | out => cases hgo
  | fetch =>
    obtain ⟨pc', hentry, rfl⟩ := call_cases hgo
    rw [hpc] at hentry
    cases hentry
    refine h.moved (t := t) rfl rfl rfl (fun t' ht => Function.update_of_ne ht _ _) ?_ fun _ h => by cases h
    exact .reserve (Function.update_self ..) h.current
  | @reserve b hheld hclosed =>
    obtain ⟨pc', hentry, rfl⟩ := call_cases hgo
    rw [hpc, hheld] at hentry
    generalize s.threads.msg t = msg at hentry
    cases msg with
    | none => cases hentry
    | some payload =>
      simp only [entry] at hentry
      split at hentry
      next =>
        cases hentry
        exact h.moved (t := t) rfl rfl rfl (fun _ _ => rfl) (.loads hclosed) fun _ h => by cases h
      next => cases hentry
  | loads hclosed => cases hgo
  | exchanges hmoved => cases hgo
  | @refused b payload e he =>
    have hfinish : (s.threads.step options (.call t .finish)).map
        (fun threads => ({ threads, loop := Function.update s.loop t .fetch } : Logger T L)) = some s' := by
      obtain rfl | rfl := he <;> exact hgo
    obtain ⟨pc', hentry, rfl⟩ := call_cases hfinish
    rw [hpc] at hentry
    cases hentry
    have hnote : s.threads.note t .finish = s.threads := by
      unfold Threads.note
      rw [hpc]
    rw [hnote]
    exact h.moved (t := t) rfl rfl rfl (fun _ _ => rfl) .fetch fun _ h => by cases h

/-- A reservation that meets a closed buffer, or one that has changed since it was read, fails. -/
theorem Stalled.run {t : T} {ok : Bool} {threads : Threads T L} (h : Stalled s)
    (hrun : s.threads.step options (.run t ok) = some threads) :
    Stalled { s with threads } ∧ Stuck s { s with threads } := by
  obtain ⟨t', c, pc, ha, -⟩ | ⟨t', ok', pc', mem', ha, hnext, rfl⟩ | ⟨i, result, mem, ha, -⟩ :=
    Threads.step_cases hrun
  · cases ha
  · cases ha
    have hspins := h.spins t
    have hfails {b : Fin L} {payload : Slice} {e : BufferError}
        (hpc : (s.threads.record (s.threads.pc t) pc') = s.threads)
        (hnext : (Pc.reserved b payload (.error e), s.threads.mem) = (pc', mem'))
        (he : e = .FailedReservation ∨ e = .EncounteredSealedBuffer) (hl : s.loop t = .reserving) :
        Stalled { s with
            threads := { s.threads.record (s.threads.pc t) pc' with
              mem := mem', pc := Function.update s.threads.pc t pc' } } ∧
          Stuck s { s with
            threads := { s.threads.record (s.threads.pc t) pc' with
              mem := mem', pc := Function.update s.threads.pc t pc' } } := by
      cases hnext
      rw [hpc]
      refine h.moved (t := t) (l := .reserving) rfl rfl ?_ (fun _ _ => rfl) (.refused he) fun _ h => by cases h
      rw [← hl, Function.update_eq_self]
    generalize hl : s.loop t = l at hspins hfails
    generalize hpc : s.threads.pc t = pc at hspins hnext hfails
    cases hspins with
    | out => cases hnext
    | fetch => cases hnext
    | reserve hheld hclosed => cases hnext
    | @loads b payload hclosed =>
      simp only [next, reserve_decision_closed hclosed] at hnext
      exact hfails rfl (Option.some.inj hnext) (.inr rfl) rfl
    | exchanges hmoved =>
      simp only [next, if_neg hmoved] at hnext
      exact hfails rfl (Option.some.inj hnext) (.inl rfl) rfl
    | refused he => cases hnext
  · cases ha

/-- Nothing frees the current buffer, whoever steps. -/
theorem Stalled.step {a : Action T} (h : Stalled s) (hstep : s.step options a = some s') :
    Stalled s' ∧ Stuck s s' := by
  cases a with
  | log_message t payload =>
    unfold Logger.step at hstep
    dsimp only at hstep
    split at hstep
    next hout =>
      obtain ⟨pc', hentry, rfl⟩ := call_cases hstep
      have hspins := h.spins t
      rw [hout] at hspins
      generalize hpc : s.threads.pc t = pc at hspins hentry
      cases hspins
      cases hentry
      exact h.moved (t := t) rfl rfl rfl (fun _ _ => rfl) .fetch fun hin _ => hin hout
    next => cases hstep
  | go t => exact h.go hstep
  | run t ok =>
    obtain ⟨threads, hrun, rfl⟩ := Option.map_eq_some_iff.mp hstep
    exact h.run hrun
  | complete i result =>
    obtain ⟨threads, hcomplete, rfl⟩ := Option.map_eq_some_iff.mp hstep
    obtain ⟨t', c, pc, ha, -⟩ | ⟨t', ok', pc', mem', ha, -⟩ | ⟨i', result', mem, ha, hmem, rfl⟩ :=
      Threads.step_cases hcomplete
    · cases ha
    · cases ha
    · cases ha
      obtain ⟨e, hget, hle, rfl⟩ := BufferRing.complete_cases hmem
      refine ⟨⟨h.current, fun t => ?_⟩, ⟨rfl, rfl, rfl, List.prefix_append _ _, fun _ h => h⟩⟩
      have hspins := h.spins t
      revert hspins
      dsimp only
      generalize s.loop t = l
      generalize s.threads.pc t = pc
      intro hspins
      cases hspins with
      | out => exact .out
      | fetch => exact .fetch
      | reserve hheld hclosed => exact .reserve hheld hclosed
      | loads hclosed => exact .loads hclosed
      | exchanges hmoved => exact .exchanges hmoved
      | refused he => exact .refused he

omit [DecidableEq T] in
/-- Between their calls of the ring, threads that would fetch a closed current buffer next are stalled. -/
theorem Stalled.of_idle (hclosed : (s.threads.mem.ring s.threads.mem.current_buffer).is_open = false)
    (hidle : ∀ t, (s.loop t = .out ∨ s.loop t = .fetch) ∧ s.threads.pc t = .idle) : Stalled s where
  current := hclosed
  spins t := by
    obtain ⟨hout | hfetch, hpc⟩ := hidle t
    · rw [hout, hpc]
      exact .out
    · rw [hfetch, hpc]
      exact .fetch

/-- Threads that only call `log_message` do not get a closed current buffer open again: whatever they and the
kernel do, no call that is under way returns, no buffer is reset and no completion is read. -/
theorem Stalled.reaches (h : Stalled s) (hreach : Reaches (Logger.step options) (fun _ _ => True) s s') :
    Stalled s' ∧ Stuck s s' := by
  induction hreach with
  | refl => exact ⟨h, .refl s⟩
  | tail a _ _ hstep ih =>
    obtain ⟨hstalled, hstuck⟩ := ih
    obtain ⟨hstalled', hstuck'⟩ := hstalled.step hstep
    exact ⟨hstalled', hstuck.trans hstuck'⟩

end Stall

end Logger

end FlushRing
