import FlushRing.Client.Machine
import FlushRing.Threads.Alone
import FlushRing.Threads.Bounds

open Transition

namespace FlushRing

variable {L : Nat}

namespace Pc

/-- What the client is doing when its thread pauses here. -/
def stage : Pc L → Stage L
  | .cqueDrain => .polling []
  | .cqueNext cqes => .polling cqes
  | _ => .between

/-- A thread that rests has left its call. -/
theorem pauses_of_rests {pc : Pc L} (h : pc.rests = true) : pc.pauses = true := by
  cases pc <;> first
    | rfl
    | cases h

/-- To the call-level client it is between two calls. -/
theorem stage_of_rests {pc : Pc L} (h : pc.rests = true) : pc.stage = .between := by
  cases pc <;> first
    | rfl
    | cases h

theorem next_of_rests {options : BufferRingOptions} {ok : Bool} {mem : BufferRing L} {pc : Pc L}
    (h : pc.rests = true) : next options ok mem pc = none := by
  cases pc <;> first
    | rfl
    | cases h

end Pc

/-- After the rotation `put` goes on to its submit; `flush_current` has made its own. -/
def RotateCaller.submits : RotateCaller L → Bool
  | .put _ => true
  | .flush_current => false

/-- The call the thread is in has yet to make its submit, if it makes one. -/
def Pc.submits : Pc L → Bool
  | .putSeal _ => true
  | .putSize _ => true
  | .putClaim _ _ => true
  | .putStore _ _ => true
  | .putReload _ => true
  | .putWrite _ _ => true
  | .putDecrement _ => true
  | .putSetFlush _ => true
  | .rotateLoad caller _ => caller.submits
  | .rotateSize caller _ _ => caller.submits
  | .rotateNext caller _ _ _ => caller.submits
  | .rotateCheck caller _ _ _ _ => caller.submits
  | .rotateSwap caller _ _ _ => caller.submits
  | .rotateClaim caller _ _ => caller.submits
  | .rotateStore caller _ _ => caller.submits
  | .flushSet _ _ => true
  | .submitData _ _ => true
  | .submitOffset _ _ _ => true
  | .submitPush _ _ _ _ => true
  | .currentLoad => true
  | .currentSize _ => true
  | .currentSeal _ => true
  | .currentLen _ => true
  | .currentClaim _ _ => true
  | .currentStore _ _ => true
  | .cqueRetry _ _ _ => true
  | _ => false

section Inside
variable {options : BufferRingOptions} {ok : Bool} {mem mem' : BufferRing L} {pc pc' : Pc L}

/-- A call makes one submit: a step has the same effect whatever the outcome, or it is that submit. -/
theorem next_submits (h : next options ok mem pc = some (pc', mem')) (hpc : pc.pauses = false) :
    (∀ ok', next options ok' mem pc = some (pc', mem')) ∨ (pc.submits = true ∧ pc'.submits = false) := by
  cases pc
  case submitPush caller b data_len offset =>
    refine .inr ⟨rfl, ?_⟩
    simp only [next] at h
    split at h
    next store _ =>
      cases h
      cases caller <;> rfl
    next => cases h
  case cqueRetry cqe b rest =>
    cases h
    exact .inr ⟨rfl, rfl⟩
  case rotateNext caller current size left => cases left <;> exact .inl fun _ => h
  case cqueNext cqes => cases hpc
  all_goals exact .inl fun _ => h

/-- No submit is made after that one. -/
theorem next_submitted (h : next options ok mem pc = some (pc', mem')) (hpc : pc.pauses = false)
    (hsubmits : pc.submits = false) : pc'.submits = false := by
  have hstep := next_advances h
  cases hstep
  case rotated_before caller _ _ _ => cases caller <;> first
    | rfl
    | cases hsubmits
  case rotate_exhausted caller _ _ => cases caller <;> first
    | rfl
    | cases hsubmits
  case rotate_stored caller _ _ => cases caller <;> first
    | rfl
    | cases hsubmits
  case address_reset caller b =>
    cases caller with
    | put call => rfl
    | flush caller => cases caller <;> rfl
    | check_cque cqe rest => rfl
  case cque_takes => cases hpc
  all_goals first
    | rfl
    | exact hsubmits
    | cases hsubmits

/-- Alone, a thread has come from `x` to `y` inside a call: whatever the outcome of the submit it is still to
make, or with the one it has had. -/
def Inside (options : BufferRingOptions) (x y : Pc L × BufferRing L) : Prop :=
  ∃ ok, StateTransition.Reaches (alone options ok) x y ∧
    (y.1.submits = true → ∀ ok', StateTransition.Reaches (alone options ok') x y)

/-- A call has begun where it was entered. -/
theorem Inside.start (x : Pc L × BufferRing L) : Inside options x x := ⟨true, .refl, fun _ _ => .refl⟩

/-- A step inside a call leads on from where it was entered. -/
theorem Inside.step {x : Pc L × BufferRing L} (h : Inside options x (pc, mem)) (hpc : pc.pauses = false)
    (hnext : next options ok mem pc = some (pc', mem')) : Inside options x (pc', mem') := by
  obtain ⟨had, hreach, hany⟩ := h
  have hmove {ok' : Bool} (h' : next options ok' mem pc = some (pc', mem'))
      (hreach' : StateTransition.Reaches (alone options ok') x (pc, mem)) :
      StateTransition.Reaches (alone options ok') x (pc', mem') :=
    hreach'.trans (alone_first hpc h' .refl)
  obtain hsame | ⟨hsubmits, hdone⟩ := next_submits hnext hpc
  · refine ⟨had, hmove (hsame had) hreach, fun hsubmits' ok' => ?_⟩
    have hsubmits : pc.submits = true := by
      by_contra hnot
      have hdone := next_submitted hnext hpc (Bool.eq_false_iff.mpr hnot)
      cases hsubmits'.symm.trans hdone
    exact hmove (hsame ok') (hany hsubmits ok')
  · refine ⟨ok, hmove hnext (hany hsubmits ok), fun hsubmits' => ?_⟩
    cases hsubmits'.symm.trans hdone

end Inside

/-- The call of the client that goes with a reservation. -/
def Pc.holding : Pc L → Option (PutCall L)
  | .reserved b payload result => some { current := b, reserve_result := result, payload }
  | _ => none

namespace Client

/-- What the calls `made` lead the client to do. -/
def performs (made : Call → Bool) : Action L → Bool
  | .reserve_space _ _ => made .reserve_space
  | .put _ _ => made .put
  | .flush _ _ => made .flush
  | .flush_current _ => made .flush_current
  | .check_cque => made .check_cque
  | .resume _ => true
  | .complete _ _ => true
  | _ => false

end Client

/-- The calls whose bodies are more than one access, with the program point they start at and where the
client stands until they end. `owned` are the client's reservations and the threads that hold them. -/
inductive Begun {T : Type} (options : BufferRingOptions) (made : Call → Bool) (owned : List (T × PutCall L))
    (t : T) : Stage L → Pc L → Prop where
  | reserve_space {b : Fin L} {payload : Slice} (hmade : made .reserve_space = true)
      (hlen : payload.len ≤ ONE_MEGABYTE_BLOCK) :
      Begun options made owned t .between (.reserveLoad b payload)
  | put {call : PutCall L} (hmade : made .put = true) (hcall : (t, call) ∈ owned) :
      Begun options made owned t .between (Pc.putEntry call)
  | flush {b : Fin L} (hmade : made .flush = true) :
      Begun options made owned t .between (.flushSet .client b)
  | flush_current (hmade : made .flush_current = true) :
      Begun options made owned t .between .currentLoad
  | handle {cqe : Cqe L} {rest : List (Cqe L)} :
      Begun options made owned t (.polling (cqe :: rest)) (Pc.cqueEntry options cqe rest)

section Ends
variable {T : Type} {options : BufferRingOptions} {made : Call → Bool} {owned : List (T × PutCall L)} {t : T}
  {c : Client L} {mem : BufferRing L} {pc₀ pc : Pc L}

/-- When a call ends, the client can take it as one step, to the same memory and the same reservations. -/
theorem Begun.ends (hbegun : Begun options made owned t c.stage pc₀)
    (hinside : Inside options (pc₀, c.mem) (pc, mem)) (hpauses : pc.pauses = true)
    (hcalls : c.calls = owned.map Prod.snd) :
    ∃ (a : Client.Action L) (c' : Client L) (owned' : List (T × PutCall L)),
      Client.performs made a = true ∧ Client.step options c a = some c' ∧ c'.mem = mem ∧ c'.stage = pc.stage ∧
      c'.calls = owned'.map Prod.snd ∧ (∀ x ∈ owned, x.1 ≠ t → x ∈ owned') ∧ ∀ call, pc.holding = some call → (t, call) ∈ owned' := by
  obtain ⟨ok, hreach, _⟩ := hinside
  have hends {pc' : Pc L} {mem' : BufferRing L}
      (halone : StateTransition.Reaches (alone options ok) (pc₀, c.mem) (pc', mem'))
      (hpauses' : pc'.pauses = true) : pc = pc' ∧ mem = mem' :=
    Prod.mk.inj (alone_unique hreach halone hpauses hpauses')
  generalize hstage : c.stage = stage at hbegun
  cases hbegun with
  | @reserve_space b payload hmade hlen =>
    obtain ⟨⟨result, after⟩, hreserve⟩ : ∃ r, (c.mem.ring b).reserve_space payload.len = some r := by
      unfold FlushBuffer.reserve_space
      rw [if_pos hlen]
      split <;> exact ⟨_, rfl⟩
    obtain ⟨rfl, rfl⟩ := hends (reserve_space_alone b payload hreserve) rfl
    let held : PutCall L := { current := b, reserve_result := result, payload }
    refine ⟨.reserve_space b payload, { c with mem := c.mem.modify b fun _ => after, calls := c.calls ++ [held] },
      owned ++ [(t, held)], hmade, ?_, rfl, hstage, ?_, fun x hx _ => List.mem_append_left _ hx,
      fun call hcall => ?_⟩
    · simp only [Client.step, hstage, Client.reserve_space, hreserve, held]
    · simp only [hcalls, List.map_append, List.map_cons, List.map_nil]
    · obtain rfl : held = call := Option.some.inj hcall
      exact List.mem_append_right _ List.mem_cons_self
  | @put call hmade hcall =>
    obtain ⟨rfl, rfl⟩ := hends (put_alone call c.mem) rfl
    obtain ⟨i, hi⟩ := List.getElem?_of_mem hcall
    have hcall' : c.calls[i]? = some call := by
      rw [hcalls, List.getElem?_map, hi]
      rfl
    refine ⟨.put i ok, { c with
        mem := (c.mem.put options ok call.current call.reserve_result call.payload).2,
        calls := c.calls.eraseIdx i }, owned.eraseIdx i, hmade, ?_, rfl, hstage, ?_, fun x hx hne => ?_,
      fun call hcall => ?_⟩
    · simp only [Client.step, hstage, Client.put, hcall']
    · simp only [hcalls, List.eraseIdx_map]
    · obtain ⟨j, hj⟩ := List.getElem?_of_mem hx
      refine List.mem_eraseIdx_iff_getElem?.mpr ⟨j, ?_, hj⟩
      rintro rfl
      rw [hi] at hj
      exact hne (congrArg Prod.fst (Option.some.inj hj)).symm
    · cases hcall
  | @flush b hmade =>
    obtain ⟨rfl, rfl⟩ := hends (flush_alone .client b c.mem) rfl
    refine ⟨.flush b ok, { c with mem := c.mem.flush options ok b }, owned, hmade, ?_, rfl, hstage, hcalls,
      fun x hx _ => hx, fun call hcall => ?_⟩
    · simp only [Client.step, hstage]
    · cases hcall
  | flush_current hmade =>
    obtain ⟨rfl, rfl⟩ := hends (flush_current_alone c.mem) rfl
    refine ⟨.flush_current ok, { c with mem := (c.mem.flush_current options ok).2 }, owned, hmade, ?_, rfl,
      hstage, hcalls, fun x hx _ => hx, fun call hcall => ?_⟩
    · simp only [Client.step, hstage]
    · cases hcall
  | @handle cqe rest =>
    obtain ⟨rfl, rfl⟩ := hends (handle_cqe_alone cqe rest c.mem) rfl
    refine ⟨.resume ok, c.handle options ok cqe rest, owned, rfl, ?_, rfl, rfl, hcalls, fun x hx _ => hx,
      fun call hcall => ?_⟩
    · simp only [Client.step, Client.resume, hstage]
    · cases hcall

end Ends

namespace Threads
variable {T : Type} [DecidableEq T]

/-- Calls do not overlap and are among those `made`: a thread enters one while all are between calls, and the
kernel answers while nobody is inside a call. -/
def serial (made : Call → Bool) (s : Threads T L) : Action T → Prop
  | .call _ c => made c = true ∧ ∀ t, (s.pc t).rests = true
  | .run _ _ => True
  | .complete _ _ => ∀ t, (s.pc t).pauses = true

instance [Fintype T] (made : Call → Bool) (s : Threads T L) : (a : Action T) → Decidable (serial made s a)
  | .call _ c => inferInstanceAs (Decidable (made c = true ∧ ∀ t, (s.pc t).rests = true))
  | .run _ _ => instDecidableTrue
  | .complete _ _ => inferInstanceAs (Decidable (∀ t, (s.pc t).pauses = true))

/-- The threads have come as far as the client, but for the call that `t` may be inside of. -/
structure Follows (options : BufferRingOptions) (made : Call → Bool) (mem : BufferRing L) (pc : T → Pc L)
    (c : Client L) (t : T) (owned : List (T × PutCall L)) : Prop where
  others : ∀ t', t' ≠ t → (pc t').rests = true
  calls : c.calls = owned.map Prod.snd
  held : ∀ t' call, (pc t').holding = some call → (t', call) ∈ owned
  inside : ((pc t).pauses = true ∧ c.mem = mem ∧ c.stage = (pc t).stage) ∨
    ((pc t).pauses = false ∧ ∃ pc₀, Begun options made owned t c.stage pc₀ ∧
      Inside options (pc₀, c.mem) (pc t, mem))

/-- The client can make calls of its own to come as far as the threads. -/
def Followed (options : BufferRingOptions) (made : Call → Bool) (mem : BufferRing L) (pc : T → Pc L)
    (c : Client L) : Prop :=
  ∃ c' t owned, Reaches (Client.step options) (fun _ a => Client.performs made a = true) c c' ∧
    Follows options made mem pc c' t owned

section Steps
variable {options : BufferRingOptions} {made : Call → Bool} {mem mem' : BufferRing L} {pc : T → Pc L}
  {pc' : Pc L} {c c' : Client L} {t : T} {owned : List (T × PutCall L)}

/-- A thread inside a call has handed its reservation over. -/
theorem holding_of_runs {pc : Pc L} (hruns : pc.pauses = false) : pc.holding = none := by
  cases pc <;> first
    | rfl
    | cases hruns

omit [DecidableEq T] in
/-- Once the thread rests the call-level client has caught up. -/
theorem Follows.resting (h : Follows options made mem pc c t owned) (hpauses : (pc t).pauses = true) :
    c.mem = mem ∧ c.stage = (pc t).stage := by
  obtain ⟨_, hmem, hstage⟩ | ⟨hruns, _⟩ := h.inside
  · exact ⟨hmem, hstage⟩
  · cases hpauses.symm.trans hruns

/-- Where a thread has come to while the others were between calls, the client follows when it is inside the
thread's call. -/
theorem followed_of_inside {pc₀ : Pc L} (hothers : ∀ t', t' ≠ t → (pc t').rests = true)
    (hcalls : c.calls = owned.map Prod.snd)
    (hheld : ∀ t' call, t' ≠ t → (pc t').holding = some call → (t', call) ∈ owned)
    (hbegun : Begun options made owned t c.stage pc₀) (hinside : Inside options (pc₀, c.mem) (pc', mem)) :
    Followed options made mem (Function.update pc t pc') c := by
  have hmoved : ∀ t', t' ≠ t → Function.update pc t pc' t' = pc t' := fun t' ht => Function.update_of_ne ht _ _
  have hothers' : ∀ t', t' ≠ t → (Function.update pc t pc' t').rests = true := by
    intro t' ht
    rw [hmoved t' ht]
    exact hothers t' ht
  cases hpauses : pc'.pauses with
  | true =>
    obtain ⟨a, c', owned', hperforms, hstep, hmem, hstage, hcalls', hkept, hown⟩ :=
      hbegun.ends hinside hpauses hcalls
    refine ⟨c', t, owned', .tail a .refl hperforms hstep, hothers', hcalls', fun t' call hcall => ?_, .inl ?_⟩
    · by_cases ht : t' = t
      · subst t'
        rw [Function.update_self] at hcall
        exact hown call hcall
      · rw [hmoved t' ht] at hcall
        exact hkept _ (hheld t' call ht hcall) ht
    · rw [Function.update_self]
      exact ⟨hpauses, hmem, hstage⟩
  | false =>
    refine ⟨c, t, owned, .refl, hothers', hcalls, fun t' call hcall => ?_, .inr ?_⟩
    · by_cases ht : t' = t
      · subst t'
        rw [Function.update_self, holding_of_runs hpauses] at hcall
        cases hcall
      · rw [hmoved t' ht] at hcall
        exact hheld t' call ht hcall
    · rw [Function.update_self]
      exact ⟨hpauses, pc₀, hbegun, hinside⟩

/-- And when it is between accesses of its own. -/
theorem followed_of_pauses
    (hreach : Reaches (Client.step options) (fun _ a => Client.performs made a = true) c c')
    (hothers : ∀ t', t' ≠ t → (pc t').rests = true) (hcalls : c'.calls = owned.map Prod.snd)
    (hheld : ∀ t' call, t' ≠ t → (pc t').holding = some call → (t', call) ∈ owned)
    (hpauses : pc'.pauses = true) (hown : pc'.holding = none) (hmem : c'.mem = mem)
    (hstage : c'.stage = pc'.stage) : Followed options made mem (Function.update pc t pc') c := by
  have hmoved : ∀ t', t' ≠ t → Function.update pc t pc' t' = pc t' := fun t' ht => Function.update_of_ne ht _ _
  refine ⟨c', t, owned, hreach, fun t' ht => ?_, hcalls, fun t' call hcall => ?_, .inl ?_⟩
  · rw [hmoved t' ht]
    exact hothers t' ht
  · by_cases ht : t' = t
    · subst t'
      rw [Function.update_self, hown] at hcall
      cases hcall
    · rw [hmoved t' ht] at hcall
      exact hheld t' call ht hcall
  · rw [Function.update_self]
    exact ⟨hpauses, hmem, hstage⟩

/-- A thread enters a call while nobody is inside one. -/
theorem Follows.call {t' : T} {call : Call} {held : Option (Fin L)} {msg : Option Slice}
    (h : Follows options made mem pc c t owned) (hmade : made call = true)
    (hbetween : ∀ t, (pc t).rests = true) (hentry : entry options held msg call (pc t') = some pc') :
    Followed options made mem (Function.update pc t' pc') c := by
  obtain ⟨hmem, hstage⟩ := h.resting (Pc.pauses_of_rests (hbetween t))
  rw [Pc.stage_of_rests (hbetween t)] at hstage
  have hothers : ∀ t₁, t₁ ≠ t' → (pc t₁).rests = true := fun t₁ _ => hbetween t₁
  have hheld : ∀ t₁ call, t₁ ≠ t' → (pc t₁).holding = some call → (t₁, call) ∈ owned :=
    fun t₁ call _ => h.held t₁ call
  have hbegins (hbegun : Begun options made owned t' .between pc') :
      Followed options made mem (Function.update pc t' pc') c := by
    rw [← hstage] at hbegun
    refine followed_of_inside hothers h.calls hheld hbegun ?_
    rw [hmem]
    exact Inside.start _
  have hidles (hidle : pc' = .idle) : Followed options made mem (Function.update pc t' pc') c := by
    subst pc'
    exact followed_of_pauses .refl hothers h.calls hheld rfl rfl hmem hstage
  have hentered := entry_entered hentry
  have hholding := h.held t'
  generalize pc t' = old at hentry hentered hholding
  cases hentered with
  | take payload => exact hidles rfl
  | current_buffer => exact hidles rfl
  | reserve_space hb hmsg hlen => exact hbegins (.reserve_space hmade hlen)
  | put b payload result => exact hbegins (.put hmade (hholding _ rfl))
  | flush_current => exact hbegins (.flush_current hmade)
  | flush hb => exact hbegins (.flush hmade)
  | check_cque =>
    obtain ⟨store, hstore, _⟩ := Option.map_eq_some_iff.mp hentry
    have hstep : Client.step options c .check_cque = some { c with stage := .polling [] } := by
      simp only [Client.step, hstage, hstore, Option.map_some]
    exact followed_of_pauses (.tail .check_cque .refl hmade hstep) hothers h.calls hheld rfl rfl hmem rfl
  | finish_reserved b payload e => exact hidles rfl
  | finish_returned call result => exact hidles rfl

/-- Only the thread inside a call takes steps of its own. -/
theorem Follows.run {t' : T} {ok : Bool} (h : Follows options made mem pc c t owned)
    (hnext : next options ok mem (pc t') = some (pc', mem')) :
    Followed options made mem' (Function.update pc t' pc') c := by
  obtain rfl : t' = t := by
    by_contra hne
    rw [Pc.next_of_rests (h.others t' hne)] at hnext
    cases hnext
  have hheld : ∀ t₁ call, t₁ ≠ t' → (pc t₁).holding = some call → (t₁, call) ∈ owned :=
    fun t₁ call _ => h.held t₁ call
  obtain ⟨hpauses, hmem, hstage⟩ | ⟨hruns, pc₀, hbegun, hinside⟩ := h.inside
  · generalize pc t' = old at hnext hpauses hstage
    cases old with
    | cqueDrain =>
      have hstep : Client.step options c (.resume true) =
          some (c.drain fun cqes => if cqes.isEmpty then .between else .polling cqes) := by
        simp only [Client.step, Client.resume, hstage, Pc.stage]
      have hreach : Reaches (Client.step options) (fun _ a => Client.performs made a = true) c _ :=
        .tail (.resume true) .refl rfl hstep
      unfold next IoUring.drain at hnext
      dsimp only at hnext
      split at hnext
      next hnone =>
        cases hnext
        refine followed_of_pauses hreach h.others h.calls hheld rfl rfl ?_ ?_
        · rw [Client.drain, hmem]
          rfl
        · simp only [Client.drain, IoUring.drain, hmem, if_pos hnone]
          rfl
      next hnone =>
        cases hnext
        refine followed_of_pauses hreach h.others h.calls hheld rfl rfl ?_ ?_
        · rw [Client.drain, hmem]
          rfl
        · simp only [Client.drain, IoUring.drain, hmem, if_neg hnone]
          rfl
    | cqueNext cqes =>
      cases cqes with
      | nil =>
        cases hnext
        exact followed_of_pauses .refl h.others h.calls hheld rfl rfl hmem hstage
      | cons cqe rest =>
        cases hnext
        rw [← hmem]
        have hbegun : Begun options made owned t' c.stage (Pc.cqueEntry options cqe rest) := by
          rw [hstage]
          exact .handle
        exact followed_of_inside h.others h.calls hheld hbegun (Inside.start _)
    | idle | reserved | returned => cases hnext
    | _ => cases hpauses
  · exact followed_of_inside h.others h.calls hheld hbegun (hinside.step hruns hnext)

omit [DecidableEq T] in
/-- The kernel answers an entry while nobody is inside a call. -/
theorem Follows.complete {i : Nat} {result : Int} (h : Follows options made mem pc c t owned)
    (hpauses : ∀ t, (pc t).pauses = true) (hcomplete : mem.complete i result = some mem') :
    Followed options made mem' pc c := by
  obtain ⟨hmem, hstage⟩ := h.resting (hpauses t)
  refine ⟨{ c with mem := mem' }, t, owned, .tail (.complete i result) .refl rfl ?_, h.others, h.calls, h.held,
    .inl ⟨hpauses t, rfl, hstage⟩⟩
  simp only [Client.step, hmem, hcomplete, Option.map_some]

/-- A step of a call is matched when the call ends, by the call in one go. -/
theorem Follows.step {s s' : Threads T L} {a : Action T} (h : Follows options made s.mem s.pc c t owned)
    (hserial : serial made s a) (hstep : step options s a = some s') :
    Followed options made s'.mem s'.pc c := by
  obtain ⟨t', call, pc, rfl, hentry, rfl⟩ | ⟨t', ok, pc, mem, rfl, hnext, rfl⟩ |
    ⟨i, result, mem, rfl, hmem, rfl⟩ := step_cases hstep
  · show Followed options made (s.note t' call).mem _ c
    rw [note_mem]
    exact h.call hserial.1 hserial.2 hentry
  · exact h.run hnext
  · exact h.complete hserial hmem

/-- Every run of the atomic steps in which calls do not overlap is a run of whole calls: when the threads have
come to rest, calls of the same kinds, each made in one step, leave the ring, its queues and the file the same,
and the reservations the threads hold are among those the client has yet to hand to `put`. -/
theorem calls_in_series [Nonempty T] {s : Threads T L}
    (h : Reaches (Threads.step options) (serial made) (init mem) s) (hpauses : ∀ t, (s.pc t).pauses = true) :
    ∃ c : Client L, Reaches (Client.step options) (fun _ a => Client.performs made a = true) (Client.init mem) c ∧
      c.mem = s.mem ∧ (∃ t, c.stage = (s.pc t).stage ∧ ∀ t', t' ≠ t → (s.pc t').rests = true) ∧
      ∀ t call, (s.pc t).holding = some call → call ∈ c.calls := by
  have hfollowed : Followed options made s.mem s.pc (Client.init mem) := by
    refine h.invariant (P := fun s => Followed options made s.mem s.pc (Client.init mem)) ?_ ?_
    · rintro s a s' ⟨c, t, owned, hreach, hfollows⟩ hserial hstep
      obtain ⟨c', t', owned', hreach', hfollows'⟩ := hfollows.step hserial hstep
      exact ⟨c', t', owned', hreach.trans hreach', hfollows'⟩
    · obtain ⟨t⟩ := ‹Nonempty T›
      refine ⟨Client.init mem, t, [], .refl, fun _ _ => rfl, rfl, fun t' call hcall => ?_, .inl ⟨rfl, rfl, rfl⟩⟩
      cases hcall
  obtain ⟨c, t, owned, hreach, hfollows⟩ := hfollowed
  obtain ⟨hmem, hstage⟩ := hfollows.resting (hpauses t)
  refine ⟨c, hreach, hmem, ⟨t, hstage, hfollows.others⟩, fun t' call hcall => ?_⟩
  rw [hfollows.calls]
  exact List.mem_map_of_mem (hfollows.held t' call hcall)

end Steps

/-- Two threads log in turn on a ring of one buffer: the second one's payload does not fit, so it seals and
submits, and the first one handles the completion. -/
def inTurns : List (Action (Fin 2)) :=
  attempt 0 (zeros ONE_MEGABYTE_BLOCK) 2 2 ++ [.call 0 .finish] ++ attempt 1 (zeros 1) 1 15 ++
    [.call 1 .finish, .complete 0 1048576, .call 0 .check_cque] ++ steps 0 5

theorem calls_in_series_inTurns :
    ∃ (s : Threads (Fin 2) 1) (c : Client 1),
      Reaches (Client.step storeOptions) (fun _ a => Client.performs (fun _ => true) a = true)
        (Client.init (.with_options storeOptions)) c ∧ c.mem = s.mem ∧ s.mem.io.completed.length = 1 := by
  have hrun : (exec (Threads.step storeOptions) (serial fun _ => true) inTurns
      (init (T := Fin 2) (L := 1) (.with_options storeOptions))).any
      (fun s => decide ((∀ t, (s.pc t).pauses = true) ∧ s.mem.io.completed.length = 1)) = true := by
    decide +kernel
  obtain ⟨s, hreach, hcheck⟩ := exists_of_exec hrun
  obtain ⟨hpauses, hcompleted⟩ := of_decide_eq_true hcheck
  obtain ⟨c, hclient, hmem, _⟩ := calls_in_series hreach hpauses
  exact ⟨s, c, hclient, hmem, hcompleted⟩

end Threads

end FlushRing
