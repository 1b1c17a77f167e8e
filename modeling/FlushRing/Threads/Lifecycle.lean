import FlushRing.Threads.Acknowledge
import FlushRing.Threads.Reservations

open Transition

namespace FlushRing

variable {L : Nat}

/-- What makes a call responsible for the flush of a buffer while it has not yet set the flush bit:
it sealed the buffer (`sealing`), it did and then saw no writer (`drained`), it was the last writer of
the sealed buffer (`last`), or it is `flush_current` and has sealed the buffer (`seizing`). -/
inductive Role where
  | sealing
  | drained
  | last
  | seizing
  deriving DecidableEq

def RotateCaller.role : RotateCaller L → Option (Fin L × Role)
  | .put call => some (call.current, .sealing)
  | .flush_current => none

def PutCall.role (call : PutCall L) : Role :=
  match call.reserve_result with
  | .ok _ => .last
  | .error _ => .drained

namespace Pc

/-- The buffer a thread is deciding on, with its role. -/
def role : Pc L → Option (Fin L × Role)
  | .putSize call => some (call.current, .sealing)
  | .putClaim call _ => some (call.current, .sealing)
  | .putStore call _ => some (call.current, .sealing)
  | .putReload call => some (call.current, .sealing)
  | .rotateLoad caller _ => caller.role
  | .rotateSize caller _ _ => caller.role
  | .rotateNext caller _ _ _ => caller.role
  | .rotateCheck caller _ _ _ _ => caller.role
  | .rotateSwap caller _ _ _ => caller.role
  | .rotateClaim caller _ _ => caller.role
  | .rotateStore caller _ _ => caller.role
  | .putSetFlush call => some (call.current, call.role)
  | .currentLen b => some (b, .seizing)
  | .currentClaim b _ => some (b, .seizing)
  | .currentStore b _ => some (b, .seizing)
  | .flushSet .flush_current b => some (b, .seizing)
  | _ => none

section Continuations

theorem role_putEntry (call : PutCall L) : (putEntry call).role = none := by
  unfold putEntry
  split <;> rfl

theorem role_afterRotate (caller : RotateCaller L) : (afterRotate caller).role = caller.role := by
  cases caller <;> rfl

theorem role_afterFlush (b : Fin L) (caller : FlushCaller L) : (afterFlush b caller).role = none := by
  cases caller <;> rfl

theorem role_afterReset (b : Fin L) (caller : ResetCaller L) : (afterReset b caller).role = none := by
  cases caller with
  | put call => rfl
  | flush caller => exact role_afterFlush b caller
  | check_cque cqe rest => rfl

theorem role_afterOwning (options : BufferRingOptions) (call : PutCall L) :
    (afterOwning options call).role = none := by
  unfold afterOwning
  repeat' split
  all_goals rfl

theorem role_cqueEntry (options : BufferRingOptions) (cqe : Cqe L) (rest : List (Cqe L)) :
    (cqueEntry options cqe rest).role = none := by
  unfold cqueEntry
  repeat' split
  all_goals rfl

end Continuations

end Pc

theorem Entered.role {held : Option (Fin L)} {msg : Option Slice} {c : Call} {pc pc' : Pc L}
    (h : Entered held msg c pc pc') : pc'.role = none := by
  cases h
  case put b payload result => exact Pc.role_putEntry _
  all_goals rfl

/-- A thread comes to decide on a buffer by sealing it or by being its last writer; the sealer of `put`
changes its role once when it sees no writer. -/
theorem Advances.role {options : BufferRingOptions} {mem : BufferRing L} {pc pc' : Pc L} {b : Fin L}
    {r : Role} (h : Advances options mem pc pc') (hfits : pc.Fits) (hrole : pc'.role = some (b, r)) :
    pc.role = some (b, r) ∨
    (r = .sealing ∧ (∃ call, pc = .putSeal call ∧ call.current = b) ∧
      state_sealed (mem.ring b).state = false) ∨
    (r = .drained ∧ pc.role = some (b, .sealing) ∧ state_writers (mem.ring b).state = 0) ∨
    (r = .last ∧ pc.Releases b ∧ state_writers (mem.ring b).state = 1 ∧
      state_sealed (mem.ring b).state = true) ∨
    (r = .seizing ∧ pc = .currentSeal b) := by
  cases h
  case seal_won call hopen =>
    obtain ⟨rfl, rfl⟩ := Prod.mk.inj (Option.some.inj hrole)
    exact .inr (.inl ⟨rfl, ⟨call, rfl, rfl⟩, hopen⟩)
  case put_drained call hwriters =>
    obtain ⟨rfl, rfl⟩ := Prod.mk.inj (Option.some.inj hrole)
    have hresult : call.reserve_result = .error .InsufficientSpace := hfits call rfl
    exact .inr (.inr (.inl ⟨by rw [PutCall.role, hresult], rfl, hwriters⟩))
  case last_writer call hwriters hsealed =>
    obtain ⟨rfl, rfl⟩ := Prod.mk.inj (Option.some.inj hrole)
    obtain ⟨offset, hresult⟩ : ∃ offset, call.reserve_result = .ok offset := hfits call rfl
    exact .inr (.inr (.inr (.inl ⟨by rw [PutCall.role, hresult], rfl, hwriters, hsealed⟩)))
  case current_sealed b' =>
    obtain ⟨rfl, rfl⟩ := Prod.mk.inj (Option.some.inj hrole)
    exact .inr (.inr (.inr (.inr ⟨rfl, rfl⟩)))
  case flush_won call _ =>
    rw [Pc.role_afterOwning] at hrole
    cases hrole
  case rotated_before caller _ _ _ =>
    rw [Pc.role_afterRotate] at hrole
    exact .inl hrole
  case rotate_exhausted caller _ _ =>
    rw [Pc.role_afterRotate] at hrole
    exact .inl hrole
  case rotate_stored caller _ _ =>
    rw [Pc.role_afterRotate] at hrole
    exact .inl hrole
  case submit_pushed caller b' _ _ =>
    rw [Pc.role_afterFlush] at hrole
    cases hrole
  case address_reset caller b' =>
    rw [Pc.role_afterReset] at hrole
    cases hrole
  case cque_takes cqe rest =>
    rw [Pc.role_cqueEntry] at hrole
    cases hrole
  all_goals first
    | exact .inl hrole
    | cases hrole

/-- The exchange of `reserve_space` fails on a sealed buffer. -/
theorem Pc.not_grants {pc : Pc L} {b : Fin L} {w : Usize} (hpc : pc.WellFormed)
    (hsealed : state_sealed w = true) : ¬ pc.Grants b w := by
  intro hg
  cases pc
  case reserveExchange b' payload state offset new =>
    obtain ⟨rfl, rfl⟩ := hg
    obtain ⟨hopen, _⟩ := FlushBuffer.reserve_decision_ok hpc
    rw [hsealed] at hopen
    cases hopen
  all_goals cases hg

section Steps
variable {options : BufferRingOptions} {ok : Bool} {mem mem' : BufferRing L} {pc pc' : Pc L} {b : Fin L}

/-- Only a reset unseals a buffer. -/
theorem next_stays_sealed (hpc : pc.WellFormed) (hreset : ¬ pc.Resets b)
    (hsealed : state_sealed (mem.ring b).state = true)
    (h : next options ok mem pc = some (pc', mem')) : state_sealed (mem'.ring b).state = true := by
  rw [next_sealed b h hpc, hsealed]
  cases pc
  case resetState caller b' =>
    have hne : b' ≠ b := hreset
    simp [Pc.sealedAfter, hne]
  all_goals rfl

/-- The flush bit of `b` is turned on by `set_flush_in_progress` only. -/
theorem next_flush_set (hpc : pc.WellFormed)
    (hset : state_flush_in_progress (mem'.ring b).state = true)
    (h : next options ok mem pc = some (pc', mem')) :
    ¬ pc.Resets b ∧ (state_flush_in_progress (mem.ring b).state = true ∨
      (∃ call, pc = .putSetFlush call ∧ call.current = b) ∨ ∃ caller, pc = .flushSet caller b) := by
  rw [next_flushing b h hpc] at hset
  cases pc
  case putSetFlush call =>
    refine ⟨id, ?_⟩
    simp only [Pc.flushingAfter, Bool.or_eq_true, decide_eq_true_eq] at hset
    exact hset.imp_right fun hb => .inl ⟨call, rfl, hb⟩
  case flushSet caller b' =>
    refine ⟨id, ?_⟩
    simp only [Pc.flushingAfter, Bool.or_eq_true, decide_eq_true_eq] at hset
    obtain hset | rfl := hset
    · exact .inl hset
    · exact .inr (.inr ⟨caller, rfl⟩)
  case resetState caller b' =>
    simp only [Pc.flushingAfter, Bool.and_eq_true, decide_eq_true_eq] at hset
    exact ⟨hset.2, .inl hset.1⟩
  all_goals exact ⟨id, .inl hset⟩

end Steps

section Orderly
variable {T : Type} {mem mem' : BufferRing L} {pc : T → Pc L} {b : Fin L} {t : T} {pc' : Pc L}

/-- The order in which a buffer is sealed, drained and flushed: whoever decides on a buffer finds it
sealed and, unless it is still the sealer, without writers; there is one sealer; a buffer being seized
by `flush_current` has no other flusher; and a flush in progress is one of a sealed, drained buffer. -/
structure Orderly (mem : BufferRing L) (pc : T → Pc L) (b : Fin L) : Prop where
  sealed : ∀ t r, (pc t).role = some (b, r) → state_sealed (mem.ring b).state = true
  sealer : ∀ t t' r r', (pc t).role = some (b, r) → (pc t').role = some (b, r') →
    r ≠ .last → r' ≠ .last → t = t'
  drained : ∀ t r, (pc t).role = some (b, r) → r ≠ .sealing →
    state_writers (mem.ring b).state = 0
  seizing : ∀ t, (pc t).role = some (b, .seizing) →
    state_flush_in_progress (mem.ring b).state = false ∧ ∀ t', (pc t').role ≠ some (b, .last)
  flushing : state_flush_in_progress (mem.ring b).state = true →
    state_sealed (mem.ring b).state = true ∧ state_writers (mem.ring b).state = 0

/-- An open word before any call. -/
theorem Orderly.of_zero (hword : (mem.ring b).state = 0) :
    Orderly mem (fun _ : T => Pc.idle) b where
  sealed _ _ h := by cases h
  sealer _ _ _ _ h := by cases h
  drained _ _ h := by cases h
  seizing _ h := by cases h
  flushing h := by
    rw [hword] at h
    cases h

/-- A completion changes no word. -/
theorem Orderly.complete (hs : Orderly mem pc b) {i : Nat} {result : Int}
    (h : mem.complete i result = some mem') : Orderly mem' pc b := by
  obtain ⟨e, _, _, rfl⟩ := BufferRing.complete_cases h
  exact ⟨hs.sealed, hs.sealer, hs.drained, hs.seizing, hs.flushing⟩

variable [DecidableEq T]

/-- A role after a step is one held before it, or the one the stepping thread has taken up. -/
theorem role_update (t' : T) (r : Role) (h : (Function.update pc t pc' t').role = some (b, r)) :
    (t' = t ∧ pc'.role = some (b, r)) ∨ (t' ≠ t ∧ (pc t').role = some (b, r)) :=
  Threads.update_cases (p := fun pc => pc.role = some (b, r)) h

/-- A thread that decides on nothing after its step leaves the order as it was. -/
theorem Orderly.call (hs : Orderly mem pc b) (hrole : pc'.role = none) :
    Orderly mem (Function.update pc t pc') b := by
  have hbefore (t' : T) (r : Role) (h : (Function.update pc t pc' t').role = some (b, r)) :
      (pc t').role = some (b, r) := by
    obtain ⟨_, hnew⟩ | ⟨_, hold⟩ := role_update t' r h
    · rw [hrole] at hnew
      cases hnew
    · exact hold
  exact {
    sealed := fun t' r h => hs.sealed t' r (hbefore t' r h)
    sealer := fun t₁ t₂ r₁ r₂ h₁ h₂ => hs.sealer t₁ t₂ r₁ r₂ (hbefore t₁ r₁ h₁) (hbefore t₂ r₂ h₂)
    drained := fun t' r h => hs.drained t' r (hbefore t' r h)
    seizing := fun t' h =>
      ⟨(hs.seizing t' (hbefore t' _ h)).1, fun t'' h' => (hs.seizing t' (hbefore t' _ h)).2 t''
        (hbefore t'' _ h')⟩
    flushing := hs.flushing }

end Orderly

section Run
variable {T : Type} [Fintype T] [DecidableEq T] {options : BufferRingOptions} {ok : Bool}
variable {mem mem' : BufferRing L} {pc : T → Pc L} {b : Fin L} {t : T} {pc' : Pc L}

/-- What one step must respect for the order around `b` to survive it. -/
structure Respects (mem : BufferRing L) (pc : T → Pc L) (b : Fin L) (t : T) : Prop where
  reset : (pc t).Resets b → ∀ t' r, (pc t').role ≠ some (b, r)
  seize : pc t = .currentSeal b → state_sealed (mem.ring b).state = false ∧
    state_flush_in_progress (mem.ring b).state = false ∧ state_writers (mem.ring b).state = 0
  flush : ∀ caller, pc t = .flushSet caller b → caller ≠ .flush_current →
    state_flush_in_progress (mem.ring b).state = true

omit [DecidableEq T] in
/-- A sealed buffer without writers stays without writers until it is reset. -/
theorem next_stays_drained (hbalanced : Balanced mem pc b) (hpc : (pc t).WellFormed)
    (hreset : ¬ (pc t).Resets b) (hsealed : state_sealed (mem.ring b).state = true)
    (hzero : state_writers (mem.ring b).state = 0)
    (h : next options ok mem (pc t) = some (pc', mem')) :
    state_writers (mem'.ring b).state = 0 := by
  have hrelease : ¬ (pc t).Releases b := by
    intro hr
    have hpos := hbalanced.counted (Pc.holds_of_releases hr)
    rw [hzero] at hpos
    exact absurd hpos (Nat.lt_irrefl 0)
  rw [(next_counts b h (Pc.not_grants hpc hsealed) hrelease hreset).1, hzero]

omit [DecidableEq T] in
/-- The offset of a sealed buffer stays until it is reset: the exchange of `reserve_space` fails on it, and
a writer that leaves is counted in its word. -/
theorem next_keeps_offset (hbalanced : Balanced mem pc b) (hpc : (pc t).WellFormed)
    (hreset : ¬ (pc t).Resets b) (hsealed : state_sealed (mem.ring b).state = true)
    (h : next options ok mem (pc t) = some (pc', mem')) :
    state_offset (mem'.ring b).state = state_offset (mem.ring b).state := by
  by_cases hr : (pc t).Releases b
  · rw [next_released b h hr, state_offset_sub_writer _ (hbalanced.counted (Pc.holds_of_releases hr))]
  · exact (next_counts b h (Pc.not_grants hpc hsealed) hr hreset).2

omit [Fintype T] [DecidableEq T] in
/-- A buffer that a thread has a part in is not reset. -/
theorem Respects.not_reset (hrespects : Respects mem pc b t) {t' : T} {r : Role}
    (hrole : (pc t').role = some (b, r)) : ¬ (pc t).Resets b :=
  fun hz => hrespects.reset hz t' r hrole

omit [Fintype T] in
/-- Whoever has a part in the flush of a buffer finds it sealed. -/
theorem Orderly.sealed_run (hs : Orderly mem pc b) (hpc : (pc t).WellFormed) (hfits : (pc t).Fits)
    (hrespects : Respects mem pc b t) (h : next options ok mem (pc t) = some (pc', mem')) (t' : T)
    (r : Role) (hrole : (Function.update pc t pc' t').role = some (b, r)) :
    state_sealed (mem'.ring b).state = true := by
  obtain ⟨rfl, hnew⟩ | ⟨_, hold⟩ := role_update t' r hrole
  · obtain hkeep | ⟨_, ⟨call, hput, rfl⟩, _⟩ | ⟨_, hkeep, _⟩ | ⟨_, hrelease, _, hsealed⟩ |
      ⟨_, hcurrent⟩ := (next_advances h).role hfits hnew
    · exact next_stays_sealed hpc (hrespects.not_reset hkeep) (hs.sealed t' r hkeep) h
    · rw [next_sealed _ h hpc, hput]
      simp [Pc.sealedAfter]
    · exact next_stays_sealed hpc (hrespects.not_reset hkeep) (hs.sealed t' _ hkeep) h
    · refine next_stays_sealed hpc ?_ hsealed h
      generalize pc t' = p at hrelease
      cases p
      case putDecrement call => exact id
      all_goals cases hrelease
    · rw [next_sealed _ h hpc, hcurrent]
      simp [Pc.sealedAfter]
  · exact next_stays_sealed hpc (hrespects.not_reset hold) (hs.sealed t' r hold) h

omit [Fintype T] [DecidableEq T] in
/-- A thread that has just become responsible was the sealer before or finds the buffer open, when
nobody else is responsible. -/
theorem Orderly.sealer_new (hs : Orderly mem pc b) (hfits : (pc t).Fits)
    (hrespects : Respects mem pc b t) (h : next options ok mem (pc t) = some (pc', mem'))
    {r r' : Role} {t' : T} (hnew : pc'.role = some (b, r)) (hlast : r ≠ .last)
    (hold : (pc t').role = some (b, r')) (hlast' : r' ≠ .last) : t' = t := by
  obtain hkeep | ⟨_, _, hopen⟩ | ⟨_, hkeep, _⟩ | ⟨hr, _⟩ | ⟨_, hcurrent⟩ :=
    (next_advances h).role hfits hnew
  · exact hs.sealer t' t r' r hold hkeep hlast' hlast
  · rw [hs.sealed t' r' hold] at hopen
    cases hopen
  · exact hs.sealer t' t r' _ hold hkeep hlast' (by decide)
  · exact absurd hr hlast
  · obtain ⟨hopen, _⟩ := hrespects.seize hcurrent
    rw [hs.sealed t' r' hold] at hopen
    cases hopen

omit [Fintype T] in
/-- There is one sealer, whose part ends with the flush bit. -/
theorem Orderly.sealer_run (hs : Orderly mem pc b) (hfits : (pc t).Fits)
    (hrespects : Respects mem pc b t) (h : next options ok mem (pc t) = some (pc', mem'))
    (t₁ t₂ : T) (r₁ r₂ : Role) (h₁ : (Function.update pc t pc' t₁).role = some (b, r₁))
    (h₂ : (Function.update pc t pc' t₂).role = some (b, r₂)) (hlast₁ : r₁ ≠ .last)
    (hlast₂ : r₂ ≠ .last) : t₁ = t₂ := by
  obtain ⟨rfl, hnew₁⟩ | ⟨_, hold₁⟩ := role_update t₁ r₁ h₁
  · obtain ⟨rfl, _⟩ | ⟨_, hold₂⟩ := role_update t₂ r₂ h₂
    · rfl
    · exact (hs.sealer_new hfits hrespects h hnew₁ hlast₁ hold₂ hlast₂).symm
  · obtain ⟨rfl, hnew₂⟩ | ⟨_, hold₂⟩ := role_update t₂ r₂ h₂
    · exact hs.sealer_new hfits hrespects h hnew₂ hlast₂ hold₁ hlast₁
    · exact hs.sealer t₁ t₂ r₁ r₂ hold₁ hold₂ hlast₁ hlast₂

/-- Past the sealing nobody has a part in the flush of a buffer with writers. -/
theorem Orderly.drained_run (hs : Orderly mem pc b) (hbalanced : Balanced mem pc b)
    (hpc : (pc t).WellFormed) (hfits : (pc t).Fits) (hrespects : Respects mem pc b t)
    (h : next options ok mem (pc t) = some (pc', mem')) (t' : T) (r : Role)
    (hrole : (Function.update pc t pc' t').role = some (b, r)) (hr : r ≠ .sealing) :
    state_writers (mem'.ring b).state = 0 := by
  obtain ⟨rfl, hnew⟩ | ⟨_, hold⟩ := role_update t' r hrole
  · obtain hkeep | ⟨hseal, _⟩ | ⟨_, hkeep, hzero⟩ | ⟨_, hrelease, hone, _⟩ | ⟨_, hcurrent⟩ :=
      (next_advances h).role hfits hnew
    · exact next_stays_drained hbalanced hpc (hrespects.not_reset hkeep) (hs.sealed t' r hkeep)
        (hs.drained t' r hkeep hr) h
    · exact absurd hseal hr
    · exact next_stays_drained hbalanced hpc (hrespects.not_reset hkeep) (hs.sealed t' _ hkeep)
        hzero h
    · have hword := next_released b h hrelease
      have hcount := state_writers_sub_writer (mem.ring b).state (by rw [hone]; decide)
      rw [hone, ← hword] at hcount
      exact BitVec.eq_of_toNat_eq (Nat.succ_injective hcount)
    · obtain ⟨_, _, hzero⟩ := hrespects.seize hcurrent
      rw [next_state b h, hcurrent]
      simpa [Pc.wordAfter] using hzero
  · exact next_stays_drained hbalanced hpc (hrespects.not_reset hold) (hs.sealed t' r hold)
      (hs.drained t' r hold hr) h

omit [DecidableEq T] in
/-- Whoever turns on the flush bit of `b`, or finds it on, finds `b` sealed and without writers. -/
theorem Orderly.flushing_run (hs : Orderly mem pc b) (hbalanced : Balanced mem pc b)
    (hpc : (pc t).WellFormed) (hrespects : Respects mem pc b t)
    (h : next options ok mem (pc t) = some (pc', mem'))
    (hset : state_flush_in_progress (mem'.ring b).state = true) :
    state_sealed (mem'.ring b).state = true ∧ state_writers (mem'.ring b).state = 0 := by
  obtain ⟨hreset, hcause⟩ := next_flush_set hpc hset h
  have hbefore : state_sealed (mem.ring b).state = true ∧ state_writers (mem.ring b).state = 0 := by
    obtain hset | ⟨call, hput, rfl⟩ | ⟨caller, hflush⟩ := hcause
    · exact hs.flushing hset
    · have hrole : (pc t).role = some (call.current, call.role) := by rw [hput]; rfl
      have hr : call.role ≠ .sealing := by
        unfold PutCall.role
        split <;> decide
      exact ⟨hs.sealed t _ hrole, hs.drained t _ hrole hr⟩
    · cases caller with
      | flush_current =>
        have hrole : (pc t).role = some (b, .seizing) := by rw [hflush]; rfl
        exact ⟨hs.sealed t _ hrole, hs.drained t _ hrole (by decide)⟩
      | put call => exact hs.flushing (hrespects.flush _ hflush (by rintro ⟨⟩))
      | client => exact hs.flushing (hrespects.flush _ hflush (by rintro ⟨⟩))
  exact ⟨next_stays_sealed hpc hreset hbefore.1 h,
    next_stays_drained hbalanced hpc hreset hbefore.1 hbefore.2 h⟩

/-- After its copy, or once it has seen no writer, `put` is not the sealer. -/
theorem PutCall.role_ne (call : PutCall L) : call.role ≠ .sealing ∧ call.role ≠ .seizing := by
  unfold PutCall.role
  split <;> decide

omit [Fintype T] [DecidableEq T] in
/-- Nobody but `flush_current` turns on the flush bit of a buffer it is seizing. -/
theorem Orderly.seizing_flushes (hs : Orderly mem pc b) (hpc : (pc t).WellFormed)
    (hrespects : Respects mem pc b t) (h : next options ok mem (pc t) = some (pc', mem')) {t' : T}
    (hrole : (pc t').role = some (b, .seizing))
    (hset : state_flush_in_progress (mem'.ring b).state = true) :
    t' = t ∧ pc t = .flushSet .flush_current b := by
  obtain ⟨hclear, hlast⟩ := hs.seizing t' hrole
  obtain ⟨_, hset | ⟨call, hput, rfl⟩ | ⟨caller, hflush⟩⟩ := next_flush_set hpc hset h
  · rw [hclear] at hset
    cases hset
  · exfalso
    have hput' : (pc t).role = some (call.current, call.role) := by rw [hput]; rfl
    by_cases hr : call.role = .last
    · rw [hr] at hput'
      exact hlast t hput'
    · obtain rfl := hs.sealer t' t _ _ hrole hput' (by decide) hr
      rw [hput'] at hrole
      exact call.role_ne.2 (Prod.mk.inj (Option.some.inj hrole)).2
  · cases caller with
    | flush_current =>
      have hflush' : (pc t).role = some (b, .seizing) := by rw [hflush]; rfl
      exact ⟨hs.sealer t' t _ _ hrole hflush' (by decide) (by decide), hflush⟩
    | put call =>
      rw [hrespects.flush _ hflush (by rintro ⟨⟩)] at hclear
      cases hclear
    | client =>
      rw [hrespects.flush _ hflush (by rintro ⟨⟩)] at hclear
      cases hclear

omit [Fintype T] in
/-- A seized buffer has its flush bit off and no last writer. -/
theorem Orderly.seizing_run (hs : Orderly mem pc b) (hpc : (pc t).WellFormed) (hfits : (pc t).Fits)
    (hrespects : Respects mem pc b t) (h : next options ok mem (pc t) = some (pc', mem')) (t' : T)
    (hrole : (Function.update pc t pc' t').role = some (b, .seizing)) :
    state_flush_in_progress (mem'.ring b).state = false ∧
      ∀ t'', (Function.update pc t pc' t'').role ≠ some (b, .last) := by
  have hlast (hzero : state_writers (mem.ring b).state = 0)
      (hnone : ∀ t'', (pc t'').role ≠ some (b, .last)) (t'' : T) :
      (Function.update pc t pc' t'').role ≠ some (b, .last) := by
    intro hrole''
    obtain ⟨rfl, hnew⟩ | ⟨_, hold⟩ := role_update t'' _ hrole''
    · obtain hkeep | ⟨hr, _⟩ | ⟨hr, _⟩ | ⟨_, _, hone, _⟩ | ⟨hr, _⟩ :=
        (next_advances h).role hfits hnew
      · exact hnone t'' hkeep
      · cases hr
      · cases hr
      · rw [hzero] at hone
        cases hone
      · cases hr
    · exact hnone t'' hold
  obtain ⟨rfl, hnew⟩ | ⟨hne, hold⟩ := role_update t' _ hrole
  · obtain hkeep | ⟨hr, _⟩ | ⟨hr, _⟩ | ⟨hr, _⟩ | ⟨_, hcurrent⟩ :=
      (next_advances h).role hfits hnew
    · refine ⟨Bool.eq_false_iff.mpr fun hset => ?_,
        hlast (hs.drained t' _ hkeep (by decide)) (hs.seizing t' hkeep).2⟩
      obtain ⟨_, hflush⟩ := hs.seizing_flushes hpc hrespects h hkeep hset
      have hadvances := next_advances h
      rw [hflush] at hadvances
      cases hadvances <;> cases hnew
    · cases hr
    · cases hr
    · cases hr
    · obtain ⟨hopen, hclear, hzero⟩ := hrespects.seize hcurrent
      refine ⟨?_, hlast hzero fun t'' hrole'' => ?_⟩
      · rw [next_flushing b h hpc, hcurrent]
        exact hclear
      · rw [hs.sealed t'' _ hrole''] at hopen
        cases hopen
  · refine ⟨Bool.eq_false_iff.mpr fun hset => ?_,
      hlast (hs.drained t' _ hold (by decide)) (hs.seizing t' hold).2⟩
    exact hne (hs.seizing_flushes hpc hrespects h hold hset).1

/-- A step that respects the parts keeps them in order. -/
theorem Orderly.run (hs : Orderly mem pc b) (hbalanced : Balanced mem pc b)
    (hpc : (pc t).WellFormed) (hfits : (pc t).Fits) (hrespects : Respects mem pc b t)
    (h : next options ok mem (pc t) = some (pc', mem')) :
    Orderly mem' (Function.update pc t pc') b where
  sealed := hs.sealed_run hpc hfits hrespects h
  sealer := hs.sealer_run hfits hrespects h
  drained := hs.drained_run hbalanced hpc hfits hrespects h
  seizing := hs.seizing_run hpc hfits hrespects h
  flushing := hs.flushing_run hbalanced hpc hrespects h

end Run

end FlushRing
