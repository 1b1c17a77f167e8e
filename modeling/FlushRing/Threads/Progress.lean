import FlushRing.Threads.Serial

open Transition

namespace FlushRing

variable {L : Nat}

/-- Accesses from the end of a rotation on. -/
def RotateCaller.left : RotateCaller L → Nat
  -- the writers are read again, the flush bit is taken and the buffer is submitted in four steps
  | .put _ => 6
  | .flush_current => 0

/-- Accesses from the end of a flush on. -/
def FlushCaller.left : FlushCaller L → Nat
  | .put _ => 0
  | .flush_current => 2 * L + 5
  | .client => 0

/-- Steps to the end of the call when a reset takes `n` more; those of `check_cque` do not count. -/
def ResetCaller.left (n : Nat) : ResetCaller L → Nat
  | .put _ => n
  | .flush caller => n + caller.left
  | .check_cque _ _ => 0

/-- Inside `check_cque`, or in a reset on its behalf. -/
def Pc.polling : Pc L → Bool
  | .cqueDrain => true
  | .cqueNext _ => true
  | .cqueRetry _ _ _ => true
  | .cqueAddress _ _ _ => true
  | .cqueSize _ _ _ _ => true
  | .cqueSend _ _ _ _ _ => true
  | .resetState (.check_cque _ _) _ => true
  | .resetAddress (.check_cque _ _) _ => true
  | _ => false

/-- How many steps a thread needs at most to end the call it is in, whatever it finds in the shared state. -/
def Pc.left : Pc L → Nat
  | .reserveLoad _ _ => 2
  | .reserveExchange _ _ _ _ _ => 1
  | .putSeal _ => 2 * L + 15
  | .putSize _ => 2 * L + 14
  | .putClaim _ _ => 2 * L + 13
  | .putStore _ _ => 2 * L + 12
  | .putReload _ => 6
  | .putWrite _ _ => 7
  | .putDecrement _ => 6
  | .putSetFlush _ => 5
  | .rotateLoad caller _ => 2 * L + 5 + caller.left
  | .rotateSize caller _ _ => 2 * L + 4 + caller.left
  | .rotateNext caller _ _ left => 2 * left + 3 + caller.left
  | .rotateCheck caller _ _ left _ => 2 * left + 4 + caller.left
  | .rotateSwap caller _ _ _ => 3 + caller.left
  | .rotateClaim caller _ _ => 2 + caller.left
  | .rotateStore caller _ _ => 1 + caller.left
  | .flushSet caller _ => 4 + caller.left
  | .submitData caller _ => 3 + caller.left
  | .submitOffset caller _ _ => 2 + caller.left
  | .submitPush caller _ _ _ => 1 + caller.left
  | .resetState caller _ => caller.left 2
  | .resetAddress caller _ => caller.left 1
  | .currentLoad => 2 * L + 15
  | .currentSize _ => 2 * L + 14
  | .currentSeal _ => 2 * L + 13
  | .currentLen _ => 2 * L + 12
  | .currentClaim _ _ => 2 * L + 11
  | .currentStore _ _ => 2 * L + 10
  | _ => 0

/-- Steps a call takes at most; those of `check_cque` do not count. -/
def Call.steps (L : Nat) : Call → Nat
  | .reserve_space => 2
  | .put => 2 * L + 15
  | .flush => 4
  | .flush_current => 2 * L + 15
  | _ => 0

section Left
variable {options : BufferRingOptions} {mem : BufferRing L} {pc pc' : Pc L}

theorem left_afterRotate (caller : RotateCaller L) : (Pc.afterRotate caller).left = caller.left := by
  cases caller <;> rfl

theorem left_afterFlush (b : Fin L) (caller : FlushCaller L) :
    (Pc.afterFlush b caller).left = caller.left := by
  cases caller <;> rfl

theorem left_afterReset (b : Fin L) (caller : ResetCaller L) :
    (Pc.afterReset b caller).left = caller.left 0 := by
  cases caller with
  | put call => rfl
  | flush caller => exact (left_afterFlush b caller).trans (Nat.zero_add _).symm
  | check_cque cqe rest => rfl

theorem left_afterOwning (options : BufferRingOptions) (call : PutCall L) :
    (Pc.afterOwning options call).left ≤ 4 := by
  unfold Pc.afterOwning
  repeat' split
  all_goals simp [Pc.left, FlushCaller.left, ResetCaller.left]

theorem left_cqueEntry (options : BufferRingOptions) (cqe : Cqe L) (rest : List (Cqe L)) :
    (Pc.cqueEntry options cqe rest).left = 0 := by
  unfold Pc.cqueEntry
  repeat' split
  all_goals rfl

/-- A step outside of `check_cque` leaves a step less to take. -/
theorem Advances.left (h : Advances options mem pc pc') :
    pc'.left + (if pc.polling then 0 else 1) ≤ pc.left := by
  cases h
  case rotated_before caller _ _ _ | rotate_exhausted caller _ _ | rotate_stored caller _ _ =>
    rw [left_afterRotate]
    simp only [Pc.left, Pc.polling, Bool.false_eq_true, if_false]
    omega
  case submit_pushed caller b _ _ =>
    rw [left_afterFlush]
    simp only [Pc.left, Pc.polling, Bool.false_eq_true, if_false]
    omega
  case state_reset caller b =>
    cases caller with
    | put call => exact Nat.le_refl _
    | flush caller =>
      simp only [Pc.left, ResetCaller.left, Pc.polling, Bool.false_eq_true, if_false]
      omega
    | check_cque cqe rest => exact Nat.le_refl _
  case address_reset caller b =>
    rw [left_afterReset]
    cases caller with
    | put call => exact Nat.le_refl _
    | flush caller =>
      simp only [Pc.left, ResetCaller.left, Pc.polling, Bool.false_eq_true, if_false]
      omega
    | check_cque cqe rest => exact Nat.le_refl _
  case flush_won call _ =>
    exact Nat.succ_le_succ (left_afterOwning options call)
  case cque_takes cqe rest =>
    rw [left_cqueEntry]
    rfl
  all_goals simp [Pc.left, Pc.polling, RotateCaller.left, FlushCaller.left, ResetCaller.left]
  all_goals omega

/-- A call adds the accesses it may make. -/
theorem Entered.left {held : Option (Fin L)} {msg : Option Slice} {c : Call}
    (h : Entered held msg c pc pc') : pc'.left ≤ pc.left + c.steps L := by
  cases h with
  | put b payload result =>
    have hput : (Pc.putEntry { current := b, reserve_result := result, payload }).left ≤ 2 * L + 15 := by
      unfold Pc.putEntry
      split <;> simp [Pc.left]
    exact hput.trans (Nat.le_add_left _ _)
  | _ => simp [Pc.left, Call.steps, FlushCaller.left]

end Left

namespace Threads
variable {T : Type} [DecidableEq T]

section Steps
variable {options : BufferRingOptions} {s s' : Threads T L} {a : Action T}

end Steps

end Threads

end FlushRing
