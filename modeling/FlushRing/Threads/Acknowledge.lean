import FlushRing.Buffer.Tiled
import FlushRing.Threads.Effects

open Transition Extents

namespace FlushRing

variable {L : Nat}

def RotateCaller.putCall : RotateCaller L → Option (PutCall L)
  | .put call => some call
  | .flush_current => none

def FlushCaller.putCall : FlushCaller L → Option (PutCall L)
  | .put call => some call
  | _ => none

def ResetCaller.putCall : ResetCaller L → Option (PutCall L)
  | .put call => some call
  | .flush caller => caller.putCall
  | .check_cque _ _ => none

/-- The copies a `put` with these arguments makes of its payload. -/
def PutCall.copied (call : PutCall L) : List (Fin L × Usize × Slice) :=
  match call.reserve_result with
  | .ok offset => [(call.current, offset, call.payload)]
  | .error _ => []

namespace Pc

/-- The `put` a thread is in or has just returned from. -/
def putCall : Pc L → Option (PutCall L)
  | .putSeal call => some call
  | .putSize call => some call
  | .putClaim call _ => some call
  | .putStore call _ => some call
  | .putReload call => some call
  | .putWrite call _ => some call
  | .putDecrement call => some call
  | .putSetFlush call => some call
  | .returned call _ => some call
  | .rotateLoad caller _ => caller.putCall
  | .rotateSize caller _ _ => caller.putCall
  | .rotateNext caller _ _ _ => caller.putCall
  | .rotateCheck caller _ _ _ _ => caller.putCall
  | .rotateSwap caller _ _ _ => caller.putCall
  | .rotateClaim caller _ _ => caller.putCall
  | .rotateStore caller _ _ => caller.putCall
  | .flushSet caller _ => caller.putCall
  | .submitData caller _ => caller.putCall
  | .submitOffset caller _ _ => caller.putCall
  | .submitPush caller _ _ _ => caller.putCall
  | .resetState caller _ => caller.putCall
  | .resetAddress caller _ => caller.putCall
  | _ => none

/-- A `put` that was acknowledged. -/
def acknowledged : Pc L → Option (PutCall L)
  | .returned call (.ok _) => some call
  | _ => none

/-- The payload a thread is logging. -/
def logging : Pc L → Option Slice
  | .reserveLoad _ payload => some payload
  | .reserveExchange _ payload _ _ _ => some payload
  | .reserved _ payload _ => some payload
  | pc => pc.putCall.map PutCall.payload

/-- The copies made of a payload by the attempt a thread is at. -/
def copied : Pc L → List (Fin L × Usize × Slice)
  | .putWrite _ _ => []
  | pc => pc.putCall.elim [] PutCall.copied

/-- The copy one step makes. -/
def copies : Pc L → List (Fin L × Usize × Slice)
  | .putWrite call offset => [(call.current, offset, call.payload)]
  | _ => []

/-- The reservation results with which `put` gets to a program point. -/
def selects : Pc L → Except BufferError Usize → Prop
  | .putWrite _ offset, result => result = .ok offset
  | .putDecrement _, result => ∃ offset, result = .ok offset
  | .putSetFlush _, result => result = .error .InsufficientSpace ∨ ∃ offset, result = .ok offset
  | .returned _ (.ok _), result => result = .error .InsufficientSpace ∨ ∃ offset, result = .ok offset
  | .returned _ (.error _), result => ∃ e, result = .error e
  | .flushSet _ _, result => result = .error .InsufficientSpace ∨ ∃ offset, result = .ok offset
  | .submitData _ _, result => result = .error .InsufficientSpace ∨ ∃ offset, result = .ok offset
  | .submitOffset _ _ _, result => result = .error .InsufficientSpace ∨ ∃ offset, result = .ok offset
  | .submitPush _ _ _ _, result => result = .error .InsufficientSpace ∨ ∃ offset, result = .ok offset
  | .resetState _ _, result => result = .error .InsufficientSpace ∨ ∃ offset, result = .ok offset
  | .resetAddress _ _, result => result = .error .InsufficientSpace ∨ ∃ offset, result = .ok offset
  | _, result => result = .error .InsufficientSpace

/-- The branch a thread is in is the one its reservation result selects. -/
def Fits (pc : Pc L) : Prop := ∀ call, pc.putCall = some call → pc.selects call.reserve_result

/-- A thread outside `put` is in no branch of it. -/
theorem fits_of_putCall_none {pc : Pc L} (h : pc.putCall = none) : pc.Fits := by
  intro call hcall
  rw [h] at hcall
  cases hcall

theorem fits_putEntry (call : PutCall L) : (putEntry call).Fits := by
  unfold putEntry
  split
  next h =>
    rintro _ ⟨⟩
    exact h
  next e _ h =>
    rintro _ ⟨⟩
    exact ⟨e, h⟩
  next offset h =>
    rintro _ ⟨⟩
    exact h

theorem fits_afterRotate {caller : RotateCaller L}
    (h : ∀ call, caller.putCall = some call → call.reserve_result = .error .InsufficientSpace) :
    (afterRotate caller).Fits := by
  cases caller with
  | put call => exact h
  | flush_current => exact fits_of_putCall_none rfl

theorem fits_afterFlush {b : Fin L} {caller : FlushCaller L}
    (h : ∀ call, caller.putCall = some call →
      call.reserve_result = .error .InsufficientSpace ∨ ∃ offset, call.reserve_result = .ok offset) :
    (afterFlush b caller).Fits := by
  cases caller with
  | put call => exact h
  | flush_current => exact fits_of_putCall_none rfl
  | client => exact fits_of_putCall_none rfl

theorem fits_afterReset {b : Fin L} {caller : ResetCaller L}
    (h : ∀ call, caller.putCall = some call →
      call.reserve_result = .error .InsufficientSpace ∨ ∃ offset, call.reserve_result = .ok offset) :
    (afterReset b caller).Fits := by
  cases caller with
  | put call => exact h
  | flush caller => exact fits_afterFlush h
  | check_cque cqe rest => exact fits_of_putCall_none rfl

theorem fits_afterOwning {options : BufferRingOptions} {call : PutCall L}
    (h : call.reserve_result = .error .InsufficientSpace ∨
      ∃ offset, call.reserve_result = .ok offset) : (afterOwning options call).Fits := by
  unfold afterOwning
  repeat' split
  all_goals
    rintro _ ⟨⟩
    exact h

theorem putCall_cqueEntry (options : BufferRingOptions) (cqe : Cqe L) (rest : List (Cqe L)) :
    (cqueEntry options cqe rest).putCall = none := by
  unfold cqueEntry
  repeat' split
  all_goals rfl

theorem fits_flushLost {call : PutCall L}
    (h : call.reserve_result = .error .InsufficientSpace ∨
      ∃ offset, call.reserve_result = .ok offset) : (returned call (flushLost call)).Fits := by
  rintro _ ⟨⟩
  obtain herror | ⟨offset, hgranted⟩ := h
  · have hlost : flushLost call = .error .EncounteredSealedBuffer := by rw [flushLost, herror]
    rw [hlost]
    exact ⟨_, herror⟩
  · have hlost : flushLost call = .ok .SuccessfullWrite := by rw [flushLost, hgranted]
    rw [hlost]
    exact .inr ⟨offset, hgranted⟩

end Pc

/-- A call begins in the branch its reservation result selects. -/
theorem Entered.fits {held : Option (Fin L)} {msg : Option Slice} {c : Call} {pc pc' : Pc L}
    (h : Entered held msg c pc pc') : pc'.Fits := by
  cases h
  case put b payload result => exact Pc.fits_putEntry _
  all_goals exact Pc.fits_of_putCall_none rfl

/-- No step leaves the branch the reservation result selects. -/
theorem Advances.fits {options : BufferRingOptions} {mem : BufferRing L} {pc pc' : Pc L}
    (h : Advances options mem pc pc') (hpc : pc.Fits) : pc'.Fits := by
  cases h
  case seal_lost call hset =>
    rintro _ ⟨⟩
    exact ⟨_, hpc call rfl⟩
  case put_occupied call hwriters =>
    rintro _ ⟨⟩
    exact ⟨_, hpc call rfl⟩
  case put_drained call hwriters =>
    rintro _ ⟨⟩
    exact .inl (hpc call rfl)
  case put_wrote call offset =>
    rintro _ ⟨⟩
    exact ⟨offset, hpc call rfl⟩
  case last_writer call hwriters hsealed =>
    rintro _ ⟨⟩
    exact .inr (hpc call rfl)
  case not_last call hnot =>
    rintro _ ⟨⟩
    exact .inr (hpc call rfl)
  case flush_lost call hset => exact Pc.fits_flushLost (hpc call rfl)
  case flush_won call hclear => exact Pc.fits_afterOwning (hpc call rfl)
  case rotated_before => exact Pc.fits_afterRotate hpc
  case rotate_exhausted => exact Pc.fits_afterRotate hpc
  case rotate_stored => exact Pc.fits_afterRotate hpc
  case submit_pushed => exact Pc.fits_afterFlush hpc
  case address_reset => exact Pc.fits_afterReset hpc
  case cque_takes cqe rest => exact Pc.fits_of_putCall_none (Pc.putCall_cqueEntry options cqe rest)
  case current_stored => exact Pc.fits_of_putCall_none rfl
  case cque_sent => exact Pc.fits_of_putCall_none rfl
  all_goals exact hpc

namespace Pc

@[simp] theorem copied_putEntry (call : PutCall L) : (putEntry call).copied = [] := by
  unfold putEntry
  split
  next h => simp [copied, putCall, PutCall.copied, h]
  next e _ h => simp [copied, putCall, PutCall.copied, h]
  next offset h => rfl

@[simp] theorem copied_cqueEntry (options : BufferRingOptions) (cqe : Cqe L) (rest : List (Cqe L)) :
    (cqueEntry options cqe rest).copied = [] := by
  unfold cqueEntry
  repeat' split
  all_goals rfl

theorem copied_afterRotate (caller : RotateCaller L) :
    (afterRotate caller).copied = caller.putCall.elim [] PutCall.copied := by
  cases caller <;> rfl

theorem copied_afterFlush (b : Fin L) (caller : FlushCaller L) :
    (afterFlush b caller).copied = caller.putCall.elim [] PutCall.copied := by
  cases caller <;> rfl

theorem copied_afterReset (b : Fin L) (caller : ResetCaller L) :
    (afterReset b caller).copied = caller.putCall.elim [] PutCall.copied := by
  cases caller with
  | put call => rfl
  | flush caller => exact copied_afterFlush b caller
  | check_cque cqe rest => rfl

theorem copied_afterOwning (options : BufferRingOptions) (call : PutCall L) :
    (afterOwning options call).copied = call.copied := by
  unfold afterOwning
  repeat' split
  all_goals rfl

end Pc

/-- The copies of the attempt at hand grow by the copy each step makes. -/
theorem Advances.copied {options : BufferRingOptions} {mem : BufferRing L} {pc pc' : Pc L}
    (h : Advances options mem pc pc') (hpc : pc.Fits) : pc'.copied = pc.copied ++ pc.copies := by
  cases h
  case put_wrote call offset =>
    have hresult : call.reserve_result = .ok offset := hpc call rfl
    simp [Pc.copied, Pc.copies, Pc.putCall, PutCall.copied, hresult]
  case flush_won call hclear => exact (Pc.copied_afterOwning options call).trans (List.append_nil _).symm
  case rotated_before caller _ _ _ =>
    exact (Pc.copied_afterRotate caller).trans (List.append_nil _).symm
  case rotate_exhausted caller _ _ =>
    exact (Pc.copied_afterRotate caller).trans (List.append_nil _).symm
  case rotate_stored caller _ _ =>
    exact (Pc.copied_afterRotate caller).trans (List.append_nil _).symm
  case submit_pushed caller b _ _ =>
    exact (Pc.copied_afterFlush b caller).trans (List.append_nil _).symm
  case address_reset caller b =>
    exact (Pc.copied_afterReset b caller).trans (List.append_nil _).symm
  case cque_takes cqe rest => exact Pc.copied_cqueEntry options cqe rest
  all_goals exact (List.append_nil _).symm

/-- A step keeps the payload the thread is logging. -/
theorem Advances.logging {options : BufferRingOptions} {mem : BufferRing L} {pc pc' : Pc L}
    (h : Advances options mem pc pc') : pc'.logging = pc.logging := by
  cases h
  case flush_won call _ =>
    unfold Pc.afterOwning
    repeat' split
    all_goals rfl
  case rotated_before caller _ _ _ => cases caller <;> rfl
  case rotate_exhausted caller _ _ => cases caller <;> rfl
  case rotate_stored caller _ _ => cases caller <;> rfl
  case submit_pushed caller _ _ _ => cases caller <;> rfl
  case address_reset caller _ =>
    cases caller with
    | put call => rfl
    | flush caller => cases caller <;> rfl
    | check_cque cqe rest => rfl
  case cque_takes cqe rest =>
    unfold Pc.cqueEntry
    repeat' split
    all_goals rfl
  all_goals rfl

/-- What a step has put in the memory of the buffers: for each copy that is new on their records, its buffer,
its place and the bytes found there. -/
def stored (mem mem' : BufferRing L) : List (Fin L × Usize × List UInt8) :=
  (List.finRange L).flatMap fun b =>
    ((mem'.ring b).filling.copied.drop (mem.ring b).filling.copied.length).map fun copy =>
      (b, copy.1, load (mem'.ring b).buf.bytes (extent (range copy)))

/-- A copy as it is found in memory. -/
def landed (copy : Fin L × Usize × Slice) : Fin L × Usize × List UInt8 :=
  (copy.1, copy.2.1, copy.2.2.toList)

/-- A `flatMap` in which one entry contributes is what that entry contributes. -/
theorem flatMap_of_nodup {α β : Type} {l : List α} {c : α} {f : α → List β} (hnodup : l.Nodup) (hc : c ∈ l)
    (hf : ∀ b ≠ c, f b = []) : l.flatMap f = f c := by
  induction l with
  | nil => cases hc
  | cons b rest ih =>
    obtain ⟨hb, hrest⟩ := List.nodup_cons.mp hnodup
    rw [List.flatMap_cons]
    obtain rfl | hc := List.mem_cons.mp hc
    · have hnone : rest.flatMap f = [] := by
        refine List.flatMap_eq_nil_iff.mpr fun d hd => hf d ?_
        rintro rfl
        exact hb hd
      rw [hnone, List.append_nil]
    · have hne : b ≠ c := by
        rintro rfl
        exact hb hc
      rw [hf b hne, List.nil_append, ih hrest hc]

/-- A `write` puts its payload in its buffer and nothing in the others. -/
theorem stored_write (mem : BufferRing L) (b : Fin L) (offset : Usize) (payload : Slice) :
    stored mem (mem.modify b (·.write offset payload)) = [(b, offset, payload.toList)] := by
  have hmem : b ∈ List.finRange L := List.mem_finRange b
  refine (flatMap_of_nodup (List.nodup_finRange L) hmem fun c hc => ?_).trans ?_
  · rw [BufferRing.modify_ring, if_neg (Ne.symm hc), List.drop_length]
    rfl
  · rw [BufferRing.modify_ring_self, FlushBuffer.write_filling_copied, List.drop_left]
    have hload : load ((mem.ring b).write offset payload).buf.bytes (extent (offset, payload.len)) =
        payload.toList := by
      have hfill : ((mem.ring b).write offset payload).buf.bytes =
          fill (mem.ring b).buf.bytes payload.byte (extent (offset, payload.len)) :=
        copyAt_eq_fill _ _ _
      rw [hfill]
      exact load_fill_self _ _
    simp only [List.map_cons, List.map_nil, range, hload]

/-- A step stores in memory what its program point copies, and nothing else. -/
theorem next_stored {options : BufferRingOptions} {ok : Bool} {mem mem' : BufferRing L} {pc pc' : Pc L}
    (h : next options ok mem pc = some (pc', mem')) : stored mem mem' = pc.copies.map landed := by
  by_cases hput : ∃ call offset, pc = .putWrite call offset
  · obtain ⟨call, offset, rfl⟩ := hput
    rw [next_mem h]
    exact stored_write mem call.current offset call.payload
  · have hnone : pc.copies = [] := by
      unfold Pc.copies
      split
      next call offset => exact absurd ⟨call, offset, rfl⟩ hput
      next => rfl
    rw [hnone]
    refine List.flatMap_eq_nil_iff.mpr fun b _ => ?_
    have hdrop : (mem'.ring b).filling.copied.drop (mem.ring b).filling.copied.length = [] := by
      rw [next_filling b h]
      cases pc
      case putWrite call offset => exact absurd ⟨call, offset, rfl⟩ hput
      case reserveExchange b' payload state offset new =>
        simp only [Pc.fillingAfter]
        split <;> exact List.drop_length
      case resetState caller b' =>
        simp only [Pc.fillingAfter]
        split
        · exact List.drop_nil
        · exact List.drop_length
      all_goals exact List.drop_length
    rw [hdrop]
    rfl

namespace Threads

variable {T : Type} [DecidableEq T] {options : BufferRingOptions}

/-- The history of what each thread has put in the buffers since it last took up a payload. -/
def storing (made : T → List (Fin L × Usize × List UInt8)) (s : Threads T L) (a : Action T)
    (s' : Threads T L) : T → List (Fin L × Usize × List UInt8) :=
  match a with
  | .call t (.take _) => Function.update made t []
  | .run t _ => Function.update made t (made t ++ stored s.mem s'.mem)
  | _ => made

omit [DecidableEq T] in
theorem record_msg (s : Threads T L) (pc pc' : Pc L) : (s.record pc pc').msg = s.msg := by
  unfold record
  split <;> rfl

/-- A thread's history holds the copies of the attempt it is at, as long as its payload has not been
acknowledged and done with: an attempt that ended in an error has made none. -/
structure Logged (s : Threads T L) (made : T → List (Fin L × Usize × List UInt8)) : Prop where
  fits : ∀ t, (s.pc t).Fits
  logging : ∀ t payload, (s.pc t).logging = some payload → s.msg t = some payload
  copies : ∀ t, (s.msg t).isSome → made t = (s.pc t).copied.map landed

omit [DecidableEq T] in
theorem logged_init (mem : BufferRing L) : (init mem : Threads T L).Logged fun _ => [] where
  fits _ := Pc.fits_of_putCall_none rfl
  logging _ _ h := by cases h
  copies _ h := by cases h

section Logged
variable {s s' : Threads T L} {made : T → List (Fin L × Usize × List UInt8)} {t : T} {pc : Pc L}

/-- A call that leaves a thread's variables alone keeps the history in step when the program point it
leads to has the copies and the payload of the one before it. -/
theorem logged_quiet (hs : s.Logged made) (t : T) (pc : Pc L) (hfits : pc.Fits)
    (hcopied : pc.copied = (s.pc t).copied)
    (hlogging : ∀ payload, pc.logging = some payload → s.msg t = some payload) :
    Logged { s with pc := Function.update s.pc t pc } made where
  fits := by
    rw [Function.forall_update_iff s.pc (p := fun _ pc => pc.Fits)]
    exact ⟨hfits, fun t' _ => hs.fits t'⟩
  logging := by
    rw [Function.forall_update_iff s.pc (p := fun t' pc => ∀ payload, pc.logging = some payload →
      s.msg t' = some payload)]
    exact ⟨hlogging, fun t' _ => hs.logging t'⟩
  copies := by
    rw [Function.forall_update_iff s.pc (p := fun t' pc => (s.msg t').isSome →
      made t' = pc.copied.map landed)]
    refine ⟨fun hmsg => ?_, fun t' _ => hs.copies t'⟩
    rw [hs.copies t hmsg, hcopied]

/-- A call that gives a thread new variables ends or begins the history of a payload. -/
theorem logged_fresh (hs : s.Logged made) (t : T) (m : Option Slice)
    (copies : List (Fin L × Usize × List UInt8)) (hcopies : m.isSome → copies = []) :
    Logged { s with msg := Function.update s.msg t m, pc := Function.update s.pc t .idle }
      (Function.update made t copies) where
  fits := by
    rw [Function.forall_update_iff s.pc (p := fun _ pc => pc.Fits)]
    exact ⟨Pc.fits_of_putCall_none rfl, fun t' _ => hs.fits t'⟩
  logging t' payload hpayload := by
    by_cases ht : t' = t
    · subst t'
      simp only [Function.update_self] at hpayload
      cases hpayload
    · simp only [Function.update_of_ne ht] at hpayload ⊢
      exact hs.logging t' payload hpayload
  copies t' hmsg := by
    by_cases ht : t' = t
    · subst t'
      simp only [Function.update_self] at hmsg ⊢
      exact hcopies hmsg
    · simp only [Function.update_of_ne ht] at hmsg ⊢
      exact hs.copies t' hmsg

/-- A call that a client enters copies nothing; `take` begins a new history. -/
theorem logged_call (hs : s.Logged made) {c : Call} (h : Entered (s.held t) (s.msg t) c (s.pc t) pc) :
    Logged { s.note t c with pc := Function.update s.pc t pc } (storing made s (.call t c) s') := by
  generalize hpc : s.pc t = pc₀ at h
  cases h
  case take payload => exact logged_fresh hs t (some payload) [] fun _ => rfl
  case current_buffer =>
    have hquiet := logged_quiet hs t .idle (Pc.fits_of_putCall_none rfl)
      (by rw [hpc]) (by rintro _ ⟨⟩)
    exact ⟨hquiet.fits, hquiet.logging, hquiet.copies⟩
  case reserve_space b payload hheld hmsg hlen =>
    refine logged_quiet hs t _ (Pc.fits_of_putCall_none rfl) (by rw [hpc]; rfl) ?_
    rintro _ ⟨⟩
    exact hmsg
  case put b payload result =>
    refine logged_quiet hs t _ (Pc.fits_putEntry _) (by rw [hpc]; exact Pc.copied_putEntry _) ?_
    intro payload' hpayload
    refine hs.logging t payload' ?_
    rw [hpc]
    unfold Pc.putEntry at hpayload
    split at hpayload
    all_goals exact hpayload
  case flush_current =>
    exact logged_quiet hs t _ (Pc.fits_of_putCall_none rfl) (by rw [hpc]; rfl) (by rintro _ ⟨⟩)
  case flush b hheld =>
    exact logged_quiet hs t _ (Pc.fits_of_putCall_none rfl) (by rw [hpc]; rfl) (by rintro _ ⟨⟩)
  case check_cque =>
    exact logged_quiet hs t _ (Pc.fits_of_putCall_none rfl) (by rw [hpc]; rfl) (by rintro _ ⟨⟩)
  case finish_reserved b payload e =>
    have hnote : s.note t .finish = s := by simp only [note, hpc]
    rw [hnote]
    exact logged_quiet hs t _ (Pc.fits_of_putCall_none rfl) (by rw [hpc]; rfl) (by rintro _ ⟨⟩)
  case finish_returned call result =>
    cases result with
    | error e =>
      have hnote : s.note t .finish = s := by simp only [note, hpc]
      rw [hnote]
      refine logged_quiet hs t _ (Pc.fits_of_putCall_none rfl) ?_ (by rintro _ ⟨⟩)
      have hfits := hs.fits t
      rw [hpc] at hfits ⊢
      obtain ⟨e', hresult⟩ := hfits call rfl
      simp [Pc.copied, Pc.putCall, PutCall.copied, hresult]
    | ok msg =>
      have hnote : s.note t .finish = { s with msg := Function.update s.msg t none } := by
        simp only [note, hpc]
      rw [hnote]
      have hfresh := logged_fresh hs t none (made t) (by rintro ⟨⟩)
      rw [Function.update_eq_self] at hfresh
      exact hfresh

/-- A step adds to its thread's history what it has put in memory. -/
theorem logged_run (hs : s.Logged made) {ok : Bool} {mem : BufferRing L}
    (h : next options ok s.mem (s.pc t) = some (pc, mem)) :
    Logged { s.record (s.pc t) pc with mem, pc := Function.update s.pc t pc }
      (Function.update made t (made t ++ stored s.mem mem)) where
  fits := by
    rw [Function.forall_update_iff s.pc (p := fun _ pc => pc.Fits)]
    exact ⟨(next_advances h).fits (hs.fits t), fun t' _ => hs.fits t'⟩
  logging := by
    rw [record_msg]
    rw [Function.forall_update_iff s.pc (p := fun t' pc => ∀ payload, pc.logging = some payload →
      s.msg t' = some payload)]
    refine ⟨fun payload hpayload => ?_, fun t' _ => hs.logging t'⟩
    rw [(next_advances h).logging] at hpayload
    exact hs.logging t payload hpayload
  copies t' hmsg := by
    rw [record_msg] at hmsg
    by_cases ht : t' = t
    · subst t'
      simp only [Function.update_self]
      rw [hs.copies t hmsg, next_stored h, (next_advances h).copied (hs.fits t), List.map_append]
    · simp only [Function.update_of_ne ht]
      exact hs.copies t' hmsg

/-- Every step keeps the histories in step with the attempts. -/
theorem logged_step {a : Action T} (hs : s.Logged made) (h : step options s a = some s') :
    s'.Logged (storing made s a s') := by
  obtain ⟨t, c, pc, rfl, hentry, rfl⟩ | ⟨t, ok, pc, mem, rfl, hnext, rfl⟩ |
    ⟨i, result, mem, rfl, hmem, rfl⟩ := step_cases h
  · exact logged_call hs (entry_entered hentry)
  · exact logged_run hs hnext
  · exact ⟨hs.fits, hs.logging, hs.copies⟩

/-- Among the acknowledged payloads, those whose reservation was granted have been put in memory, once, in
the range reserved for them; a payload that did not fit is acknowledged by the thread that seals and
flushes the buffer, and is nowhere. -/
theorem put_acknowledged_iff [NeZero L]
    (h : Reaches (recorded (step options) storing) (fun _ _ => True)
      (init (BufferRing.with_options options), fun _ => []) (s, made))
    {call : PutCall L} (hput : (s.pc t).acknowledged = some call) :
    (∃ offset, call.reserve_result = .ok offset ∧ s.msg t = some call.payload ∧
      made t = [(call.current, offset, call.payload.toList)]) ↔
    call.reserve_result ≠ .error .InsufficientSpace := by
  have hs : s.Logged made := Reaches.recorded_invariant (P := Logged) (C := fun _ _ => True)
    (fun s made a s' hs _ => logged_step hs) (logged_init _) h
  obtain ⟨msg, hpc⟩ : ∃ msg, s.pc t = .returned call (.ok msg) := by
    unfold Pc.acknowledged at hput
    split at hput
    next call' msg hpc => exact ⟨msg, by rw [hpc, Option.some.inj hput]⟩
    next => cases hput
  have hfits := hs.fits t
  have hmsg := hs.logging t call.payload (by rw [hpc]; rfl)
  have hcopies := hs.copies t (by rw [hmsg]; rfl)
  rw [hpc] at hfits hcopies
  constructor
  · rintro ⟨offset, hresult, _, _⟩ herror
    rw [hresult] at herror
    cases herror
  · intro hne
    obtain herror | ⟨offset, hresult⟩ := hfits call rfl
    · exact absurd herror hne
    · refine ⟨offset, hresult, hmsg, ?_⟩
      rw [hcopies]
      simp [Pc.copied, Pc.putCall, PutCall.copied, hresult, landed]

end Logged

/-- A payload of three bytes is acknowledged and is where it was reserved. -/
theorem put_acknowledged_granted :
    ∃ (s : Threads (Fin 1) 1) (made : Fin 1 → List (Fin 1 × Usize × List UInt8)) (call : PutCall 1),
      Reaches (recorded (step storeOptions) storing) (fun _ _ => True)
        (init (BufferRing.with_options storeOptions), fun _ => []) (s, made) ∧
      (s.pc 0).acknowledged = some call ∧
      ∃ offset, made 0 = [(call.current, offset, call.payload.toList)] := by
  have hrun : (exec (recorded (step storeOptions) storing) (fun _ _ => True)
      (attempt 0 { len := 3, byte := fun i => .ofNat (i + 7) } 2 2)
      ((init (BufferRing.with_options storeOptions) : Threads (Fin 1) 1), fun _ => [])).any
      (fun p => (p.1.pc 0).acknowledged.any fun call => call.reserve_result.isOk) = true := by
    decide +kernel
  obtain ⟨⟨s, made⟩, hreach, hcheck⟩ := exists_of_exec hrun
  obtain ⟨call, hput, hresult⟩ := (Option.any_eq_true _ _).mp hcheck
  have hne : call.reserve_result ≠ .error .InsufficientSpace := by
    intro herror
    rw [herror] at hresult
    cases hresult
  obtain ⟨offset, _, _, hmade⟩ := (put_acknowledged_iff hreach hput).mpr hne
  exact ⟨s, made, call, hreach, hput, offset, hmade⟩

/-- A payload that finds the only buffer full is acknowledged with `SuccessfullWriteFlush` and has
been put nowhere. -/
theorem put_acknowledges_uncopied :
    ∃ (s : Threads (Fin 1) 1) (made : Fin 1 → List (Fin 1 × Usize × List UInt8)) (call : PutCall 1),
      Reaches (recorded (step storeOptions) storing) (fun _ _ => True)
        (init (BufferRing.with_options storeOptions), fun _ => []) (s, made) ∧
      (s.pc 0).acknowledged = some call ∧ call.payload.len = 1 ∧ made 0 = [] := by
  have hrun : (exec (recorded (step storeOptions) storing) (fun _ _ => True)
      (attempt 0 (zeros ONE_MEGABYTE_BLOCK) 2 2 ++ [.call 0 .finish] ++ attempt 0 (zeros 1) 1 15)
      ((init (BufferRing.with_options storeOptions) : Threads (Fin 1) 1), fun _ => [])).any
      (fun p => ((p.1.pc 0).acknowledged.any fun call => call.payload.len == 1) &&
        (p.2 0).isEmpty) = true := by decide +kernel
  obtain ⟨⟨s, made⟩, hreach, hcheck⟩ := exists_of_exec hrun
  rw [Bool.and_eq_true, List.isEmpty_iff] at hcheck
  obtain ⟨call, hput, hlen⟩ := (Option.any_eq_true _ _).mp hcheck.1
  exact ⟨s, made, call, hreach, hput, by simpa using hlen, hcheck.2⟩

end Threads

end FlushRing
