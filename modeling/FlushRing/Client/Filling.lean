import FlushRing.Buffer.Tiled
import FlushRing.Client.Moves

open Extents

namespace FlushRing

variable {L : Nat}

namespace Filling

/-- The payload copied to a range. -/
def payload (filling : Filling) (r : Usize × Usize) : List UInt8 :=
  match filling.copied.find? fun copy => range copy == r with
  | some copy => copy.2.toList
  | none => []

/-- The payloads of the filling, one after the other in the order of their reservations. -/
def contents (filling : Filling) : List UInt8 := filling.granted.flatMap filling.payload

/-- Number of bytes reserved. -/
def reserved (filling : Filling) : Nat := (filling.granted.map fun r => r.2.toNat).sum

end Filling

/-- A buffer's word and memory account for the reservations of its filling: `outs` are the granted ones
whose payloads have not been copied yet. -/
structure Filled (x : FlushBuffer L) (outs : List (Usize × Slice)) : Prop extends Tiled x where
  writers : (state_writers x.state).toNat = outs.length
  granted : x.filling.granted.Perm ((x.filling.copied ++ outs).map range)
  copied : Copied x

namespace Filled
variable {x y : FlushBuffer L} {outs outs' : List (Usize × Slice)}

/-- A word without writers has no outstanding reservation. -/
theorem drained (h : Filled x outs) (hzero : state_writers x.state = 0) : outs = [] := by
  have hwriters := h.writers
  rw [hzero] at hwriters
  exact List.length_eq_zero_iff.mp hwriters.symm

/-- The last writer holds the only outstanding reservation. -/
theorem last_writer (h : Filled x outs) (hlast : state_writers x.state = 1) {out : Usize × Slice}
    (hperm : outs.Perm (out :: outs')) : outs' = [] := by
  have hwriters := h.writers
  rw [hlast, hperm.length_eq, List.length_cons] at hwriters
  exact List.length_eq_zero_iff.mp (Nat.succ.inj hwriters).symm

theorem perm (h : Filled x outs) (hperm : outs.Perm outs') : Filled x outs' where
  toTiled := h.toTiled
  writers := h.writers.trans hperm.length_eq
  granted := h.granted.trans ((hperm.append_left _).map _)
  copied := h.copied

/-- Changes of the flags, the address or the stored entry. -/
theorem congr (h : Filled x outs) (hwriters : state_writers y.state = state_writers x.state)
    (hsize : y.size = x.size) (hbuf : y.buf = x.buf) (hfilling : y.filling = x.filling) :
    Filled y outs where
  toTiled := h.toTiled.congr hsize (congrArg Filling.granted hfilling)
  writers := by rw [hwriters, h.writers]
  granted := by
    rw [hfilling]
    exact h.granted
  copied := h.copied.congr hbuf (congrArg Filling.copied hfilling)

theorem of_empty (hstate : x.state = 0) (hgranted : x.filling.granted = [])
    (hcopied : x.filling.copied = []) : Filled x [] where
  toTiled := .of_empty hstate hgranted
  writers := by
    rw [hstate]
    rfl
  granted := by
    rw [hgranted, hcopied]
    exact .refl _
  copied := .of_empty hcopied

/-- A buffer that was reset holds nothing. -/
theorem reset (x : FlushBuffer L) : Filled x.reset [] := of_empty rfl rfl rfl

/-- A change of the address leaves the data alone. -/
theorem kept (h : Filled x outs) (hkept : x.Kept y) : Filled y outs := by
  apply h.congr
  · rw [hkept.state]
  · rw [FlushBuffer.size, hkept.state]
    rfl
  · exact hkept.buf
  · exact hkept.filling

theorem sealed_at (h : Filled x outs) (slot : Usize) : Filled (x.sealed_at slot) outs :=
  h.congr (state_writers_or_sealed _) (x.sealed_at_size slot) rfl rfl

theorem set_flush_in_progress (h : Filled x outs) : Filled x.set_flush_in_progress outs :=
  h.congr (state_writers_or_flush _) x.size_set_flush_in_progress rfl rfl

/-- A new reservation takes the next bytes. -/
theorem grant {payload : Slice} {offset new : Usize} (h : Filled x outs)
    (hlen : payload.len ≤ ONE_MEGABYTE_BLOCK)
    (hdecision : FlushBuffer.reserve_decision x.state payload.len = .ok (offset, new))
    (hroom : outs.length + 1 < 2 ^ 24) :
    Filled (x.grant new offset payload.len) (outs ++ [(offset, payload)]) := by
  have hwriters : (state_writers x.state).toNat + 1 < 2 ^ 24 := by
    rw [h.writers]
    exact hroom
  have htiled := h.toTiled.grant hlen hdecision hwriters
  obtain ⟨rfl, hsum⟩ := FlushBuffer.reserve_decision_fits h.fits hlen hdecision
  obtain ⟨_, _, _, _, hnew⟩ := FlushBuffer.reserve_decision_ok hdecision
  refine ⟨htiled, ?_, ?_, h.copied⟩
  · rw [FlushBuffer.grant_state, hnew, state_writers_reserved _ _ hwriters, h.writers, List.length_append,
      List.length_singleton]
  · rw [← List.append_assoc, List.map_append]
    exact h.granted.append_right _

/-- The ranges of the copies and of the outstanding reservations do not overlap. -/
theorem pairwise (h : Filled x outs) :
    ((x.filling.copied ++ outs).map fun copy => extent (range copy)).Pairwise Extent.Apart := by
  have hperm := h.granted.map extent
  rw [List.map_map] at hperm
  exact (hperm.pairwise_iff Extent.Apart.symm).mp h.tiles.pairwise

/-- The payload of an outstanding reservation lands beside those copied before. -/
theorem copy {offset : Usize} {payload : Slice} (h : Filled x outs)
    (houts : outs.Perm ((offset, payload) :: outs')) :
    Filled (x.write offset payload).decrement_writers outs' := by
  have h := h.perm houts
  have hpos : 0 < (state_writers x.state).toNat := by
    rw [h.writers]
    exact Nat.succ_pos _
  have hsize : (x.write offset payload).decrement_writers.size = x.size :=
    state_offset_sub_writer x.state hpos
  refine ⟨h.toTiled.congr hsize rfl, ?_, ?_, ?_⟩
  · have hless := state_writers_sub_writer x.state hpos
    have hwriters := h.writers
    rw [List.length_cons] at hwriters
    change (state_writers (x.state - WRITER_ONE)).toNat = outs'.length
    omega
  · refine h.granted.trans (List.Perm.map range ?_)
    change (x.filling.copied ++ (offset, payload) :: outs').Perm
      (x.filling.copied ++ [(offset, payload)] ++ outs')
    rw [List.append_assoc, List.singleton_append]
  · refine Copied.congr (h.copied.write fun copy hcopy => ?_) rfl rfl
    have hpairwise := h.pairwise
    rw [List.map_append, List.pairwise_append] at hpairwise
    exact hpairwise.2.2 _ (List.mem_map_of_mem hcopy) _ (List.mem_map_of_mem List.mem_cons_self)

/-- Number of bytes reserved, as the word counts them. -/
theorem reserved (h : Filled x outs) : x.filling.reserved = x.size.toNat := by
  have hsum := h.tiles.sum_len
  rw [List.map_map, Nat.zero_add] at hsum
  exact hsum

/-- Once every payload is copied, the buffer holds them in the order of their reservations. -/
theorem contents (h : Filled x []) :
    load x.buf.bytes { start := 0, len := x.size.toNat } = x.filling.contents := by
  have hread := h.tiles.load_flatMap x.buf.bytes
  rw [Nat.sub_zero] at hread
  rw [hread, List.flatMap_map]
  apply List.flatMap_congr
  intro r hr
  have hgranted := h.granted
  rw [List.append_nil] at hgranted
  obtain ⟨copy, hcopy, rfl⟩ := List.mem_map.mp (hgranted.mem_iff.mp hr)
  unfold Filling.payload
  split
  next found hfound =>
    have hmem := List.mem_of_find?_eq_some hfound
    have heq := List.find?_some hfound
    rw [beq_iff_eq] at heq
    rw [← heq]
    exact h.copied found hmem
  next hnone =>
    rw [List.find?_eq_none] at hnone
    exact absurd (beq_self_eq_true _) (hnone copy hcopy)

end Filled

/-- The copies of `outs` that hold at least one byte are no more than their bytes. -/
theorem filled_countP_le (outs : List (Usize × Slice)) :
    outs.countP (·.2.len ≠ 0) ≤ (outs.map fun copy => copy.2.len.toNat).sum := by
  induction outs with
  | nil => exact Nat.le_refl _
  | cons copy rest ih =>
    rw [List.countP_cons, List.map_cons, List.sum_cons]
    split
    next hlen =>
      have hpos : copy.2.len.toNat ≠ 0 := by
        intro hzero
        rw [decide_eq_true_eq] at hlen
        exact hlen (BitVec.eq_of_toNat_eq hzero)
      omega
    next => omega

/-- Outstanding reservations of at least one byte fit in the buffer. -/
theorem Filled.countP_le {x : FlushBuffer L} {outs : List (Usize × Slice)} (h : Filled x outs) :
    outs.countP (·.2.len ≠ 0) ≤ 2 ^ 20 := by
  have hsum := (h.granted.map fun r => r.2.toNat).sum_eq
  have hreserved := h.reserved
  have hfits := h.fits
  have hcount := filled_countP_le outs
  rw [Filling.reserved, hsum, List.map_map, List.map_append, List.sum_append] at hreserved
  have houts : (outs.map ((fun r : Usize × Usize => r.2.toNat) ∘ range)).sum =
      (outs.map fun copy => copy.2.len.toNat).sum := rfl
  omega

open BufferRing

namespace Stage

/-- Inside `f_sync` on `b`, or dead after one. -/
def syncs (b : Fin L) : Stage L → Prop
  | .waiting caller => caller = some b
  | .testing caller => caller = some b
  | .syncing caller => caller = some b
  | .synced caller => caller = some b
  | .panicked => True
  | _ => False

/-- The next step of the running call resets `b`. -/
def resets (b : Fin L) : Stage L → Prop
  | .polling (cqe :: _) => cqe.user_data = some b ∧ 0 ≤ cqe.result
  | .synced caller => caller = some b
  | _ => False

/-- A buffer is reset on a successful completion of its write or at the end of `f_sync`. -/
theorem resets_cases {b : Fin L} {stage : Stage L} (h : stage.resets b) :
    (∃ cqe rest, stage = .polling (cqe :: rest) ∧ cqe.user_data = some b ∧ 0 ≤ cqe.result) ∨
      stage = .synced (some b) := by
  unfold resets at h
  split at h
  next cqe rest => exact .inl ⟨cqe, rest, rfl, h⟩
  next caller => exact .inr (congrArg _ h)
  next => exact h.elim

theorem syncs_waited {b : Fin L} {caller : Option (Fin L)} (h : caller = some b) :
    (waited caller).syncs b := by
  subst h
  rfl

end Stage

namespace Client

/-- The reservation of `b` that a call was granted. -/
def grantOf (b : Fin L) (call : PutCall L) : Option (Usize × Slice) :=
  match call.reserve_result with
  | .ok offset => if call.current = b then some (offset, call.payload) else none
  | .error _ => none

/-- The granted reservations of `b` that the client still has to hand to `put`. -/
def outstanding (calls : List (PutCall L)) (b : Fin L) : List (Usize × Slice) :=
  calls.filterMap (grantOf b)

section Outstanding
variable {calls : List (PutCall L)} {call : PutCall L} {b c : Fin L} {i : Nat}

theorem grantOf_error {e : BufferError} (h : call.reserve_result = .error e) : grantOf b call = none := by
  unfold grantOf
  rw [h]

/-- A granted reservation is outstanding on its buffer. -/
theorem grantOf_ok {offset : Usize} (h : call.reserve_result = .ok offset) :
    grantOf call.current call = some (offset, call.payload) := by
  unfold grantOf
  rw [h]
  exact if_pos rfl

theorem grantOf_other (h : call.current ≠ b) : grantOf b call = none := by
  unfold grantOf
  split
  · exact if_neg h
  · rfl

/-- A new reservation is outstanding too. -/
theorem outstanding_concat : outstanding (calls ++ [call]) b =
    outstanding calls b ++ (grantOf b call).toList := by
  rw [outstanding, List.filterMap_append, outstanding]
  cases h : grantOf b call <;> simp [h]

/-- Handing the `i`-th result to `put` takes its reservation off the outstanding ones. -/
theorem outstanding_erase (hcall : calls[i]? = some call) :
    (outstanding calls b).Perm ((grantOf b call).toList ++ outstanding (calls.eraseIdx i) b) := by
  obtain ⟨hi, hget⟩ := List.getElem?_eq_some_iff.mp hcall
  have hperm : (call :: calls.eraseIdx i).Perm calls := by
    rw [← hget]
    exact List.getElem_cons_eraseIdx_perm hi
  refine (hperm.symm.filterMap _).trans ?_
  rw [List.filterMap_cons]
  cases h : grantOf b call with
  | none => exact .refl _
  | some range => exact .refl _

/-- A call with a failed reservation copies nothing when it is made. -/
theorem outstanding_erase_error {e : BufferError} (hcall : calls[i]? = some call)
    (hresult : call.reserve_result = .error e) :
    (outstanding calls b).Perm (outstanding (calls.eraseIdx i) b) := by
  have hperm := outstanding_erase (b := b) hcall
  rw [grantOf_error hresult] at hperm
  exact hperm

/-- A call on another buffer copies nothing here. -/
theorem outstanding_erase_other (hcall : calls[i]? = some call) (hne : call.current ≠ b) :
    (outstanding calls b).Perm (outstanding (calls.eraseIdx i) b) := by
  have hperm := outstanding_erase (b := b) hcall
  rw [grantOf_other hne] at hperm
  exact hperm

/-- A call that copies has one outstanding reservation less. -/
theorem outstanding_erase_ok {offset : Usize} (hcall : calls[i]? = some call)
    (hresult : call.reserve_result = .ok offset) :
    (outstanding calls call.current).Perm
      ((offset, call.payload) :: outstanding (calls.eraseIdx i) call.current) := by
  have hperm := outstanding_erase (b := call.current) hcall
  rw [grantOf_ok hresult] at hperm
  exact hperm

end Outstanding

/-- The buffer a call hands to `flush` without a look at its writers or its flush bit. -/
def target (s : Client L) : Action L → Option (Fin L)
  | .flush b _ => some b
  | .flush_current _ =>
    if (s.mem.ring s.mem.current_buffer).size = 0 then none else some s.mem.current_buffer
  | .f_sync b _ => some b
  | _ => none

/-- Every buffer's word and memory account for its reservations, and a buffer being flushed has none
outstanding and is sealed, unless the client is inside `f_sync` on it. -/
structure Steady (s : Client L) : Prop where
  filled : ∀ b, Filled (s.mem.ring b) (outstanding s.calls b)
  flushing : ∀ b, state_flush_in_progress (s.mem.ring b).state = true →
    outstanding s.calls b = [] ∧ (state_sealed (s.mem.ring b).state = true ∨ s.stage.syncs b)

theorem steady_init [NeZero L] (options : BufferRingOptions) :
    (init (with_options options) : Client L).Steady where
  filled _ := .of_empty rfl rfl rfl
  flushing b h := by
    rw [show ((init (with_options options)).mem.ring b).state = 0#64 from rfl,
      state_flush_in_progress_zero] at h
    cases h

/-- A buffer being flushed has no reservation outstanding, and it is sealed unless `f_sync` is at it. -/
def Undisturbed (outs : List (Usize × Slice)) (syncs : Prop) (x : FlushBuffer L) : Prop :=
  state_flush_in_progress x.state = true → outs = [] ∧ (state_sealed x.state = true ∨ syncs)

namespace Undisturbed
variable {outs outs' : List (Usize × Slice)} {syncs syncs' : Prop} {x y : FlushBuffer L}

theorem of_unflushed (h : state_flush_in_progress x.state = false) : Undisturbed outs syncs x := by
  intro hflush
  rw [h] at hflush
  cases hflush

theorem kept (h : Undisturbed outs syncs x) (hkept : x.Kept y) : Undisturbed outs syncs y := by
  unfold Undisturbed
  rw [hkept.state]
  exact h

theorem perm (h : Undisturbed outs syncs x) (hperm : outs.Perm outs') : Undisturbed outs' syncs x := by
  intro hflush
  obtain ⟨houts, hsealed⟩ := h hflush
  rw [houts] at hperm
  exact ⟨hperm.nil_eq.symm, hsealed⟩

/-- A wait that goes on leaves the buffer undisturbed. -/
theorem mono (h : Undisturbed outs syncs x)
    (hsyncs : syncs → state_flush_in_progress x.state = true → syncs') : Undisturbed outs syncs' x := by
  intro hflush
  obtain ⟨houts, hsealed⟩ := h hflush
  exact ⟨houts, hsealed.imp_right fun hin => hsyncs hin hflush⟩

end Undisturbed

/-- Granted reservations of no bytes that are outstanding. -/
def emptyGrants (calls : List (PutCall L)) : Nat :=
  calls.countP fun call => call.payload.len == 0 && call.reserve_result.toBool

/-- An empty payload is reserved only while fewer than 2^23 empty ones are outstanding. -/
def roomy (s : Client L) : Action L → Bool
  | .reserve_space _ payload => payload.len != 0 || emptyGrants s.calls < 2 ^ 23
  | _ => true

theorem outstanding_empty_le (calls : List (PutCall L)) (b : Fin L) :
    (outstanding calls b).countP (¬ ·.2.len ≠ 0) ≤ emptyGrants calls := by
  induction calls with
  | nil => exact Nat.le_refl _
  | cons call rest ih =>
    rw [outstanding, List.filterMap_cons, emptyGrants, List.countP_cons]
    rw [outstanding, emptyGrants] at ih
    cases hgrant : grantOf b call with
    | none => exact Nat.le_add_right_of_le ih
    | some copy =>
      rw [List.countP_cons]
      unfold grantOf at hgrant
      split at hgrant
      next offset hresult =>
        split at hgrant
        next =>
          obtain rfl := Option.some.inj hgrant
          by_cases hlen : call.payload.len = 0#64
          · have hleft : decide ¬ call.payload.len ≠ 0 = true := by simp [hlen]
            have hright : (call.payload.len == 0 && call.reserve_result.toBool) = true := by
              simp [hlen, hresult, Except.toBool]
            rw [if_pos hleft, if_pos hright]
            exact Nat.add_le_add_right ih 1
          · have hleft : ¬ decide ¬ call.payload.len ≠ 0 = true := by simp [hlen]
            rw [if_neg hleft]
            exact Nat.le_add_right_of_le ih
        next => cases hgrant
      next => cases hgrant

/-- The 24 bits of the writer count have room for one more reservation. -/
theorem Steady.room {s : Client L} (hs : s.Steady) (hfew : emptyGrants s.calls ≤ 2 ^ 23) (b : Fin L) :
    (outstanding s.calls b).length + 1 < 2 ^ 24 := by
  have hsplit := List.length_eq_countP_add_countP (fun copy : Usize × Slice => decide (copy.2.len ≠ 0))
    (l := outstanding s.calls b)
  have hsome := (hs.filled b).countP_le
  have hnone := outstanding_empty_le s.calls b
  simp only [decide_eq_true_eq] at hsplit
  omega

theorem emptyGrants_erase {calls : List (PutCall L)} {i : Nat} :
    emptyGrants (calls.eraseIdx i) ≤ emptyGrants calls :=
  (List.eraseIdx_sublist calls i).countP_le

section Steps
variable {options : BufferRingOptions} {store : QuikIO} {s s' : Client L} {a : Action L}

/-- A step that meets the condition keeps the empty reservations few. -/
theorem few_step (hfew : emptyGrants s.calls ≤ 2 ^ 23) (hroomy : roomy s a = true)
    (h : Moves options store s a s') : emptyGrants s'.calls ≤ 2 ^ 23 := by
  cases h
  case granted b payload offset new _ _ _ =>
    rw [emptyGrants, List.countP_append, ← emptyGrants]
    by_cases hlen : payload.len = 0#64
    · have hlt : emptyGrants s.calls < 2 ^ 23 := by
        simpa [roomy, hlen] using hroomy
      simp only [List.countP_singleton]
      split <;> omega
    · simpa [hlen] using hfew
  case rejected b payload e _ _ =>
    rw [emptyGrants, List.countP_append, ← emptyGrants]
    simpa [Except.toBool] using hfew
  case put_fails | put_seals | put_launches | put_discards | copies | copy_launches
    | copy_discards =>
    exact emptyGrants_erase.trans hfew
  all_goals exact hfew

/-- Every step keeps the bytes of all buffers. -/
theorem Steady.filled_step (hs : s.Steady)
    (hroom : ∀ b payload, a = .reserve_space b payload → (outstanding s.calls b).length + 1 < 2 ^ 24)
    (hreset : ∀ b, s.stage.resets b → outstanding s.calls b = [])
    (h : Moves options store s a s') : ∀ b, Filled (s'.mem.ring b) (outstanding s'.calls b) := by
  have hfilled := hs.filled
  have hkept (b : Fin L) (c : Fin L) (_ : c ≠ b) (y : FlushBuffer L)
      (hy : (s.mem.ring c).Kept y) : Filled y (outstanding s.calls c) := (hfilled c).kept hy
  cases h
  case granted b payload offset new hstage hlen hdecision =>
    intro c
    rw [outstanding_concat, modify_ring]
    split
    next hc =>
      subst c
      let call : PutCall L := { current := b, reserve_result := .ok offset, payload }
      have hgrant : grantOf call.current call = some (offset, payload) := grantOf_ok rfl
      rw [hgrant]
      exact (hfilled b).grant hlen hdecision (hroom b payload rfl)
    next hc =>
      rw [grantOf_other hc, Option.toList_none, List.append_nil]
      exact hfilled c
  case rejected b payload e _ _ =>
    intro c
    rw [outstanding_concat, grantOf_error (e := e) rfl, Option.toList_none, List.append_nil]
    exact hfilled c
  case put_fails hcall hresult =>
    exact fun c => (hfilled c).perm (outstanding_erase_error hcall hresult)
  case put_seals call mem _ hcall hresult _ _ hmem _ =>
    intro c
    refine Filled.perm ?_ (outstanding_erase_error hcall hresult)
    exact hmem.forall_ring (P := fun c y => Filled y (outstanding s.calls c))
      ((hfilled _).sealed_at _) (hkept _) c
  case put_launches hcall hresult _ _ _ _ hmem _ =>
    intro c
    refine Filled.perm ?_ (outstanding_erase_error hcall hresult)
    exact hmem.forall_ring (P := fun c y => Filled y (outstanding s.calls c))
      (fun sqe => ((hfilled _).sealed_at _).set_flush_in_progress.congr rfl rfl rfl rfl) (hkept _) c
  case put_discards hcall hresult hzero _ _ hmem _ =>
    intro c
    refine Filled.perm ?_ (outstanding_erase_error hcall hresult)
    refine hmem.forall_ring (P := fun c y => Filled y (outstanding s.calls c)) ?_ (hkept _) c
    rw [(hfilled _).drained hzero]
    exact .reset _
  case copies call mem offset _ hcall hresult _ hmem _ =>
    intro c
    refine hmem.forall_ring (P := fun c y => Filled y (outstanding (s.calls.eraseIdx _) c)) ?_ ?_ c
    · exact (hfilled _).copy (outstanding_erase_ok hcall hresult)
    · exact fun c hc y hy =>
        ((hfilled c).kept hy).perm (outstanding_erase_other hcall (Ne.symm hc))
  case copy_launches hcall hresult _ _ _ _ hmem _ =>
    intro c
    refine hmem.forall_ring (P := fun c y => Filled y (outstanding (s.calls.eraseIdx _) c)) ?_ ?_ c
    · exact fun sqe => ((hfilled _).copy (outstanding_erase_ok hcall hresult)).set_flush_in_progress.congr
        rfl rfl rfl rfl
    · exact fun c hc y hy =>
        ((hfilled c).kept hy).perm (outstanding_erase_other hcall (Ne.symm hc))
  case copy_discards call mem offset _ hcall hresult hlast _ _ hmem _ =>
    intro c
    refine hmem.forall_ring (P := fun c y => Filled y (outstanding (s.calls.eraseIdx _) c)) ?_ ?_ c
    · rw [(hfilled _).last_writer hlast (outstanding_erase_ok hcall hresult)]
      exact .reset _
    · exact fun c hc y hy =>
        ((hfilled c).kept hy).perm (outstanding_erase_other hcall (Ne.symm hc))
  case flushes hmem _ =>
    exact hmem.forall_ring (P := fun c y => Filled y (outstanding s.calls c))
      (fun sqe => (hfilled _).set_flush_in_progress.congr rfl rfl rfl rfl) (hkept _)
  case current_launches hmem _ =>
    exact hmem.forall_ring (P := fun c y => Filled y (outstanding s.calls c))
      (fun sqe => ((hfilled _).sealed_at _).set_flush_in_progress.congr rfl rfl rfl rfl) (hkept _)
  case retries =>
    intro c
    rw [retry_ring]
    exact hfilled c
  case succeeds b hstage huser hresult =>
    intro c
    rw [reset_buffer_ring, report_ring]
    split
    next hc =>
      subst c
      rw [hreset b (by rw [hstage]; exact ⟨huser, hresult⟩)]
      exact .reset _
    next => exact hfilled c
  case sync_launches hmem _ =>
    exact hmem.forall_ring (P := fun c y => Filled y (outstanding s.calls c))
      (fun sqe => (hfilled _).set_flush_in_progress.congr rfl rfl rfl rfl) (hkept _)
  case sync_resets b _ hstage _ =>
    intro c
    rw [reset_buffer_ring]
    split
    next hc =>
      subst c
      rw [hreset b (by rw [hstage]; rfl)]
      exact .reset _
    next => exact hfilled c
  case completes hmem =>
    obtain ⟨e, _, _, rfl⟩ := complete_cases hmem
    exact hfilled
  all_goals exact hfilled

/-- An `f_sync` goes on, or it ends: its buffer is reset and no completion awaits the reset. -/
theorem Moves.keeps_syncs (h : Moves options store s a s') {b : Fin L} (hin : s.stage.syncs b) :
    s'.stage.syncs b ∨ ((s'.mem.ring b).state = 0#64 ∧ s'.fates.awaiting = []) := by
  cases h
  case polls hstage | drains hstage | ignores hstage _ | retries hstage _ _ | succeeds hstage _ _ |
      sync_launches hstage _ _ | wait_starts hstage | sync_starts hstage | sync_ends hstage _ |
      read_submits hstage _ | read_takes hstage _ =>
    rw [hstage] at hin
    cases hin
  case wait_drains caller _ hstage =>
    rw [hstage] at hin
    refine .inl ?_
    simp only [wait, drain]
    split
    · exact Stage.syncs_waited hin
    · exact hin
  case wait_tests caller _ hstage =>
    rw [hstage] at hin
    refine .inl ?_
    simp only
    split
    · exact Stage.syncs_waited hin
    · exact hin
  case sync_refused caller _ hstage =>
    rw [hstage] at hin
    obtain rfl : caller = some b := hin
    exact .inl trivial
  case sync_submits caller ok _ hstage _ =>
    rw [hstage] at hin
    obtain rfl : caller = some b := hin
    cases ok with
    | true => exact .inl rfl
    | false => exact .inl trivial
  case sync_resets c _ hstage _ =>
    rw [hstage] at hin
    obtain rfl : c = b := Option.some.inj hin
    refine .inr ⟨?_, rfl⟩
    rw [reset_buffer_ring, if_pos rfl]
    rfl
  all_goals exact .inl hin

/-- The end of a sync resets the buffer, so one being flushed is still synced. -/
theorem Moves.stays_synced (h : Moves options store s a s') {b : Fin L} (hin : s.stage.syncs b)
    (hflushed : state_flush_in_progress (s'.mem.ring b).state = true) : s'.stage.syncs b := by
  refine (h.keeps_syncs hin).resolve_right fun hends => ?_
  rw [hends.1, state_flush_in_progress_zero] at hflushed
  cases hflushed

/-- A call on a buffer being flushed can only be the `f_sync` that goes on. -/
theorem Steady.flushing_step (hs : s.Steady)
    (hquiet : ∀ b, s.target a = some b → outstanding s.calls b = [])
    (hflush : ∀ b ok, a ≠ .flush b ok) (h : Moves options store s a s') (b : Fin L) :
    Undisturbed (outstanding s'.calls b) (s'.stage.syncs b) (s'.mem.ring b) := by
  have hflushing (c : Fin L) : Undisturbed (outstanding s.calls c) (s.stage.syncs c) (s.mem.ring c) :=
    hs.flushing c
  have hkept (c : Fin L) (y : FlushBuffer L) (hy : (s.mem.ring c).Kept y) :
      Undisturbed (outstanding s.calls c) (s.stage.syncs c) y := (hflushing c).kept hy
  have hstays := h.stays_synced (b := b)
  cases h
  case granted c payload offset new _ _ hdecision =>
    rw [modify_ring]
    obtain ⟨_, hopen, _, _, rfl⟩ := FlushBuffer.reserve_decision_ok hdecision
    by_cases hc : c = b
    · subst c
      rw [if_pos rfl]
      refine .of_unflushed ?_
      rw [FlushBuffer.grant_state, state_flush_in_progress_reserved, hopen]
    · rw [if_neg hc, outstanding_concat, grantOf_other hc, Option.toList_none, List.append_nil]
      exact hflushing b
  case rejected c payload e _ _ =>
    rw [outstanding_concat, grantOf_error (e := e) rfl, Option.toList_none, List.append_nil]
    exact hflushing b
  case put_fails hcall hresult => exact (hflushing b).perm (outstanding_erase_error hcall hresult)
  case put_seals hcall hresult _ _ hmem _ =>
    refine Undisturbed.perm ?_ (outstanding_erase_error hcall hresult)
    refine hmem.forall_ring (P := fun c y => Undisturbed (outstanding s.calls c) (s.stage.syncs c) y)
      (fun h => ?_) (fun c _ => hkept c) b
    exact ⟨(hflushing _ ((state_flush_in_progress_or_sealed _).symm.trans h)).1,
      .inl (state_sealed_or_sealed _)⟩
  case put_launches hcall hresult _ hzero _ _ hmem _ =>
    refine Undisturbed.perm ?_ (outstanding_erase_error hcall hresult)
    exact hmem.forall_ring (P := fun c y => Undisturbed (outstanding s.calls c) (s.stage.syncs c) y)
      (fun _ _ => ⟨(hs.filled _).drained hzero, .inl ((state_sealed_or_flush _).trans (state_sealed_or_sealed _))⟩)
      (fun c _ => hkept c) b
  case put_discards hcall hresult _ _ _ hmem _ =>
    refine Undisturbed.perm ?_ (outstanding_erase_error hcall hresult)
    exact hmem.forall_ring (P := fun c y => Undisturbed (outstanding s.calls c) (s.stage.syncs c) y)
      (.of_unflushed state_flush_in_progress_zero) (fun c _ => hkept c) b
  case copies hcall hresult _ hmem _ =>
    refine hmem.forall_ring (P := fun c y =>
      Undisturbed (outstanding (s.calls.eraseIdx _) c) (s.stage.syncs c) y) ?_ ?_ b
    · intro h
      have hperm := outstanding_erase_ok hcall hresult
      rw [(hflushing _ ((state_flush_in_progress_sub_writer _).symm.trans h)).1] at hperm
      exact absurd hperm.nil_eq (List.cons_ne_nil _ _).symm
    · exact fun c hc y hy => (hkept c y hy).perm (outstanding_erase_other hcall (Ne.symm hc))
  case copy_launches call mem offset _ hcall hresult hlast hsealed _ _ hmem _ =>
    refine hmem.forall_ring (P := fun c y =>
      Undisturbed (outstanding (s.calls.eraseIdx _) c) (s.stage.syncs c) y) ?_ ?_ b
    · intro sqe _
      refine ⟨(hs.filled _).last_writer hlast (outstanding_erase_ok hcall hresult), .inl ?_⟩
      exact (state_sealed_or_flush _).trans ((state_sealed_sub_writer _).trans hsealed)
    · exact fun c hc y hy => (hkept c y hy).perm (outstanding_erase_other hcall (Ne.symm hc))
  case copy_discards hcall _ _ _ _ hmem _ =>
    exact hmem.forall_ring (P := fun c y =>
      Undisturbed (outstanding (s.calls.eraseIdx _) c) (s.stage.syncs c) y)
      (.of_unflushed state_flush_in_progress_zero)
      (fun c hc y hy => (hkept c y hy).perm (outstanding_erase_other hcall (Ne.symm hc))) b
  case flushes c ok _ _ _ _ => exact absurd rfl (hflush c ok)
  case current_launches hsize hmem _ =>
    refine hmem.forall_ring (P := fun c y => Undisturbed (outstanding s.calls c) (s.stage.syncs c) y) ?_
      (fun c _ => hkept c) b
    intro _ _
    exact ⟨hquiet _ (if_neg hsize), .inl ((state_sealed_or_flush _).trans (state_sealed_or_sealed _))⟩
  case retries =>
    rw [retry_ring] at hstays ⊢
    exact (hflushing b).mono hstays
  case succeeds c _ _ _ =>
    rw [reset_buffer_ring, report_ring] at hstays ⊢
    by_cases hc : c = b
    · rw [if_pos hc]
      exact .of_unflushed state_flush_in_progress_zero
    · rw [if_neg hc] at hstays ⊢
      exact (hflushing b).mono hstays
  case sync_launches c _ _ hstage hmem _ =>
    refine hmem.forall_ring (P := fun c' y =>
      Undisturbed (outstanding s.calls c') ((Stage.waiting (some c)).syncs c') y) ?_ ?_ b
    · exact fun _ _ => ⟨hquiet c rfl, .inr rfl⟩
    · intro c' hc y hy
      refine (hkept c' y hy).mono fun hin _ => ?_
      rw [hstage] at hin
      cases hin
  case sync_resets c _ hstage _ =>
    rw [reset_buffer_ring] at hstays ⊢
    by_cases hc : c = b
    · rw [if_pos hc]
      exact .of_unflushed state_flush_in_progress_zero
    · rw [if_neg hc] at hstays ⊢
      exact (hflushing b).mono hstays
  case polls | drains | ignores | wait_starts | wait_drains | wait_tests | sync_starts | sync_refused |
      sync_submits | sync_ends | read_submits | read_takes =>
    exact (hflushing b).mono hstays
  case completes hmem =>
    obtain ⟨e, _, _, rfl⟩ := complete_cases hmem
    exact hflushing b
  all_goals exact hflushing b

/-- Every step that meets the conditions keeps the fillings. -/
theorem Steady.step (hs : s.Steady)
    (hroom : ∀ b payload, a = .reserve_space b payload → (outstanding s.calls b).length + 1 < 2 ^ 24)
    (hquiet : ∀ b, s.target a = some b → outstanding s.calls b = []) (hflush : ∀ b ok, a ≠ .flush b ok)
    (hreset : ∀ b, s.stage.resets b → outstanding s.calls b = [])
    (h : Moves options store s a s') : s'.Steady :=
  ⟨hs.filled_step hroom hreset h, hs.flushing_step hquiet hflush h⟩

end Steps

end Client

end FlushRing
