import FlushRing.Client.Moves
import FlushRing.Extents

open Transition Extents

namespace FlushRing

variable {L : Nat}

/-- The range of the file an entry writes. -/
def Sqe.region (e : Sqe L) : Extent := { start := e.offset.toNat, len := e.len }

namespace FlushBuffer

/-- The entry asks for no more than the padded data. -/
theorem entry_len_le (self : FlushBuffer L) (store : QuikIO) (b : Fin L) :
    (self.entry store b).len ≤ self.data_len.toNat := by
  have hlen : (self.entry store b).len = (self.data_len.setWidth 32).toNat := rfl
  rw [hlen, BitVec.toNat_setWidth]
  exact Nat.mod_le _ _

end FlushBuffer

namespace BufferRing

/-- The claims of a sealing `put` move the next address past the padded data, unless it wraps. -/
theorem Claimed.padded {mem mem' : BufferRing L} {b : Fin L} (h : mem.Claimed mem' b)
    (hle : mem.next_address_range.toNat ≤ mem'.next_address_range.toNat) :
    mem.next_address_range.toNat + (mem.ring b).data_len.toNat ≤ mem'.next_address_range.toNat := by
  have hsize := (mem.ring b).size_lt
  have hlen := (mem.ring b).data_len_toNat
  obtain haddress | haddress := h
  · rw [haddress] at hle ⊢
    rw [add_toNat_of_le hle]
  · rw [haddress] at hle ⊢
    rw [BitVec.toNat_add, BitVec.toNat_add] at hle ⊢
    omega

/-- Every entry ever pushed lies below the next address, entries of different fillings write disjoint
ranges, and the entries kept for a retry are among them. -/
structure Placed (mem : BufferRing L) : Prop where
  below : ∀ e ∈ mem.io.pushed, e.region.stop ≤ mem.next_address_range.toNat
  apart : ∀ e ∈ mem.io.pushed, ∀ e' ∈ mem.io.pushed,
    (e.user_data, e.filling) ≠ (e'.user_data, e'.filling) → e.region.Apart e'.region
  stored : ∀ b e, (mem.ring b).sqe = some e → e ∈ mem.io.pushed

theorem placed_init [NeZero L] (options : BufferRingOptions) :
    (with_options options : BufferRing L).Placed where
  below e he := by cases he
  apart e he := by cases he
  stored b e h := by cases h

namespace Placed
variable {mem mem' : BufferRing L} {b : Fin L} {x : FlushBuffer L} {store : QuikIO} {ok : Bool}

/-- A step that pushes nothing and stores no entry. -/
theorem keep (h : mem.Placed) (hpushed : mem'.io.pushed = mem.io.pushed)
    (hle : mem.next_address_range.toNat ≤ mem'.next_address_range.toNat)
    (hsqe : ∀ b, (mem'.ring b).sqe = (mem.ring b).sqe) : mem'.Placed := by
  refine ⟨fun e he => ?_, ?_, fun b e hstored => ?_⟩
  · rw [hpushed] at he
    exact (h.below e he).trans hle
  · rw [hpushed]
    exact h.apart
  · rw [hpushed]
    rw [hsqe] at hstored
    exact h.stored b e hstored

/-- A changed buffer that keeps its entry keeps the writes apart. -/
theorem changed (h : mem.Placed) (hmem : Changed mem mem' b x) (hx : x.sqe = (mem.ring b).sqe)
    (hle : mem.next_address_range.toNat ≤ mem'.next_address_range.toNat) : mem'.Placed := by
  apply h.keep (by rw [hmem.io]) hle
  intro c
  by_cases hc : c = b
  · rw [hc, hmem.target, hx]
  · exact (hmem.others c hc).sqe

/-- The entry of a buffer that was just given the next address lies above all earlier ones. -/
theorem launched (h : mem.Placed) (hmem : Launched store ok mem mem' b x)
    (haddress : x.local_address = mem.next_address_range) (hx : x.sqe = (mem.ring b).sqe)
    (hle : mem.next_address_range.toNat ≤ mem'.next_address_range.toNat)
    (hfits : mem.io.sq.length < SQ_ENTRIES →
      mem.next_address_range.toNat + x.data_len.toNat ≤ mem'.next_address_range.toNat) :
    mem'.Placed := by
  obtain ⟨hpushed, hsame⟩ | ⟨hroom, hpushed, _⟩ := hmem.pushed_cases hx
  · exact h.keep hpushed hle hsame
  · have hstart : (x.entry store b).region.start = mem.next_address_range.toNat :=
      congrArg BitVec.toNat haddress
    have hstop : (x.entry store b).region.stop ≤ mem'.next_address_range.toNat := by
      have hlen := x.entry_len_le store b
      have hclaimed := hfits hroom
      have hregion : (x.entry store b).region.len = (x.entry store b).len := rfl
      rw [Extent.stop, hstart, hregion]
      omega
    have habove (e : Sqe L) (he : e ∈ mem.io.pushed) : e.region.Apart (x.entry store b).region := by
      apply Extent.apart_of_le
      rw [hstart]
      exact h.below e he
    refine ⟨fun e he => ?_, fun e he e' he' hne => ?_, hmem.keeps_stored hx h.stored⟩
    · rw [hpushed, List.mem_append, List.mem_singleton] at he
      obtain he | rfl := he
      · exact (h.below e he).trans hle
      · exact hstop
    · rw [hpushed, List.mem_append, List.mem_singleton] at he he'
      obtain he | rfl := he
      · obtain he' | rfl := he'
        · exact h.apart e he e' he' hne
        · exact habove e he
      · obtain he' | rfl := he'
        · exact (habove e' he').symm
        · exact absurd rfl hne

/-- A retry pushes an entry that was pushed before. -/
theorem retry (h : mem.Placed) (ok : Bool) (b : Fin L) : (mem.retry ok b).Placed := by
  have hmem (e : Sqe L) (he : e ∈ (mem.retry ok b).io.pushed) : e ∈ mem.io.pushed :=
    (Client.mem_pushed_retry he).elim id (h.stored b e)
  refine ⟨fun e he => ?_, fun e he e' he' hne => ?_, fun c e hstored => ?_⟩
  · rw [retry_address]
    exact h.below e (hmem e he)
  · exact h.apart e (hmem e he) e' (hmem e' he') hne
  · rw [retry_ring] at hstored
    exact (Client.retry_grows mem ok b).1 e (h.stored c e hstored)

end Placed

end BufferRing

open BufferRing

namespace Client

/-- Calls are complete: nothing else is called before a reservation is handed to `put`. -/
def paired (s : Client L) : Action L → Bool
  | .put _ _ => true
  | .resume _ => true
  | .complete _ _ => true
  | _ => s.calls.isEmpty

/-- The next address does not wrap in this step. -/
def noWrap (options : BufferRingOptions) (s : Client L) (a : Action L) : Bool :=
  (step options s a).all fun s' =>
    s.mem.next_address_range.toNat ≤ s'.mem.next_address_range.toNat

/-- `flush_current` finds no data, a full submission queue, data that fills whole blocks, or a free
buffer to rotate to while twice the data covers the blocks it fills. -/
def coversBlocks (s : Client L) : Action L → Bool
  | .flush_current _ =>
    let current := s.mem.ring s.mem.current_buffer
    current.size == 0 || SQ_ENTRIES ≤ s.mem.io.sq.length || current.size.toNat % 4096 == 0 ||
      (s.mem.free_ahead L && current.data_len.toNat ≤ 2 * current.size.toNat)
  | _ => true

/-- What the writes pushed so far and the reservation at hand satisfy in between. -/
structure Disjointed (s : Client L) : Prop where
  placed : s.mem.Placed
  single : s.calls.length ≤ 1
  opened : ∀ call ∈ s.calls, ∀ offset, call.reserve_result = .ok offset →
    state_sealed (s.mem.ring call.current).state = false
  polls : s.stage.polls = true

theorem disjointed_init [NeZero L] (options : BufferRingOptions) :
    (init (with_options options) : Client L).Disjointed where
  placed := placed_init options
  single := Nat.zero_le _
  opened call hcall := by cases hcall
  polls := rfl

section Steps
variable {options : BufferRingOptions} {store : QuikIO} {s s' : Client L} {a : Action L}

theorem eraseIdx_of_single {calls : List (PutCall L)} {i : Nat} {call : PutCall L}
    (hpaired : calls.length ≤ 1) (hcall : calls[i]? = some call) : calls.eraseIdx i = [] := by
  obtain ⟨hi, _⟩ := List.getElem?_eq_some_iff.mp hcall
  apply List.length_eq_zero_iff.mp
  rw [List.length_eraseIdx_of_lt hi]
  omega

/-- The next address only grows. -/
theorem noWrap_step (hwrap : noWrap options s a = true) (h : step options s a = some s') :
    s.mem.next_address_range.toNat ≤ s'.mem.next_address_range.toNat := by
  simpa [noWrap, h] using hwrap

/-- The claims of `flush_current` cover what it submits. -/
theorem coversBlocks_claim {ok : Bool} {mem : BufferRing L}
    (hcovers : coversBlocks s (.flush_current ok) = true)
    (hsize : (s.mem.ring s.mem.current_buffer).size ≠ 0)
    (hle : s.mem.next_address_range.toNat ≤ mem.next_address_range.toNat)
    (hclaim : mem.next_address_range =
      if s.mem.free_ahead L then
        s.mem.next_address_range + (s.mem.ring s.mem.current_buffer).size +
          (s.mem.ring s.mem.current_buffer).size
      else s.mem.next_address_range + (s.mem.ring s.mem.current_buffer).size)
    (hroom : s.mem.io.sq.length < SQ_ENTRIES) :
    s.mem.next_address_range.toNat + (s.mem.ring s.mem.current_buffer).data_len.toNat ≤
      mem.next_address_range.toNat := by
  have hlt := (s.mem.ring s.mem.current_buffer).size_lt
  have hlen := (s.mem.ring s.mem.current_buffer).data_len_toNat
  have hsize : ¬ (s.mem.ring s.mem.current_buffer).size = 0#64 := hsize
  simp only [coversBlocks, Bool.or_eq_true, Bool.and_eq_true, beq_iff_eq, decide_eq_true_eq, hsize,
    BitVec.ofNat_eq_ofNat, false_or] at hcovers
  rw [hclaim] at hle ⊢
  split at hle
  next hfree =>
    rw [if_pos hfree]
    rw [BitVec.toNat_add, BitVec.toNat_add] at hle ⊢
    omega
  next hfree =>
    rw [if_neg hfree]
    have hfull : (s.mem.ring s.mem.current_buffer).size.toNat % 4096 = 0 := by
      obtain (hqueue | hfull) | ⟨hfound, _⟩ := hcovers
      · omega
      · exact hfull
      · exact absurd hfound hfree
    rw [BitVec.toNat_add] at hle ⊢
    omega

/-- Every step that meets the conditions keeps the writes of different fillings apart. -/
theorem Disjointed.placed_step (hs : s.Disjointed) (hcovers : coversBlocks s a = true)
    (hle : s.mem.next_address_range.toNat ≤ s'.mem.next_address_range.toNat)
    (hauto : automatic a = true) (h : Moves options store s a s') : s'.mem.Placed := by
  have hplaced := hs.placed
  have hpolls := hs.polls
  cases h
  case granted b payload offset new _ _ hdecision =>
    exact hplaced.changed (.of_modify s.mem b (·.grant new offset payload.len)) rfl hle
  case rejected => exact hplaced
  case put_fails => exact hplaced
  case put_seals hmem _ => exact hplaced.changed hmem rfl hle
  case put_launches hmem hclaim =>
    refine hplaced.launched hmem rfl rfl hle fun _ => ?_
    rw [FlushBuffer.data_len, FlushBuffer.sealed_at_size]
    exact hclaim.padded hle
  case put_discards hmem _ => exact hplaced.changed hmem rfl hle
  case copies hmem _ => exact hplaced.changed hmem rfl hle
  case copy_launches hcall hresult _ hsealed _ _ _ _ =>
    have hopen := hs.opened _ (List.mem_of_getElem? hcall) _ hresult
    rw [hsealed] at hopen
    cases hopen
  case copy_discards hmem _ => exact hplaced.changed hmem rfl hle
  case current_empty => exact hplaced
  case current_launches hsize hmem hclaim =>
    refine hplaced.launched hmem rfl rfl hle fun hroom => ?_
    rw [FlushBuffer.data_len, FlushBuffer.sealed_at_size]
    exact coversBlocks_claim hcovers hsize hle hclaim hroom
  case polls => exact hplaced
  case drains => exact hplaced.keep rfl hle fun _ => rfl
  case ignores => exact hplaced
  case retries => exact hplaced.retry _ _
  case succeeds b _ _ _ =>
    refine hplaced.keep ?_ hle fun c => ?_
    · exact congrArg IoUring.pushed (report_io options s.mem b)
    · rw [reset_buffer_ring, report_ring]
      split <;> rfl
  case flushes | sync_launches | wait_starts | sync_starts | read_refused | read_submits => cases hauto
  case wait_drains hstage | wait_tests hstage | sync_refused hstage | sync_submits hstage _ | sync_ends hstage _ |
      sync_resets hstage _ | read_takes hstage _ =>
    cases hstage ▸ hpolls
  case completes hmem =>
    obtain ⟨e, _, _, rfl⟩ := complete_cases hmem
    exact hplaced.keep rfl hle fun _ => rfl

/-- The reservation at hand is in an open buffer: only the calls that follow its `put` seal. -/
theorem Moves.opened_step (h : Moves options store s a s') (hpaired : paired s a = true)
    (hsingle : s.calls.length ≤ 1)
    (hopened : ∀ call ∈ s.calls, ∀ offset, call.reserve_result = .ok offset →
      state_sealed (s.mem.ring call.current).state = false) :
    ∀ call ∈ s'.calls, ∀ offset, call.reserve_result = .ok offset →
      state_sealed (s'.mem.ring call.current).state = false := by
  have hnone (hempty : s.calls.isEmpty = true) : s.calls = [] := List.isEmpty_iff.mp hempty
  have hlast {i : Nat} {call : PutCall L} (hcall : s.calls[i]? = some call) :
      s.calls.eraseIdx i = [] := eraseIdx_of_single hsingle hcall
  cases h
  case granted b payload offset new _ _ hdecision =>
    intro call hmem offset' hresult
    simp only [hnone hpaired, List.nil_append, List.mem_singleton] at hmem
    subst hmem
    obtain ⟨hopen, _, _, _, rfl⟩ := FlushBuffer.reserve_decision_ok hdecision
    rw [modify_ring_self, FlushBuffer.grant_state, state_sealed_reserved]
    exact hopen
  case rejected =>
    intro call hmem offset hresult
    simp only [hnone hpaired, List.nil_append, List.mem_singleton] at hmem
    subst hmem
    cases hresult
  case current_launches =>
    intro call hmem
    rw [hnone hpaired] at hmem
    cases hmem
  case retries =>
    intro call hmem
    rw [retry_ring]
    exact hopened call hmem
  case succeeds =>
    intro call hmem offset hresult
    rw [reset_buffer_ring, report_ring]
    split
    · exact state_sealed_zero
    · exact hopened call hmem offset hresult
  case flushes | sync_launches =>
    intro call hmem
    rw [hnone hpaired] at hmem
    cases hmem
  case sync_resets =>
    intro call hmem offset hresult
    rw [reset_buffer_ring]
    split
    · exact state_sealed_zero
    · exact hopened call hmem offset hresult
  case completes hmem =>
    obtain ⟨e, _, _, rfl⟩ := complete_cases hmem
    exact hopened
  case put_fails | put_seals | put_launches | put_discards | copies | copy_launches
    | copy_discards =>
    intro call hmem
    rw [hlast ‹s.calls[_]? = some _›] at hmem
    cases hmem
  all_goals exact hopened

/-- In a paired run at most one reservation is outstanding. -/
theorem Moves.paired_step (h : Moves options store s a s') (hpaired : paired s a = true)
    (hlength : s.calls.length ≤ 1) : s'.calls.length ≤ 1 := by
  cases h
  case granted | rejected =>
    rw [List.isEmpty_iff.mp hpaired]
    exact Nat.le_refl 1
  case put_fails | put_seals | put_launches | put_discards | copies | copy_launches
    | copy_discards =>
    rw [eraseIdx_of_single hlength ‹s.calls[_]? = some _›]
    exact Nat.zero_le 1
  all_goals exact hlength

/-- Every step that meets the conditions keeps the writes apart and at most one reservation at hand. -/
theorem Disjointed.step (hs : s.Disjointed) (hstore : options.io_instance = some store)
    (hpaired : paired s a = true) (hauto : automatic a = true) (hwrap : noWrap options s a = true)
    (hcovers : coversBlocks s a = true) (h : Client.step options s a = some s') : s'.Disjointed := by
  have hmoves := step_moves hstore h
  refine ⟨hs.placed_step hcovers (noWrap_step hwrap h) hauto hmoves, ?_,
    hmoves.opened_step hpaired hs.single hs.opened, hmoves.stays_polling hauto hs.polls⟩
  exact hmoves.paired_step hpaired hs.single

/-- As long as every `flush_current` claims enough for the whole blocks it submits, writes of different
fillings go to disjoint ranges of the file. -/
theorem different_fillings_disjoint [NeZero L] (hstore : options.io_instance = some store)
    (h : Reaches (Client.step options)
      (fun s a => paired s a = true ∧ automatic a = true ∧ noWrap options s a = true ∧
        coversBlocks s a = true)
      (init (with_options options)) s)
    {e e' : Sqe L} (he : e ∈ s.mem.io.pushed) (he' : e' ∈ s.mem.io.pushed)
    (hne : (e.user_data, e.filling) ≠ (e'.user_data, e'.filling)) :
    Disjoint (Set.Ico e.offset.toNat (e.offset.toNat + e.len))
      (Set.Ico e'.offset.toNat (e'.offset.toNat + e'.len)) := by
  have hs : s.Disjointed := h.invariant (P := Disjointed)
    (fun _ _ _ hs hok h => hs.step hstore hok.1 hok.2.1 hok.2.2.1 hok.2.2.2 h)
    (disjointed_init options)
  exact hs.placed.apart e he e' he' hne

end Steps

/-- A client fills the first buffer, seals and submits it with the next payload, and flushes one block
from the second. -/
def sealThenFlush : List (Action 2) :=
  [.reserve_space 0 (zeros ONE_MEGABYTE_BLOCK), .put 0 true, .reserve_space 0 (zeros 4096), .put 0 true,
    .reserve_space 1 (zeros 4096), .put 0 true, .flush_current true]

theorem different_fillings_disjoint_sealThenFlush :
    ∃ s : Client 2,
      Reaches (Client.step storeOptions)
        (fun s a => paired s a = true ∧ automatic a = true ∧ noWrap storeOptions s a = true ∧
          coversBlocks s a = true)
        (init (with_options storeOptions)) s ∧
      ∃ e ∈ s.mem.io.pushed, ∃ e' ∈ s.mem.io.pushed, e.len = 1048576 ∧ e'.len = 4096 ∧
        Disjoint (Set.Ico e.offset.toNat (e.offset.toNat + e.len))
          (Set.Ico e'.offset.toNat (e'.offset.toNat + e'.len)) := by
  have hrun : (exec (Client.step storeOptions)
      (fun s a => paired s a = true ∧ automatic a = true ∧ noWrap storeOptions s a = true ∧
        coversBlocks s a = true)
      sealThenFlush (init (with_options storeOptions))).any
      (fun s => s.mem.io.pushed.any (fun e => e.len == 1048576 && e.user_data == some 0) &&
        s.mem.io.pushed.any (fun e => e.len == 4096 && e.user_data == some 1)) = true := by
    decide +kernel
  obtain ⟨s, hreach, hcheck⟩ := exists_of_exec hrun
  simp only [Bool.and_eq_true, List.any_eq_true, beq_iff_eq] at hcheck
  obtain ⟨⟨e, he, hlen, hbuffer⟩, e', he', hlen', hbuffer'⟩ := hcheck
  refine ⟨s, hreach, e, he, e', he', hlen, hlen', ?_⟩
  have hstore : storeOptions.io_instance = some QuikIO.new := rfl
  apply different_fillings_disjoint hstore hreach he he'
  rw [hbuffer, hbuffer']
  intro hsame
  cases hsame

/-- Two payloads of ten bytes, each flushed on its own. -/
def flushTwice : List (Action 2) :=
  [.reserve_space 0 (zeros 10), .put 0 true, .flush_current true, .reserve_space 1 (zeros 10), .put 0 true,
    .flush_current true]

/-- The first write covers a whole block from address 0, the second one from address 20. -/
theorem flush_current_overlaps :
    ∃ s : Client 2,
      Reaches (Client.step storeOptions)
        (fun s a => paired s a = true ∧ automatic a = true ∧ noWrap storeOptions s a = true)
        (init (with_options storeOptions)) s ∧
      ∃ e ∈ s.mem.io.pushed, ∃ e' ∈ s.mem.io.pushed,
        (e.user_data, e.filling) ≠ (e'.user_data, e'.filling) ∧
        ¬ Disjoint (Set.Ico e.offset.toNat (e.offset.toNat + e.len))
          (Set.Ico e'.offset.toNat (e'.offset.toNat + e'.len)) := by
  have hrun : (exec (Client.step storeOptions)
      (fun s a => paired s a = true ∧ automatic a = true ∧ noWrap storeOptions s a = true)
      flushTwice (init (with_options storeOptions))).any
      (fun s => s.mem.io.pushed.any
          (fun e => e.offset == 0 && e.len == 4096 && e.user_data == some 0) &&
        s.mem.io.pushed.any
          (fun e => e.offset == 20 && e.len == 4096 && e.user_data == some 1)) = true := by
    decide +kernel
  obtain ⟨s, hreach, hcheck⟩ := exists_of_exec hrun
  simp only [Bool.and_eq_true, List.any_eq_true, beq_iff_eq] at hcheck
  obtain ⟨⟨e, he, ⟨hoffset, hlen⟩, hbuffer⟩, e', he', ⟨hoffset', hlen'⟩, hbuffer'⟩ := hcheck
  refine ⟨s, hreach, e, he, e', he', ?_, ?_⟩
  · rw [hbuffer, hbuffer']
    intro hsame
    cases hsame
  · rw [hoffset, hoffset', hlen, hlen', Set.Ico_disjoint_Ico]
    decide

end Client

end FlushRing
