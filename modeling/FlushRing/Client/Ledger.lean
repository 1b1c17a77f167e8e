import FlushRing.Client.Delivery
import FlushRing.Client.Sequential

open Transition Extents

namespace FlushRing

variable {L : Nat}

open BufferRing

/-- The slot `put` claimed for a filling it sealed, with the bytes written to it. -/
structure Claim (L : Nat) where
  buffer : Fin L
  filling : Nat
  slot : Usize
  size : Usize

namespace Claim

/-- The written size rounded up to whole blocks. -/
def len (self : Claim L) : Nat := (self.size.toNat + 4095) / 4096 * 4096

/-- The filling claimed for. -/
def key (self : Claim L) : Fin L × Nat := (self.buffer, self.filling)

def region (self : Claim L) : Extent := { start := self.slot.toNat, len := self.len }

/-- The entry is the write of the filling to its slot. -/
def Writes (self : Claim L) (e : Sqe L) : Prop :=
  e.user_data = some self.buffer ∧ e.filling = self.filling ∧ e.offset = self.slot ∧ e.len = self.len

end Claim

/-- The rotation after `b` is sealed claims its size once more: `b` is the current buffer and a free one is
among the next of the cursor. -/
def BufferRing.rotates (options : BufferRingOptions) (self : BufferRing L) (b : Fin L) : Bool :=
  options.auto_rotate && self.current_buffer == b && (self.claim b (self.ring b).data_len).free_ahead L

/-- What a `put` that seals `b` claims for its filling. -/
def BufferRing.claimFor (self : BufferRing L) (b : Fin L) : Claim L :=
  { buffer := b, filling := (self.ring b).filling.number, slot := self.next_address_range,
    size := (self.ring b).size }

/-- What a step that seals a filling claims for it. -/
def Client.newClaim (s : Client L) : Client.Action L → Option (Claim L)
  | .put i _ =>
    match s.calls[i]? with
    | some call =>
      if call.reserve_result = .error .InsufficientSpace ∧
          state_sealed (s.mem.ring call.current).state = false then
        some (s.mem.claimFor call.current)
      else none
    | none => none
  | _ => none

/-- A client, with the claims for the fillings sealed so far as history. -/
structure Ledger (L : Nat) where
  client : Client L
  claims : List (Claim L)

namespace Ledger

def init (mem : BufferRing L) : Ledger L := { client := .init mem, claims := [] }

def step (options : BufferRingOptions) (s : Ledger L) (a : Client.Action L) : Option (Ledger L) :=
  (s.client.step options a).map fun client =>
    { client, claims := s.claims ++ (s.client.newClaim a).toList }

end Ledger

namespace Client

section Steps
variable {options : BufferRingOptions} {store : QuikIO} {s s' : Client L} {a : Action L}

/-- Only the sealing branch of `put` claims a slot. -/
theorem newClaim_eq_some {claim : Claim L} (h : s.newClaim a = some claim) :
    ∃ i ok call, a = .put i ok ∧ s.calls[i]? = some call ∧
      call.reserve_result = .error .InsufficientSpace ∧
      state_sealed (s.mem.ring call.current).state = false ∧
      claim = s.mem.claimFor call.current := by
  unfold newClaim at h
  split at h
  next i ok =>
    split at h
    next call hcall =>
      split at h
      next hseals => exact ⟨i, ok, call, rfl, hcall, hseals.1, hseals.2, (Option.some.inj h).symm⟩
      next => cases h
    next => cases h
  next => cases h

/-- A `put` that seals an open buffer claims a slot. -/
theorem newClaim_put {i : Nat} {ok : Bool} {call : PutCall L} (hcall : s.calls[i]? = some call)
    (hresult : call.reserve_result = .error .InsufficientSpace)
    (hopen : state_sealed (s.mem.ring call.current).state = false) :
    (s.newClaim (.put i ok)).isSome = true := by
  simp [newClaim, hcall, hresult, hopen]

/-- A buffer once sealed stays so until its filling ends. -/
theorem Moves.stays_sealed (h : Moves options store s a s') (c : Fin L)
    (hsealed : state_sealed (s.mem.ring c).state = true) :
    (s.mem.ring c).filling.number < (s'.mem.ring c).filling.number ∨
      (s'.mem.ring c).filling.number = (s.mem.ring c).filling.number ∧
        state_sealed (s'.mem.ring c).state = true := by
  let P (c : Fin L) (y : FlushBuffer L) : Prop :=
    state_sealed (s.mem.ring c).state = true → (s.mem.ring c).filling.number < y.filling.number ∨
      y.filling.number = (s.mem.ring c).filling.number ∧ state_sealed y.state = true
  have hkept (b : Fin L) (c : Fin L) (_ : c ≠ b) (y : FlushBuffer L) (hy : (s.mem.ring c).Kept y) :
      P c y := by
    intro hsealed
    rw [hy.filling, hy.state]
    exact .inr ⟨rfl, hsealed⟩
  have hchanged {mem : BufferRing L} {b : Fin L} {x : FlushBuffer L} (hmem : Changed s.mem mem b x)
      (hx : P b x) : P c (mem.ring c) := hmem.forall_ring (P := P) hx (hkept b) c
  have hlaunched {ok : Bool} {mem : BufferRing L} {b : Fin L} {x : FlushBuffer L}
      (hmem : Launched store ok s.mem mem b x) (hx : ∀ sqe, P b { x.set_flush_in_progress with sqe }) :
      P c (mem.ring c) := hmem.forall_ring (P := P) hx (hkept b) c
  have hreset {mem : BufferRing L} (b : Fin L) (hring : mem.ring = s.mem.ring) :
      P c ((mem.reset_buffer b).ring c) := by
    intro hsealed
    rw [reset_buffer_ring, hring]
    split
    · exact .inl (Nat.lt_succ_self _)
    · exact .inr ⟨rfl, hsealed⟩
  cases h
  case granted b payload offset new _ _ hdecision =>
    refine hchanged (.of_modify s.mem b (·.grant new offset payload.len)) (fun hsealed => ?_) hsealed
    obtain ⟨hopen, _⟩ := FlushBuffer.reserve_decision_ok hdecision
    rw [hsealed] at hopen
    cases hopen
  case put_seals hmem _ => exact hchanged hmem (fun _ => .inr ⟨rfl, state_sealed_or_sealed _⟩) hsealed
  case put_launches hmem _ =>
    exact hlaunched hmem (fun _ _ => .inr
      ⟨rfl, (state_sealed_or_flush _).trans (state_sealed_or_sealed _)⟩) hsealed
  case put_discards hmem _ => exact hchanged hmem (fun _ => .inl (Nat.lt_succ_self _)) hsealed
  case copies hmem _ =>
    exact hchanged hmem (fun hsealed => .inr ⟨rfl, (state_sealed_sub_writer _).trans hsealed⟩) hsealed
  case copy_launches hmem _ =>
    exact hlaunched hmem (fun _ hsealed => .inr
      ⟨rfl, (state_sealed_or_flush _).trans ((state_sealed_sub_writer _).trans hsealed)⟩) hsealed
  case copy_discards hmem _ => exact hchanged hmem (fun _ => .inl (Nat.lt_succ_self _)) hsealed
  case flushes hmem _ =>
    exact hlaunched hmem (fun _ hsealed => .inr ⟨rfl, (state_sealed_or_flush _).trans hsealed⟩) hsealed
  case current_launches hmem _ =>
    exact hlaunched hmem (fun _ _ => .inr
      ⟨rfl, (state_sealed_or_flush _).trans (state_sealed_or_sealed _)⟩) hsealed
  case retries b _ _ _ =>
    rw [retry_ring]
    exact .inr ⟨rfl, hsealed⟩
  case succeeds b _ _ _ => exact hreset b (report_ring options s.mem b) hsealed
  case sync_launches hmem _ =>
    exact hlaunched hmem (fun _ hsealed => .inr ⟨rfl, (state_sealed_or_flush _).trans hsealed⟩) hsealed
  case sync_resets b _ _ _ => exact hreset b rfl hsealed
  case completes hmem =>
    obtain ⟨e, _, _, rfl⟩ := complete_cases hmem
    exact .inr ⟨rfl, hsealed⟩
  all_goals exact .inr ⟨rfl, hsealed⟩

theorem automatic_of_logging (hlog : logging a = true) : automatic a = true := by
  cases a
  case flush_current => cases hlog
  all_goals exact hlog

theorem between_of_put {i : Nat} {ok : Bool} (h : Client.step options s (.put i ok) = some s') :
    s.stage = .between := by
  cases hstage : s.stage
  case between => rfl
  all_goals simp [Client.step, hstage] at h

/-- A `put` that seals hands the buffer over at the next address, and claims its padded size, and its size
once more if it rotates. -/
theorem Sequential.claims (hs : s.Sequential) (hstore : options.io_instance = some store)
    (hflush : options.auto_flush = true) (h : Client.step options s a = some s') {claim : Claim L}
    (hclaim : s.newClaim a = some claim) :
    ∃ ok, claim = s.mem.claimFor claim.buffer ∧
      state_sealed (s.mem.ring claim.buffer).state = false ∧
      Launched store ok s.mem s'.mem claim.buffer
        ((s.mem.ring claim.buffer).sealed_at s.mem.next_address_range) ∧
      s'.mem.next_address_range =
        if s.mem.rotates options claim.buffer then
          s.mem.next_address_range + (s.mem.ring claim.buffer).data_len + (s.mem.ring claim.buffer).size
        else s.mem.next_address_range + (s.mem.ring claim.buffer).data_len := by
  obtain ⟨i, ok, call, rfl, hcall, hresult, hopen, rfl⟩ := newClaim_eq_some hclaim
  have hstage := between_of_put h
  obtain ⟨hzero, hclear⟩ := hs.seals_drained hcall hresult hopen hstage
  have hclear : ¬ state_flush_in_progress (s.mem.ring call.current).state = true := by
    rw [hclear]
    exact Bool.false_ne_true
  obtain ⟨hdispatch, haddress⟩ := (s.mem.sealing_changed call.current options).dispatch hstore ok
  rw [if_pos hflush] at hdispatch
  have hmem := step_put hstage hcall h
  rw [hresult, put_seals ok call.payload hopen, if_pos hzero, if_neg hclear] at hmem
  refine ⟨ok, rfl, hopen, ?_, ?_⟩
  · rw [hmem]
    exact hdispatch
  · rw [hmem]
    refine haddress.trans ((sealing_address s.mem call.current options).trans ?_)
    simp only [rotates, claimFor, Bool.and_eq_true, beq_iff_eq, and_assoc]

/-- Any other step claims nothing and submits nothing but entries stored before. -/
theorem Moves.claims_nothing (h : Moves options store s a s') (hflush : options.auto_flush = true)
    (hlog : logging a = true) (hpolls : s.stage.polls = true)
    (hopened : ∀ call ∈ s.calls, ∀ offset, call.reserve_result = .ok offset →
      state_sealed (s.mem.ring call.current).state = false)
    (hclaim : s.newClaim a = none) :
    s'.mem.next_address_range = s.mem.next_address_range ∧
      (∀ e ∈ s'.mem.io.pushed, e ∈ s.mem.io.pushed ∨ ∃ b, (s.mem.ring b).sqe = some e) ∧
      ∀ b, (s'.mem.ring b).sqe = (s.mem.ring b).sqe := by
  have hsame (e : Sqe L) (he : e ∈ s.mem.io.pushed) :
      e ∈ s.mem.io.pushed ∨ ∃ b, (s.mem.ring b).sqe = some e := .inl he
  have hsealing {i : Nat} {ok : Bool} {call : PutCall L} (hcall : s.calls[i]? = some call)
      (hresult : call.reserve_result = .error .InsufficientSpace)
      (hopen : state_sealed (s.mem.ring call.current).state = false)
      (hclaim : s.newClaim (.put i ok) = none) : False := by
    have hsome : (s.newClaim (.put i ok)).isSome = true := newClaim_put hcall hresult hopen
    rw [hclaim] at hsome
    cases hsome
  have hchanged {mem : BufferRing L} {b : Fin L} {x : FlushBuffer L} (hmem : Changed s.mem mem b x)
      (hx : x.sqe = (s.mem.ring b).sqe) (c : Fin L) : (mem.ring c).sqe = (s.mem.ring c).sqe :=
    hmem.forall_ring (P := fun c y => y.sqe = (s.mem.ring c).sqe) hx (fun c _ y hy => hy.sqe) c
  cases h
  case granted b payload offset new _ _ _ =>
    exact ⟨rfl, hsame, hchanged (.of_modify s.mem b (·.grant new offset payload.len)) rfl⟩
  case put_seals hcall hresult hopen _ _ _ => exact (hsealing hcall hresult hopen hclaim).elim
  case put_launches hcall hresult hopen _ _ _ _ _ => exact (hsealing hcall hresult hopen hclaim).elim
  case put_discards hmanual _ _ => cases hflush.symm.trans hmanual
  case copies hmem haddress =>
    refine ⟨haddress, ?_, hchanged hmem rfl⟩
    rw [hmem.io]
    exact hsame
  case copy_launches hcall hresult _ hsealed _ _ _ _ =>
    have hopen := hopened _ (List.mem_of_getElem? hcall) _ hresult
    rw [hsealed] at hopen
    cases hopen
  case copy_discards hmanual _ _ => cases hflush.symm.trans hmanual
  case retries b _ _ _ =>
    exact ⟨retry_address _ _ _, fun e he => (mem_pushed_retry he).imp_right fun hstored => ⟨b, hstored⟩,
      fun c => by rw [retry_ring]⟩
  case succeeds b _ _ _ =>
    refine ⟨report_address options s.mem b, fun e he => .inl ?_, fun c => ?_⟩
    · have hio : ((s.mem.report options b).reset_buffer b).io = s.mem.io := report_io options s.mem b
      rw [hio] at he
      exact he
    · rw [reset_buffer_ring, report_ring]
      split <;> rfl
  case completes hmem =>
    obtain ⟨e, _, _, rfl⟩ := complete_cases hmem
    exact ⟨rfl, hsame, fun _ => rfl⟩
  case flushes | current_empty | current_launches | sync_launches | wait_starts | sync_starts | read_refused
    | read_submits => cases hlog
  case wait_drains hstage | wait_tests hstage | sync_refused hstage | sync_submits hstage _ | sync_ends hstage _ |
      sync_resets hstage _ | read_takes hstage _ =>
    cases hstage ▸ hpolls
  all_goals exact ⟨rfl, hsame, fun _ => rfl⟩

end Steps

end Client

namespace Ledger

/-- Every write submitted is the write of a claim, and no filling has claimed twice. -/
structure Recorded (s : Ledger L) : Prop where
  sequential : s.client.Sequential
  opened : ∀ call ∈ s.client.calls, ∀ offset, call.reserve_result = .ok offset →
    state_sealed (s.client.mem.ring call.current).state = false
  past : ∀ claim ∈ s.claims, claim.filling < (s.client.mem.ring claim.buffer).filling.number ∨
    (s.client.mem.ring claim.buffer).filling.number = claim.filling ∧
      state_sealed (s.client.mem.ring claim.buffer).state = true
  distinct : (s.claims.map Claim.key).Nodup
  pushed : ∀ e ∈ s.client.mem.io.pushed, ∃ claim ∈ s.claims, claim.Writes e
  stored : ∀ b e, (s.client.mem.ring b).sqe = some e → e ∈ s.client.mem.io.pushed

theorem recorded_init [NeZero L] (options : BufferRingOptions) :
    (init (with_options options) : Ledger L).Recorded where
  sequential := Client.sequential_init options
  opened call hcall := by cases hcall
  past claim hclaim := by cases hclaim
  distinct := .nil
  pushed e he := by cases he
  stored b e h := by cases h

section Steps
variable {options : BufferRingOptions} {store : QuikIO} {s s' : Ledger L} {a : Client.Action L}

/-- A step of the ledger is a step of its client. -/
theorem step_client (h : step options s a = some s') :
    s.client.step options a = some s'.client ∧ s'.claims = s.claims ++ (s.client.newClaim a).toList := by
  obtain ⟨client, hclient, rfl⟩ := Option.map_eq_some_iff.mp h
  exact ⟨hclient, rfl⟩

/-- The padded size of a buffer fits the 32 bits of an entry. -/
theorem claimFor_writes {mem : BufferRing L} {b : Fin L} (hfits : (mem.ring b).size.toNat ≤ 2 ^ 20)
    (store : QuikIO) :
    (mem.claimFor b).Writes (((mem.ring b).sealed_at mem.next_address_range).entry store b) := by
  refine ⟨rfl, rfl, rfl, ?_⟩
  have hlen : (((mem.ring b).sealed_at mem.next_address_range).entry store b).len =
      (((mem.ring b).sealed_at mem.next_address_range).data_len.setWidth 32).toNat := rfl
  have hpadded := ((mem.ring b).sealed_at mem.next_address_range).data_len_toNat
  rw [FlushBuffer.sealed_at_size] at hpadded
  rw [hlen, BitVec.toNat_setWidth, hpadded]
  apply Nat.mod_eq_of_lt
  omega

/-- With what a step claims, every write pushed is the write of a claim. -/
theorem Recorded.step_claims (hs : s.Recorded) (hstore : options.io_instance = some store)
    (hflush : options.auto_flush = true) (hlog : Client.logging a = true)
    (h : s.client.step options a = some s'.client)
    (hclaims : s'.claims = s.claims ++ (s.client.newClaim a).toList) :
    (∀ e ∈ s'.client.mem.io.pushed, ∃ claim ∈ s'.claims, claim.Writes e) ∧
      ∀ b e, (s'.client.mem.ring b).sqe = some e → e ∈ s'.client.mem.io.pushed := by
  have hmoves := Client.step_moves hstore h
  have hgrows := hmoves.grows.1
  cases hclaim : s.client.newClaim a with
  | none =>
    obtain ⟨_, hpushed, hsqe⟩ :=
      hmoves.claims_nothing hflush hlog hs.sequential.polls hs.opened hclaim
    rw [hclaim, Option.toList_none, List.append_nil] at hclaims
    refine ⟨fun e he => ?_, fun b e he => ?_⟩
    · rw [hclaims]
      obtain he | ⟨b, he⟩ := hpushed e he
      · exact hs.pushed e he
      · exact hs.pushed e (hs.stored b e he)
    · rw [hsqe] at he
      exact hgrows e (hs.stored b e he)
  | some claim =>
    obtain ⟨ok, hfor, _, hlaunch, _⟩ := hs.sequential.claims hstore hflush h hclaim
    rw [hclaim, Option.toList_some] at hclaims
    have hwrites := claimFor_writes (hs.sequential.steady.filled claim.buffer).fits store
    rw [← hfor] at hwrites
    have hold (e : Sqe L) (he : e ∈ s.client.mem.io.pushed) : ∃ claim ∈ s'.claims, claim.Writes e := by
      obtain ⟨c, hc, hof⟩ := hs.pushed e he
      rw [hclaims]
      exact ⟨c, List.mem_append_left _ hc, hof⟩
    refine ⟨fun e he => ?_, hlaunch.keeps_stored rfl hs.stored⟩
    obtain ⟨hpushed, _⟩ | ⟨_, hpushed, _⟩ := hlaunch.pushed_cases rfl
    · rw [hpushed] at he
      exact hold e he
    · rw [hpushed, List.mem_append, List.mem_singleton] at he
      obtain he | rfl := he
      · exact hold e he
      · rw [hclaims]
        exact ⟨claim, List.mem_append_right _ (List.mem_singleton_self _), hwrites⟩

/-- Every step that meets the conditions keeps the claims in order. -/
theorem Recorded.step (hs : s.Recorded) (hstore : options.io_instance = some store)
    (hflush : options.auto_flush = true) (hpaired : Client.paired s.client a = true)
    (hlog : Client.logging a = true) (h : Ledger.step options s a = some s') : s'.Recorded := by
  obtain ⟨hclient, hclaims⟩ := step_client h
  have hmoves := Client.step_moves hstore hclient
  have hauto := Client.automatic_of_logging hlog
  obtain ⟨hpushed, hstored⟩ := hs.step_claims hstore hflush hlog hclient hclaims
  have hpast (claim : Claim L) (hclaim : claim ∈ s.claims) :
      claim.filling < (s'.client.mem.ring claim.buffer).filling.number ∨
        (s'.client.mem.ring claim.buffer).filling.number = claim.filling ∧
          state_sealed (s'.client.mem.ring claim.buffer).state = true := by
    have hle := hmoves.number_le claim.buffer
    obtain hlt | ⟨hfilling, hsealed⟩ := hs.past claim hclaim
    · exact .inl (hlt.trans_le hle)
    · obtain hlt | ⟨hsame, hstays⟩ := hmoves.stays_sealed claim.buffer hsealed
      · exact .inl (hfilling ▸ hlt)
      · exact .inr ⟨hsame.trans hfilling, hstays⟩
  refine ⟨hs.sequential.step hpaired hauto hmoves,
    hmoves.opened_step hpaired hs.sequential.single hs.opened, ?_, ?_, hpushed, hstored⟩
  · cases hclaim : s.client.newClaim a with
    | none =>
      rw [hclaims, hclaim, Option.toList_none, List.append_nil]
      exact hpast
    | some claim =>
      obtain ⟨ok, hfor, _, hlaunch, _⟩ := hs.sequential.claims hstore hflush hclient hclaim
      rw [hclaims, hclaim, Option.toList_some]
      intro c hc
      rw [List.mem_append, List.mem_singleton] at hc
      obtain hc | rfl := hc
      · exact hpast c hc
      · refine .inr ⟨?_, ?_⟩
        · rw [hfor]
          obtain ⟨_, _, htarget⟩ | ⟨_, _, _, htarget⟩ := hlaunch.outcome
          · exact congrArg (·.filling.number) htarget
          · exact congrArg (·.filling.number) htarget
        · rw [hlaunch.target_state]
          exact (state_sealed_or_flush _).trans (state_sealed_or_sealed _)
  · cases hclaim : s.client.newClaim a with
    | none =>
      rw [hclaims, hclaim, Option.toList_none, List.append_nil]
      exact hs.distinct
    | some claim =>
      obtain ⟨ok, hfor, hopen, _, _⟩ := hs.sequential.claims hstore hflush hclient hclaim
      rw [hclaims, hclaim, Option.toList_some, List.map_append, List.map_singleton]
      refine hs.distinct.append (List.nodup_singleton _) fun key hold hnew => ?_
      obtain ⟨c, hc, rfl⟩ := List.mem_map.mp hold
      obtain ⟨hbuffer, hfilling⟩ := Prod.mk.inj (List.mem_singleton.mp hnew)
      have hnumber : claim.filling = (s.client.mem.ring claim.buffer).filling.number :=
        congrArg Claim.filling hfor
      obtain hlt | ⟨_, hsealed⟩ := hs.past c hc
      · rw [hbuffer, hfilling, ← hnumber] at hlt
        exact absurd hlt (Nat.lt_irrefl _)
      · rw [hbuffer, hopen] at hsealed
        cases hsealed

/-- A filling has one claim. -/
theorem Recorded.unique (hs : s.Recorded) {c d : Claim L} (hc : c ∈ s.claims) (hd : d ∈ s.claims)
    (hbuffer : c.buffer = d.buffer) (hfilling : c.filling = d.filling) : c = d :=
  List.inj_on_of_nodup_map hs.distinct hc hd (Prod.ext hbuffer hfilling)

/-- A `put` that seals claims at most a block in all. -/
def claimsBlock (options : BufferRingOptions) (s : Ledger L) (a : Client.Action L) : Bool :=
  (s.client.newClaim a).all fun claim =>
    !s.client.mem.rotates options claim.buffer || claim.len + claim.size.toNat ≤ 2 ^ 20

/-- A `put` that seals does not rotate. -/
def claimsOnce (options : BufferRingOptions) (s : Ledger L) (a : Client.Action L) : Bool :=
  (s.client.newClaim a).all fun claim => !s.client.mem.rotates options claim.buffer

/-- A `put` that seals finds room in the submission queue. -/
def queued (s : Ledger L) (a : Client.Action L) : Bool :=
  (s.client.newClaim a).all fun _ => s.client.mem.io.sq.length < SQ_ENTRIES

/-- The next address is at most a block beyond the slot of a claim for each claim made since. -/
def Near (s : Ledger L) : Prop :=
  ∀ i claim, s.claims[i]? = some claim →
    (s.client.mem.next_address_range - claim.slot).toNat ≤ (s.claims.length - i) * 2 ^ 20

/-- Every step that meets the conditions keeps the next address near the claims. -/
theorem Near.step (hnear : s.Near) (hs : s.Recorded) (hstore : options.io_instance = some store)
    (hflush : options.auto_flush = true) (hlog : Client.logging a = true)
    (hblock : claimsBlock options s a = true) (h : Ledger.step options s a = some s') : s'.Near := by
  obtain ⟨hclient, hclaims⟩ := step_client h
  cases hclaim : s.client.newClaim a with
  | none =>
    obtain ⟨haddress, _⟩ := (Client.step_moves hstore hclient).claims_nothing hflush hlog
      hs.sequential.polls hs.opened hclaim
    rw [hclaim, Option.toList_none, List.append_nil] at hclaims
    unfold Near
    rw [hclaims, haddress]
    exact hnear
  | some claim =>
    obtain ⟨ok, hfor, _, _, haddress⟩ := hs.sequential.claims hstore hflush hclient hclaim
    rw [hclaim, Option.toList_some] at hclaims
    have hfits := (hs.sequential.steady.filled claim.buffer).fits
    have hlen := (s.client.mem.ring claim.buffer).data_len_toNat
    have hsize : claim.size = (s.client.mem.ring claim.buffer).size := congrArg Claim.size hfor
    have hslot : claim.slot = s.client.mem.next_address_range := congrArg Claim.slot hfor
    obtain ⟨n, hn, hmoved⟩ : ∃ n : Usize, n.toNat ≤ 2 ^ 20 ∧
        s'.client.mem.next_address_range = s.client.mem.next_address_range + n := by
      simp only [claimsBlock, hclaim, Option.all_some, Bool.or_eq_true, Bool.not_eq_true',
        decide_eq_true_eq] at hblock
      rw [Claim.len, hsize] at hblock
      split at haddress
      next hrotates =>
        refine ⟨_, ?_, haddress.trans (BitVec.add_assoc _ _ _)⟩
        rw [hrotates] at hblock
        rw [BitVec.toNat_add, hlen]
        obtain hfalse | hblock := hblock
        · cases hfalse
        · omega
      next =>
        refine ⟨_, ?_, haddress⟩
        rw [hlen]
        omega
    intro i c hc
    rw [hclaims, List.length_append, List.length_singleton]
    rw [hclaims, List.getElem?_append] at hc
    split at hc
    next hi =>
      have hbefore := hnear i c hc
      have hsum : s'.client.mem.next_address_range - c.slot =
          s.client.mem.next_address_range - c.slot + n := by
        rw [hmoved]
        bv_omega
      rw [hsum, BitVec.toNat_add]
      have hmod := Nat.mod_le ((s.client.mem.next_address_range - c.slot).toNat + n.toNat) (2 ^ 64)
      have hcount : s.claims.length + 1 - i = s.claims.length - i + 1 := by omega
      rw [hcount, Nat.add_mul, Nat.one_mul]
      omega
    next hi =>
      obtain ⟨hlast, hget⟩ := List.getElem?_eq_some_iff.mp hc
      rw [List.getElem_singleton] at hget
      rw [List.length_singleton] at hlast
      subst hget
      have hself : s'.client.mem.next_address_range - claim.slot = n := by
        rw [hmoved, hslot]
        bv_omega
      rw [hself]
      have hcount : s.claims.length + 1 - i = 1 := by omega
      rw [hcount]
      omega

/-- As long as no sealing `put` claims more than a block, every write submitted, completed or not, is the
write of one claim, and while fewer than `L` claims have followed, the next address is at most `L` blocks
beyond it. -/
theorem writes_tail_localised [NeZero L] (hstore : options.io_instance = some store)
    (hflush : options.auto_flush = true)
    (h : Reaches (Ledger.step options)
      (fun s a => Client.logging a = true ∧ Client.paired s.client a = true ∧ claimsBlock options s a = true)
      (init (with_options options)) s)
    {e : Sqe L} (he : e ∈ s.client.mem.io.pushed) :
    (∃ claim ∈ s.claims, claim.Writes e) ∧
    ∀ i claim, s.claims[i]? = some claim → e.user_data = some claim.buffer → e.filling = claim.filling →
      s.claims.length ≤ i + L →
      (s.client.mem.next_address_range - e.offset).toNat ≤ L * ONE_MEGABYTE_BLOCK.toNat := by
  have hs : s.Recorded ∧ s.Near := by
    refine h.invariant (P := fun s => s.Recorded ∧ s.Near) ?_ ⟨recorded_init options, ?_⟩
    · rintro s a s' ⟨hs, hnear⟩ ⟨hlog, hpaired, hblock⟩ hstep
      exact ⟨hs.step hstore hflush hpaired hlog hstep, hnear.step hs hstore hflush hlog hblock hstep⟩
    · intro i claim hclaim
      cases hclaim
  obtain ⟨c, hc, hwrites⟩ := hs.1.pushed e he
  refine ⟨⟨c, hc, hwrites⟩, fun i claim hclaim hbuffer hfilling hrecent => ?_⟩
  have hsame : c = claim := by
    refine hs.1.unique hc (List.mem_of_getElem? hclaim) ?_ (hwrites.2.1.symm.trans hfilling)
    exact Option.some.inj (hwrites.1.symm.trans hbuffer)
  subst hsame
  have hnear := hs.2 i c hclaim
  have hcount : s.claims.length - i ≤ L := by omega
  have hblock : ONE_MEGABYTE_BLOCK.toNat = 2 ^ 20 := rfl
  rw [hwrites.2.2.1, hblock]
  exact hnear.trans (Nat.mul_le_mul_right _ hcount)

/-- The claims follow one another up to the next address, and each has its write. -/
structure Accounted (s : Ledger L) : Prop where
  tiles : Tiles 0 (s.claims.map Claim.region) s.client.mem.next_address_range.toNat
  written : ∀ claim ∈ s.claims, ∃ e ∈ s.client.mem.io.pushed, claim.Writes e

theorem accounted_init [NeZero L] (options : BufferRingOptions) :
    (init (with_options options) : Ledger L).Accounted where
  tiles := .nil
  written claim hclaim := by cases hclaim

/-- Every step that meets the conditions keeps the claims one behind the other. -/
theorem Accounted.step (haccounted : s.Accounted) (hs : s.Recorded)
    (hstore : options.io_instance = some store) (hflush : options.auto_flush = true)
    (hlog : Client.logging a = true) (hwrap : Client.noWrap options s.client a = true)
    (honce : claimsOnce options s a = true) (hqueued : queued s a = true)
    (h : Ledger.step options s a = some s') : s'.Accounted := by
  obtain ⟨hclient, hclaims⟩ := step_client h
  have hmoves := Client.step_moves hstore hclient
  have hgrows := hmoves.grows.1
  cases hclaim : s.client.newClaim a with
  | none =>
    obtain ⟨haddress, _⟩ := hmoves.claims_nothing hflush hlog hs.sequential.polls hs.opened hclaim
    rw [hclaim, Option.toList_none, List.append_nil] at hclaims
    constructor
    · rw [hclaims, haddress]
      exact haccounted.tiles
    · intro c hc
      rw [hclaims] at hc
      obtain ⟨e, he, hwrites⟩ := haccounted.written c hc
      exact ⟨e, hgrows e he, hwrites⟩
  | some claim =>
    obtain ⟨ok, hfor, _, hlaunch, haddress⟩ := hs.sequential.claims hstore hflush hclient hclaim
    rw [hclaim, Option.toList_some] at hclaims
    have hlen := (s.client.mem.ring claim.buffer).data_len_toNat
    have hsize : claim.size = (s.client.mem.ring claim.buffer).size := congrArg Claim.size hfor
    have hslot : claim.slot = s.client.mem.next_address_range := congrArg Claim.slot hfor
    have hkeeps : ¬ s.client.mem.rotates options claim.buffer = true := by
      simpa [claimsOnce, hclaim] using honce
    rw [if_neg hkeeps] at haddress
    have hmoved : s'.client.mem.next_address_range.toNat =
        s.client.mem.next_address_range.toNat + claim.len := by
      have hle := Client.noWrap_step hwrap hclient
      rw [haddress] at hle ⊢
      rw [add_toNat_of_le hle, hlen, Claim.len, hsize]
    constructor
    · rw [hclaims, hmoved, List.map_append, List.map_singleton, Claim.region, hslot]
      exact haccounted.tiles.concat claim.len
    · intro c hc
      rw [hclaims, List.mem_append, List.mem_singleton] at hc
      obtain hc | rfl := hc
      · obtain ⟨e, he, hwrites⟩ := haccounted.written c hc
        exact ⟨e, hgrows e he, hwrites⟩
      · have hwrites := claimFor_writes (hs.sequential.steady.filled c.buffer).fits store
        rw [← hfor] at hwrites
        have hroom : s.client.mem.io.sq.length < SQ_ENTRIES := by
          simpa [queued, hclaim] using hqueued
        obtain ⟨hpush, _⟩ | ⟨io, hpush, hio, _⟩ := hlaunch.outcome
        · exact absurd (IoUring.push_eq_none hpush) (Nat.not_le.mpr hroom)
        · obtain ⟨_, rfl⟩ := IoUring.push_eq_some hpush
          refine ⟨_, ?_, hwrites⟩
          rw [hio, IoUring.submit_pushed]
          exact List.mem_append_right _ (List.mem_singleton_self _)

/-- The regions of the writes are those of the claims. -/
theorem Accounted.regions (haccounted : s.Accounted) (hs : s.Recorded) :
    (⋃ e ∈ s.client.mem.io.pushed, e.region.asSet) = Set.Ico 0 s.client.mem.next_address_range.toNat := by
  have hregion {claim : Claim L} {e : Sqe L} (h : claim.Writes e) : claim.region = e.region := by
    rw [Claim.region, Sqe.region, h.2.2.1, h.2.2.2]
  rw [← haccounted.tiles.iUnion_asSet]
  ext i
  simp only [Set.mem_iUnion, exists_prop, List.mem_map]
  constructor
  · rintro ⟨e, he, hi⟩
    obtain ⟨claim, hclaim, hwrites⟩ := hs.pushed e he
    exact ⟨claim.region, ⟨claim, hclaim, rfl⟩, hregion hwrites ▸ hi⟩
  · rintro ⟨_, ⟨claim, hclaim, rfl⟩, hi⟩
    obtain ⟨e, he, hwrites⟩ := haccounted.written claim hclaim
    exact ⟨e, he, hregion hwrites ▸ hi⟩

/-- As long as no `put` that seals rotates, every one of them finds room in the submission queue and the
next address does not wrap, the next address is the sum of the padded sizes of the fillings sealed, and the
writes submitted cover the file up to it. -/
theorem next_address_accounts [NeZero L] (hstore : options.io_instance = some store)
    (hflush : options.auto_flush = true)
    (h : Reaches (Ledger.step options)
      (fun s a => Client.logging a = true ∧ Client.paired s.client a = true ∧
        Client.noWrap options s.client a = true ∧ claimsOnce options s a = true ∧ queued s a = true)
      (init (with_options options)) s) :
    s.client.mem.next_address_range.toNat = (s.claims.map Claim.len).sum ∧
      (⋃ e ∈ s.client.mem.io.pushed, Set.Ico e.offset.toNat (e.offset.toNat + e.len)) =
        Set.Ico 0 s.client.mem.next_address_range.toNat := by
  have hs : s.Recorded ∧ s.Accounted := by
    refine h.invariant (P := fun s => s.Recorded ∧ s.Accounted) ?_
      ⟨recorded_init options, accounted_init options⟩
    rintro s a s' ⟨hs, haccounted⟩ ⟨hlog, hpaired, hwrap, honce, hqueued⟩ hstep
    exact ⟨hs.step hstore hflush hpaired hlog hstep,
      haccounted.step hs hstore hflush hlog hwrap honce hqueued hstep⟩
  refine ⟨?_, hs.2.regions hs.1⟩
  have hsum := hs.2.tiles.sum_len
  rw [Nat.zero_add, List.map_map] at hsum
  exact hsum.symm

end Steps

/-- Ten bytes are sealed by a payload that fills a buffer. -/
def sealTen : List (Client.Action 2) :=
  [.reserve_space 0 (zeros 10), .put 0 true, .reserve_space 0 (zeros ONE_MEGABYTE_BLOCK), .put 0 true]

theorem writes_tail_localised_sealTen :
    ∃ (s : Ledger 2) (e : Sqe 2) (claim : Claim 2),
      Reaches (Ledger.step storeOptions)
        (fun s a => Client.logging a = true ∧ Client.paired s.client a = true ∧
          claimsBlock storeOptions s a = true)
        (init (with_options storeOptions)) s ∧
      e ∈ s.client.mem.io.pushed ∧ s.claims = [claim] ∧ e.user_data = some claim.buffer ∧
      (s.client.mem.next_address_range - e.offset).toNat ≤ 2 * ONE_MEGABYTE_BLOCK.toNat := by
  have hrun : (exec (Ledger.step storeOptions)
      (fun s a => Client.logging a = true ∧ Client.paired s.client a = true ∧
        claimsBlock storeOptions s a = true) sealTen (init (with_options storeOptions))).any
      (fun s => s.claims.length == 1 && !s.client.mem.io.pushed.isEmpty) = true := by
    decide +kernel
  obtain ⟨s, hreach, hcheck⟩ := exists_of_exec hrun
  rw [Bool.and_eq_true, beq_iff_eq] at hcheck
  obtain ⟨claim, hclaims⟩ := List.length_eq_one_iff.mp hcheck.1
  obtain ⟨e, he⟩ := List.exists_mem_of_ne_nil _ (by simpa using hcheck.2)
  have hstore : storeOptions.io_instance = some QuikIO.new := rfl
  obtain ⟨⟨c, hc, hwrites⟩, hlocal⟩ := writes_tail_localised hstore rfl hreach he
  rw [hclaims] at hc
  obtain rfl := List.mem_singleton.mp hc
  have hfirst : s.claims[0]? = some c := by rw [hclaims]; rfl
  refine ⟨s, e, c, hreach, he, hclaims, hwrites.1, ?_⟩
  exact hlocal 0 c hfirst hwrites.1 hwrites.2.1 (by rw [hclaims]; exact Nat.le_succ 1)

/-- Two full buffers are sealed, the first of which rotates. -/
def sealBoth : List (Client.Action 2) :=
  [.reserve_space 0 (zeros ONE_MEGABYTE_BLOCK), .put 0 true, .reserve_space 0 (zeros 1), .put 0 true,
    .reserve_space 1 (zeros ONE_MEGABYTE_BLOCK), .put 0 true, .reserve_space 1 (zeros 1), .put 0 true]

/-- The write of the first buffer is in the kernel, only the second one has been sealed since, and the next
address is three blocks beyond its own. -/
theorem rotation_leaves_tail :
    ∃ s : Ledger 2,
      Reaches (Ledger.step storeOptions)
        (fun s a => Client.logging a = true ∧ Client.paired s.client a = true)
        (init (with_options storeOptions)) s ∧
      ∃ e ∈ s.client.mem.io.kernel, e.user_data = some 0 ∧ e.filling = 0 ∧ s.claims.length = 2 ∧
        s.claims[0]?.any (fun claim => claim.buffer == 0 && claim.filling == 0) = true ∧
        (s.client.mem.next_address_range - e.offset).toNat = 3 * ONE_MEGABYTE_BLOCK.toNat := by
  have hrun : (exec (Ledger.step storeOptions)
      (fun s a => Client.logging a = true ∧ Client.paired s.client a = true) sealBoth
      (init (with_options storeOptions))).any
      (fun s => s.claims.length == 2 &&
        s.claims[0]?.any (fun claim => claim.buffer == 0 && claim.filling == 0) &&
        s.client.mem.next_address_range == 3 * ONE_MEGABYTE_BLOCK &&
        s.client.mem.io.kernel.any fun e =>
          e.user_data == some 0 && e.filling == 0 && e.offset == 0) = true := by
    decide +kernel
  obtain ⟨s, hreach, hcheck⟩ := exists_of_exec hrun
  simp only [Bool.and_eq_true, beq_iff_eq, List.any_eq_true] at hcheck
  obtain ⟨⟨⟨hlength, hfirst⟩, hnext⟩, e, he, ⟨hbuffer, hfilling⟩, hoffset⟩ := hcheck
  refine ⟨s, hreach, e, he, hbuffer, hfilling, hlength, hfirst, ?_⟩
  rw [hnext, hoffset]
  rfl

/-- A ring of one buffer, sealed once. -/
def sealOnly : List (Client.Action 1) :=
  [.reserve_space 0 (zeros 10), .put 0 true, .reserve_space 0 (zeros ONE_MEGABYTE_BLOCK), .put 0 true]

theorem next_address_accounts_sealOnly :
    ∃ s : Ledger 1,
      Reaches (Ledger.step storeOptions)
        (fun s a => Client.logging a = true ∧ Client.paired s.client a = true ∧
          Client.noWrap storeOptions s.client a = true ∧ claimsOnce storeOptions s a = true ∧
          queued s a = true)
        (init (with_options storeOptions)) s ∧
      s.client.mem.next_address_range = 4096 ∧ (s.claims.map Claim.len).sum = 4096 := by
  have hrun : (exec (Ledger.step storeOptions)
      (fun s a => Client.logging a = true ∧ Client.paired s.client a = true ∧
        Client.noWrap storeOptions s.client a = true ∧ claimsOnce storeOptions s a = true ∧
        queued s a = true) sealOnly (init (with_options storeOptions))).any
      (fun s => s.client.mem.next_address_range == 4096) = true := by
    decide +kernel
  obtain ⟨s, hreach, hcheck⟩ := exists_of_exec hrun
  have hnext : s.client.mem.next_address_range = 4096 := beq_iff_eq.mp hcheck
  have hstore : storeOptions.io_instance = some QuikIO.new := rfl
  obtain ⟨hsum, _⟩ := next_address_accounts hstore rfl hreach
  rw [hnext] at hsum
  exact ⟨s, hreach, hnext, hsum.symm⟩

/-- The seal claims a block for ten bytes, and the rotation claims the ten bytes once more. -/
theorem rotation_leaves_hole :
    ∃ s : Ledger 2,
      Reaches (Ledger.step storeOptions)
        (fun s a => Client.logging a = true ∧ Client.paired s.client a = true ∧
          Client.noWrap storeOptions s.client a = true ∧ queued s a = true)
        (init (with_options storeOptions)) s ∧
      s.client.mem.next_address_range.toNat = 4106 ∧ (s.claims.map Claim.len).sum = 4096 := by
  have hrun : (exec (Ledger.step storeOptions)
      (fun s a => Client.logging a = true ∧ Client.paired s.client a = true ∧
        Client.noWrap storeOptions s.client a = true ∧ queued s a = true) sealTen
      (init (with_options storeOptions))).any
      (fun s => s.client.mem.next_address_range.toNat == 4106 &&
        (s.claims.map Claim.len).sum == 4096) = true := by
    decide +kernel
  obtain ⟨s, hreach, hcheck⟩ := exists_of_exec hrun
  simp only [Bool.and_eq_true, beq_iff_eq] at hcheck
  exact ⟨s, hreach, hcheck.1, hcheck.2⟩

end Ledger

end FlushRing
