import FlushRing.Buffer.Ops
import FlushRing.Threads.Filling

open Transition

namespace FlushRing

variable {L : Nat}

/-- `BufferRingOptions::buffer_size`: the size rounded up to a multiple of itself; 0 panics. -/
def BufferRingOptions.set_buffer_size (self : BufferRingOptions) (buffer_size : Usize) :
    Option BufferRingOptions :=
  if buffer_size = 0 then none
  else some { self with buffer_size := next_multiple_of buffer_size buffer_size }

/-- A size is a multiple of itself: every positive size is taken as it is. -/
theorem BufferRingOptions.set_buffer_size_pos (self : BufferRingOptions) {buffer_size : Usize}
    (h : buffer_size ≠ 0) : self.set_buffer_size buffer_size = some { self with buffer_size } := by
  have hself : buffer_size % buffer_size = 0 := BitVec.umod_self
  rw [set_buffer_size, if_neg h, next_multiple_of, if_pos hself]

/-- The options keep the size they were given. -/
theorem BufferRingOptions.set_buffer_size_eq {self options : BufferRingOptions} {buffer_size : Usize}
    (h : self.set_buffer_size buffer_size = some options) : options.buffer_size = buffer_size := by
  by_cases hzero : buffer_size = 0
  · rw [set_buffer_size, if_pos hzero] at h
    cases h
  · rw [set_buffer_size_pos self hzero] at h
    obtain rfl := Option.some.inj h
    rfl

/-- The thread's last call has returned. -/
def Pc.rests : Pc L → Bool
  | .idle => true
  | .reserved _ _ _ => true
  | .returned _ _ => true
  | _ => false

/-- Where a thread stands in `increment_offset`: not in it, between its load and its store, or returned. -/
inductive Increment (L : Nat) where
  | outside
  | storing (b : Fin L) (payload_size state offset new : Usize)
  | returned (b : Fin L) (payload_size : Usize) (result : Except BufferError Usize)

/-- The threads of a ring, which may also call `increment_offset` on its buffers. -/
structure Incrementing (T : Type) (L : Nat) where
  threads : Threads T L
  increment : T → Increment L

namespace Incrementing

inductive Action (T : Type) (L : Nat) where
  | ring (a : FlushRing.Action T)
  | increment_offset (t : T) (b : Fin L) (payload_size : Usize)
  | store (t : T)
  | finish (t : T)

variable {T : Type} [DecidableEq T]

def init (mem : BufferRing L) : Incrementing T L :=
  { threads := .init mem, increment := fun _ => .outside }

def outside (s : Incrementing T L) (t : T) : Bool :=
  match s.increment t with
  | .outside => true
  | _ => false

/-- A thread takes steps of the ring only outside `increment_offset`. -/
def permits (s : Incrementing T L) : FlushRing.Action T → Bool
  | .call t _ => s.outside t
  | .run t _ => s.outside t
  | .complete _ _ => true

def goto (s : Incrementing T L) (t : T) (increment : Increment L) : Incrementing T L :=
  { s with increment := Function.update s.increment t increment }

def step (options : BufferRingOptions) (s : Incrementing T L) : Action T L → Option (Incrementing T L)
  | .ring a =>
    if s.permits a then
      (s.threads.step options a).map fun threads => { s with threads }
    else none
  | .increment_offset t b payload_size =>
    if s.outside t && (s.threads.pc t).rests then
      match FlushBuffer.increment_offset_decision (s.threads.mem.ring b).state payload_size with
      | .error e => some (s.goto t (.returned b payload_size (.error e)))
      | .ok (offset, new) =>
        some (s.goto t (.storing b payload_size (s.threads.mem.ring b).state offset new))
    else none
  | .store t =>
    match s.increment t with
    | .storing b payload_size _ offset new =>
      some { s.goto t (.returned b payload_size (.ok offset)) with
        threads := { s.threads with mem := s.threads.mem.modify b (·.store_state new) } }
    | _ => none
  | .finish t =>
    match s.increment t with
    | .returned _ _ _ => some (s.goto t .outside)
    | _ => none

/-- A reservation finds room in the writer count, a reset finds no writer, and `increment_offset` is given
a size that does not wrap and is alone between its load and its store. -/
def orderly (s : Incrementing T L) : Action T L → Bool
  | .ring a => Threads.roomy s.threads a && Threads.resetsDrained s.threads a
  | .increment_offset _ b payload_size =>
    (state_offset (s.threads.mem.ring b).state).toNat + payload_size.toNat < 2 ^ 64
  | .store t =>
    match s.increment t with
    | .storing b _ state _ _ => (s.threads.mem.ring b).state == state
    | _ => true
  | .finish _ => true

/-- Every range a call has been granted, and the slice `buffer_data` makes, lies in the allocation. -/
structure InBounds (s : Incrementing T L) : Prop where
  reserved : ∀ t b payload offset, s.threads.pc t = .reserved b payload (.ok offset) →
    offset.toNat + payload.len.toNat ≤ (s.threads.mem.ring b).buf.size.toNat
  written : ∀ t call offset, s.threads.pc t = .putWrite call offset →
    offset.toNat + call.payload.len.toNat ≤ (s.threads.mem.ring call.current).buf.size.toNat
  incremented : ∀ t b payload_size offset, s.increment t = .returned b payload_size (.ok offset) →
    offset.toNat + payload_size.toNat ≤ (s.threads.mem.ring b).buf.size.toNat
  sliced : ∀ b, (s.threads.mem.ring b).data_len.toNat ≤ (s.threads.mem.ring b).buf.size.toNat

end Incrementing

section Contained
variable {T : Type} [Fintype T] [DecidableEq T]

/-- The words count the reservations, no offset is beyond one megabyte, nor the end of a granted range,
and every buffer has `size` bytes. -/
structure Contained (mem : BufferRing L) (pc : T → Pc L) (size : Usize) : Prop where
  wellFormed : ∀ t, (pc t).WellFormed
  bounded : ∀ t b, (pc t).Bounded b
  balanced : ∀ b, Balanced mem pc b
  fits : ∀ b, (mem.ring b).size.toNat ≤ 2 ^ 20
  allocated : ∀ b, (mem.ring b).buf.size = size

/-- Every step that meets the conditions keeps the offsets and the granted ranges within one megabyte. -/
theorem Contained.step {options : BufferRingOptions} {s s' : Threads T L} {a : Action T} {size : Usize}
    (hs : Contained s.mem s.pc size) (hroomy : Threads.roomy s a = true)
    (hdrained : Threads.resetsDrained s a = true) (h : s.step options a = some s') :
    Contained s'.mem s'.pc size := by
  refine Threads.step_keeps_ring (P := fun mem pc => Contained mem pc size) h ?_ ?_ ?_
  · intro t c pc _ hentered
    refine ⟨?_, ?_, fun b => (hs.balanced b).call hentered, hs.fits, hs.allocated⟩
    · rw [Function.forall_update_iff s.pc (p := fun _ pc => pc.WellFormed)]
      exact ⟨hentered.wellFormed, fun t' _ => hs.wellFormed t'⟩
    · rw [Function.forall_update_iff s.pc (p := fun _ pc => ∀ b, pc.Bounded b)]
      exact ⟨fun b => hentered.bounded (hs.bounded t b), fun t' _ => hs.bounded t'⟩
  · rintro t ok pc mem rfl hnext
    have hwf := hs.wellFormed t
    have hroom (b : Fin L) (hg : (s.pc t).Grants b (s.mem.ring b).state) :
        (state_writers (s.mem.ring b).state).toNat + 1 < 2 ^ 24 := Threads.roomy_run hroomy hg
    refine ⟨?_, ?_, fun b => ?_, fun b => ?_, fun b => ?_⟩
    · rw [Function.forall_update_iff s.pc (p := fun _ pc => pc.WellFormed)]
      exact ⟨next_wellFormed hnext hwf, fun t' _ => hs.wellFormed t'⟩
    · rw [Function.forall_update_iff s.pc (p := fun _ pc => ∀ b, pc.Bounded b)]
      exact ⟨fun b => (next_advances hnext).bounded b (hs.bounded t b) (hs.fits b), fun t' _ => hs.bounded t'⟩
    · exact (hs.balanced b).run hwf (hroom b) (Threads.resetsDrained_run hdrained) hnext
    · exact next_size_le b hwf (hs.bounded t b) (hs.fits b) (hroom b)
        (fun hr => (hs.balanced b).counted (Pc.holds_of_releases hr)) hnext
    · rw [next_buf b hnext, ← hs.allocated b]
      unfold Pc.bufAfter
      split
      · split <;> rfl
      · rfl
  · intro i result mem _ hmem
    obtain ⟨e, _, _, rfl⟩ := BufferRing.complete_cases hmem
    exact ⟨hs.wellFormed, hs.bounded, fun b => (hs.balanced b).complete hmem, hs.fits, hs.allocated⟩

end Contained

/-- What `increment_offset` has prepared comes from the word it loaded, and ends within one megabyte. -/
def Increment.Bounded : Increment L → Prop
  | .outside => True
  | .storing _ payload_size state offset new =>
    FlushBuffer.increment_offset_decision state payload_size = .ok (offset, new) ∧
      offset.toNat + payload_size.toNat ≤ 2 ^ 20
  | .returned _ payload_size (.ok offset) => offset.toNat + payload_size.toNat ≤ 2 ^ 20
  | .returned _ _ (.error _) => True

namespace Incrementing
variable {T : Type} [Fintype T] [DecidableEq T] {options : BufferRingOptions} {s s' : Incrementing T L}
  {size : Usize}

structure Kept (s : Incrementing T L) (size : Usize) : Prop where
  contained : Contained s.threads.mem s.threads.pc size
  increments : ∀ t, (s.increment t).Bounded

omit [DecidableEq T] in
theorem kept_init [NeZero L] (options : BufferRingOptions) :
    (init (BufferRing.with_options options) : Incrementing T L).Kept options.buffer_size where
  contained := ⟨fun _ => trivial, fun _ _ => trivial, fun _ => .of_empty rfl rfl rfl,
    fun _ => (Tiled.of_empty rfl rfl).fits, fun _ => rfl⟩
  increments _ := trivial

omit [Fintype T] in
theorem increments_goto {increment : Increment L} (hs : ∀ t, (s.increment t).Bounded) (t : T)
    (h : increment.Bounded) : ∀ t', ((s.goto t increment).increment t').Bounded := by
  simp only [goto]
  rw [Function.forall_update_iff s.increment (p := fun _ increment => increment.Bounded)]
  exact ⟨h, fun t' _ => hs t'⟩

omit [DecidableEq T] in
/-- A store of `increment_offset` on the word it loaded moves the offset to the end of its range. -/
theorem Kept.store (hs : s.Kept size) {t : T} {b : Fin L} {n offset new : Usize}
    (hpc : s.increment t = .storing b n (s.threads.mem.ring b).state offset new) :
    Contained (s.threads.mem.modify b (·.store_state new)) s.threads.pc size := by
  have hbounded := hs.increments t
  rw [hpc] at hbounded
  obtain ⟨hdecision, hfits⟩ := hbounded
  obtain ⟨hoffset, _, hnew⟩ := FlushBuffer.increment_offset_decision_ok hdecision
  rw [hoffset] at hfits
  have hmoved := state_offset_add_offset (s.threads.mem.ring b).state n (by omega)
  have hold := hs.contained
  refine ⟨hold.wellFormed, hold.bounded, fun c => ?_, fun c => ?_, fun c => ?_⟩
  · apply (hold.balanced c).congr
    · rw [BufferRing.modify_ring]
      split
      next hc =>
        subst c
        rw [FlushBuffer.store_state_state, hnew, state_writers_add_offset]
      next => rfl
    · exact BufferRing.modify_field (f := (·.store_state new)) FlushBuffer.filling (fun _ => rfl) c
  · rw [BufferRing.modify_ring]
    split
    next hc =>
      subst c
      rw [FlushBuffer.size, FlushBuffer.store_state_state, hnew, hmoved]
      exact hfits
    next => exact hold.fits c
  · rw [← hold.allocated c]
    exact BufferRing.modify_field (f := (·.store_state new)) (fun x => x.buf.size) (fun _ => rfl) c

/-- Every step that meets the conditions keeps all offsets within one megabyte. -/
theorem Kept.step {a : Action T L} (hs : s.Kept size) (horderly : orderly s a = true)
    (h : s.step options a = some s') : s'.Kept size := by
  cases a <;> simp only [Incrementing.step] at h
  case ring a =>
    split at h
    next =>
      obtain ⟨threads, hstep, rfl⟩ := Option.map_eq_some_iff.mp h
      rw [orderly, Bool.and_eq_true] at horderly
      exact ⟨hs.contained.step horderly.1 horderly.2 hstep, hs.increments⟩
    next => cases h
  case increment_offset t b n =>
    split at h
    next =>
      split at h
      next e _ =>
        obtain rfl := Option.some.inj h
        exact ⟨hs.contained, increments_goto hs.increments t trivial⟩
      next offset new hdecision =>
        obtain rfl := Option.some.inj h
        refine ⟨hs.contained, increments_goto hs.increments t ⟨hdecision, ?_⟩⟩
        obtain ⟨rfl, hfits, _⟩ := FlushBuffer.increment_offset_decision_ok hdecision
        have hblock : ONE_MEGABYTE_BLOCK.toNat = 1048576 := rfl
        rw [orderly, decide_eq_true_eq] at horderly
        rw [BitVec.le_def, BitVec.toNat_add, hblock] at hfits
        omega
    next => cases h
  case store t =>
    split at h
    next b n state offset new hpc =>
      obtain rfl := Option.some.inj h
      simp only [orderly, hpc, beq_iff_eq] at horderly
      have hbounded := hs.increments t
      rw [hpc] at hbounded
      subst state
      exact ⟨hs.store hpc, increments_goto hs.increments t hbounded.2⟩
    next => cases h
  case finish t =>
    split at h
    next =>
      obtain rfl := Option.some.inj h
      exact ⟨hs.contained, increments_goto hs.increments t trivial⟩
    next => cases h

omit [DecidableEq T] in
/-- With allocations of a megabyte no access leaves them. -/
theorem Kept.inBounds (hs : s.Kept size) (hsize : 2 ^ 20 ≤ size.toNat) : s.InBounds where
  reserved t b payload offset hpc := by
    have hbounded := hs.contained.bounded t b
    rw [hpc] at hbounded
    rw [hs.contained.allocated b]
    exact Nat.le_trans (hbounded rfl) hsize
  written t call offset hpc := by
    have hbounded := hs.contained.bounded t call.current
    rw [hpc] at hbounded
    rw [hs.contained.allocated call.current]
    exact Nat.le_trans (hbounded rfl) hsize
  incremented t b n offset hpc := by
    have hbounded := hs.increments t
    rw [hpc] at hbounded
    rw [hs.contained.allocated b]
    exact Nat.le_trans hbounded hsize
  sliced b := by
    have hfits := hs.contained.fits b
    rw [hs.contained.allocated b, FlushBuffer.data_len_toNat]
    omega

omit [Fintype T] in
/-- With no step between its load and its store, a call returns what `increment_offset` returns and leaves
the buffer it leaves. -/
theorem increments_alone (options : BufferRingOptions) {t : T} {b : Fin L} {n : Usize}
    (hready : (s.outside t && (s.threads.pc t).rests) = true)
    (hsum : (state_offset (s.threads.mem.ring b).state).toNat + n.toNat < 2 ^ 64) :
    ∃ s', Reaches (step options) (fun s a => orderly s a = true) s s' ∧
      s'.increment t = .returned b n ((s.threads.mem.ring b).increment_offset n).1 ∧
      s'.threads.mem.ring b = ((s.threads.mem.ring b).increment_offset n).2 := by
  have hwrap : orderly s (.increment_offset t b n) = true := decide_eq_true hsum
  cases hdecision : FlushBuffer.increment_offset_decision (s.threads.mem.ring b).state n with
  | error e =>
    have hload : step options s (.increment_offset t b n) = some (s.goto t (.returned b n (.error e))) := by
      simp only [step, hready, if_true, hdecision]
    refine ⟨_, .tail (.increment_offset t b n) .refl hwrap hload, ?_, ?_⟩
    · rw [FlushBuffer.increment_offset, hdecision]
      exact Function.update_self t _ _
    · rw [FlushBuffer.increment_offset, hdecision]
      rfl
  | ok granted =>
    obtain ⟨offset, new⟩ := granted
    let loaded := s.goto t (.storing b n (s.threads.mem.ring b).state offset new)
    have hstoring : loaded.increment t = .storing b n (s.threads.mem.ring b).state offset new :=
      Function.update_self t _ _
    have hload : step options s (.increment_offset t b n) = some loaded := by
      simp only [step, hready, if_true, hdecision]
      rfl
    have halone : orderly loaded (.store t) = true := by
      simp only [orderly, hstoring]
      exact beq_self_eq_true _
    have hstore : step options loaded (.store t) =
        some { loaded.goto t (.returned b n (.ok offset)) with
          threads := { loaded.threads with
            mem := loaded.threads.mem.modify b (·.store_state new) } } := by
      simp only [step, hstoring]
    have hreach : Reaches (step options) (fun s a => orderly s a = true) s loaded :=
      .tail (.increment_offset t b n) .refl hwrap hload
    refine ⟨_, hreach.tail (.store t) halone hstore, ?_, ?_⟩
    · rw [FlushBuffer.increment_offset, hdecision]
      exact Function.update_self t _ _
    · rw [FlushBuffer.increment_offset, hdecision]
      exact Function.update_self b _ _

omit [Fintype T] in
/-- In a new ring `increment_offset` grants any size of at most one megabyte, whatever was allocated. -/
theorem increments_beyond [NeZero L] (options : BufferRingOptions) (t : T) {n : Usize}
    (hlen : n ≤ ONE_MEGABYTE_BLOCK) :
    ∃ s : Incrementing T L, Reaches (step options) (fun s a => orderly s a = true)
      (init (BufferRing.with_options options)) s ∧ s.increment t = .returned 0 n (.ok 0) ∧
      (s.threads.mem.ring 0).buf.size = options.buffer_size := by
  let start : Incrementing T L := init (BufferRing.with_options options)
  have hready : (start.outside t && (start.threads.pc t).rests) = true := rfl
  have hstate : (start.threads.mem.ring 0).state = 0#64 := rfl
  have hsum : (state_offset (start.threads.mem.ring 0).state).toNat + n.toNat < 2 ^ 64 := by
    have hzero : (state_offset 0#64).toNat = 0 := congrArg BitVec.toNat state_offset_zero
    rw [hstate, hzero]
    omega
  have hfits : ¬ state_offset 0#64 + n > ONE_MEGABYTE_BLOCK := by
    rw [state_offset_zero, BitVec.zero_add]
    exact BitVec.not_lt.mpr hlen
  have hgrants : ((start.threads.mem.ring 0).increment_offset n).1 = .ok 0 := by
    have hdecision : FlushBuffer.increment_offset_decision 0#64 n =
      .ok (state_offset 0#64, 0#64 + n * OFFSET_ONE) := if_neg hfits
    rw [FlushBuffer.increment_offset, hstate, hdecision]
    exact congrArg Except.ok state_offset_zero
  obtain ⟨s, hreach, hreturned, hring⟩ := increments_alone options hready hsum
  refine ⟨s, hreach, ?_, ?_⟩
  · rw [hreturned, hgrants]
  · rw [hring, FlushBuffer.increment_offset_buf]
    rfl

/-- As long as resets find no writers, the writer counts have room and `increment_offset` is used alone
with sizes that do not wrap, every access is in bounds exactly for buffers of at least one megabyte. -/
theorem accesses_in_bounds_iff [NeZero L] [Nonempty T] {base : BufferRingOptions} {buffer_size : Usize}
    (hsize : base.set_buffer_size buffer_size = some options) :
    (∀ s : Incrementing T L, Reaches (step options) (fun s a => orderly s a = true)
      (init (BufferRing.with_options options)) s → s.InBounds) ↔
    ONE_MEGABYTE_BLOCK ≤ buffer_size := by
  have hallocated := BufferRingOptions.set_buffer_size_eq hsize
  have hblock : ONE_MEGABYTE_BLOCK.toNat = 1048576 := rfl
  rw [BitVec.le_def, hblock]
  constructor
  · intro hall
    by_contra hsmall
    obtain ⟨t⟩ := ‹Nonempty T›
    have hnext : (buffer_size + 1).toNat = buffer_size.toNat + 1 := by
      have hone : (1 : Usize).toNat = 1 := rfl
      rw [BitVec.toNat_add, hone]
      omega
    have hlen : buffer_size + 1 ≤ ONE_MEGABYTE_BLOCK := by
      rw [BitVec.le_def, hnext, hblock]
      omega
    obtain ⟨s, hreach, hreturned, hbuf⟩ := increments_beyond (L := L) options t hlen
    have hbounds := (hall s hreach).incremented t 0 (buffer_size + 1) 0 hreturned
    rw [hbuf, hallocated, hnext] at hbounds
    omega
  · intro hlarge s h
    have hs : s.Kept options.buffer_size := h.invariant (P := (Kept · options.buffer_size))
      (fun _ _ _ hs horderly h => hs.step horderly h) (kept_init options)
    exact hs.inBounds (hallocated ▸ hlarge)

/-- The call and the offset of a thread about to write its payload. -/
def writing (s : Incrementing T L) (t : T) : Option (PutCall L × Usize) :=
  match s.threads.pc t with
  | .putWrite call offset => some (call, offset)
  | _ => none

/-- One thread reserves a whole buffer and is about to write to it. -/
def fillOne : List (Action (Fin 1) 1) :=
  (Threads.attempt 0 (zeros ONE_MEGABYTE_BLOCK) 2 0).map .ring

theorem accesses_in_bounds_iff_fillOne :
    ∃ options s, BufferRingOptions.new.set_buffer_size ONE_MEGABYTE_BLOCK = some options ∧
      Reaches (step options) (fun s a => orderly s a = true)
        (init (BufferRing.with_options options) : Incrementing (Fin 1) 1) s ∧
      (writing s 0).any (fun w => w.2 == 0 && w.1.payload.len == ONE_MEGABYTE_BLOCK) = true ∧
      s.InBounds := by
  have hsize := BufferRingOptions.new.set_buffer_size_pos (show ONE_MEGABYTE_BLOCK ≠ 0 by decide)
  have hrun : (exec (step { BufferRingOptions.new with buffer_size := ONE_MEGABYTE_BLOCK })
      (fun s a => orderly s a = true) fillOne (init (BufferRing.with_options
        { BufferRingOptions.new with buffer_size := ONE_MEGABYTE_BLOCK }) : Incrementing (Fin 1) 1)).any
      (fun s => (writing s 0).any
        fun w => w.2 == 0 && w.1.payload.len == ONE_MEGABYTE_BLOCK) = true := by
    decide +kernel
  obtain ⟨s, hreach, hcheck⟩ := exists_of_exec hrun
  exact ⟨_, s, hsize, hreach, hcheck, (accesses_in_bounds_iff hsize).mpr (BitVec.le_refl _) s hreach⟩

/-- A buffer of 4096 bytes grants a payload of 8192, and `put` is about to write it. -/
def overfill : List (Action (Fin 1) 1) := (Threads.attempt 0 (zeros 8192) 2 0).map .ring

theorem write_beyond_allocation :
    ∃ options s, BufferRingOptions.new.set_buffer_size 4096 = some options ∧
      Reaches (step options) (fun s a => orderly s a = true)
        (init (BufferRing.with_options options) : Incrementing (Fin 1) 1) s ∧
      (s.threads.mem.ring 0).buf.size = 4096 ∧
      (writing s 0).any (fun w => w.2 == 0 && w.1.payload.len == 8192) = true ∧ ¬ s.InBounds := by
  have hsize := BufferRingOptions.new.set_buffer_size_pos (show (4096 : Usize) ≠ 0 by decide)
  have hrun : (exec (step { BufferRingOptions.new with buffer_size := 4096 })
      (fun s a => orderly s a = true) overfill (init (BufferRing.with_options
        { BufferRingOptions.new with buffer_size := 4096 }) : Incrementing (Fin 1) 1)).any
      (fun s => (s.threads.mem.ring 0).buf.size == 4096 && (writing s 0).any
        fun w => w.2 == 0 && w.1.payload.len == 8192) = true := by
    decide +kernel
  obtain ⟨s, hreach, hcheck⟩ := exists_of_exec hrun
  rw [Bool.and_eq_true, beq_iff_eq] at hcheck
  obtain ⟨hbuf, hwriting⟩ := hcheck
  refine ⟨_, s, hsize, hreach, hbuf, hwriting, fun hin => ?_⟩
  obtain ⟨⟨call, offset⟩, hcall, hlen⟩ := (Option.any_eq_true _ _).mp hwriting
  simp only [Bool.and_eq_true, beq_iff_eq] at hlen
  unfold writing at hcall
  split at hcall
  next call' offset' hpc =>
    cases hcall
    have hbound := hin.written 0 call offset hpc
    have hcurrent : call.current = 0 := Subsingleton.elim _ _
    rw [hcurrent, hbuf, hlen.1, hlen.2] at hbound
    exact absurd hbound (by decide)
  next => cases hcall

end Incrementing

end FlushRing
