import FlushRing.Buffer.Ops
import FlushRing.Client.Machine

open Transition

namespace FlushRing

variable {L : Nat}

/-- The functions that ask a ring or one of its buffers for a value. -/
inductive Query (L : Nat) where
  | is_sealed (b : Fin L)
  | is_available (b : Fin L)
  | size (b : Fin L)
  | state (b : Fin L)
  | local_address (b : Fin L)
  | buffer_data (b : Fin L)
  | get_sqe (b : Fin L)
  | current_buffer
  | next_address

inductive Reply (L : Nat) where
  | flag (value : Bool)
  | word (value : Usize)
  | state (value : State)
  | data (value : Slice)
  | entry (value : Option (Sqe L))
  | buffer (value : Fin L)

/-- `is_sealed`: it reads the word with a `fetch_or` of the sealed bit. -/
def FlushBuffer.is_sealed (self : FlushBuffer L) : Bool × FlushBuffer L :=
  (state_sealed self.state, self.set_sealed)

namespace BufferRing

def query (self : BufferRing L) : Query L → Reply L × BufferRing L
  | .is_sealed b =>
    let (value, after) := (self.ring b).is_sealed
    (.flag value, self.modify b fun _ => after)
  | .is_available b => (.flag (self.ring b).is_available, self)
  | .size b => (.word (self.ring b).size, self)
  | .state b => (.state (self.ring b).snapshot, self)
  | .local_address b => (.word (self.ring b).local_address, self)
  | .buffer_data b => (.data { len := (self.ring b).data_len, byte := (self.ring b).buf.bytes }, self)
  | .get_sqe b => (.entry (self.ring b).sqe, self)
  | .current_buffer => (.buffer self.current_buffer, self)
  | .next_address => (.word self.next_address_range, self)

/-- The query is not `is_sealed`, or it is about a sealed buffer. -/
def leaves (self : BufferRing L) : Query L → Bool
  | .is_sealed b => state_sealed (self.ring b).state
  | _ => true

/-- A query leaves the ring as it is, but for `is_sealed` on a buffer that is not sealed. -/
theorem leaves_iff (self : BufferRing L) (q : Query L) : self.leaves q = true ↔ (self.query q).2 = self := by
  cases q
  case is_sealed b =>
    simp only [leaves, query, FlushBuffer.is_sealed]
    constructor
    · intro hsealed
      have hsame : (self.ring b).set_sealed = self.ring b := by
        rw [FlushBuffer.set_sealed, or_sealed_of_sealed hsealed]
      rw [modify, hsame, Function.update_eq_self]
    · intro hsame
      have hb := congrArg (fun mem : BufferRing L => state_sealed (mem.ring b).state) hsame
      simp only [modify_ring_self, FlushBuffer.set_sealed_state, state_sealed_or_sealed] at hb
      exact hb.symm
  all_goals exact ⟨fun _ => rfl, fun _ => rfl⟩

end BufferRing

namespace Client

/-- The operations of a client with a single thread, and the kernel's. -/
inductive Op (L : Nat) where
  | ring (a : Action L)
  | seal_ (b : Fin L)
  | un_sealed (b : Fin L)

/-- What an operation returns. -/
inductive Answer where
  | none
  | reserve_space (result : Option (Except BufferError Usize))
  | put (result : Option (Except BufferError BufferMsg))
  | flush_current (result : Except BufferError Unit)
  | check_cque (result : Except String Unit)
  | seal_ (result : Except BufferError Unit)
  | un_sealed (result : Except BufferError Unit)
  deriving DecidableEq

/-- What a call of the ring returns; `check_cque` returns once it has drained an empty queue. -/
def answer (options : BufferRingOptions) (s : Client L) : Action L → Answer
  | .reserve_space b payload => .reserve_space (((s.mem.ring b).reserve_space payload.len).map Prod.fst)
  | .put i ok =>
    .put (s.calls[i]?.map fun call =>
      (s.mem.put options ok call.current call.reserve_result call.payload).1)
  | .flush_current ok => .flush_current (s.mem.flush_current options ok).1
  | .resume _ =>
    match s.stage with
    | .polling [] => if s.mem.io.cq.isEmpty then .check_cque (.ok ()) else .none
    | _ => .none
  | _ => .none

def perform (options : BufferRingOptions) (s : Client L) : Op L → Option (Answer × Client L)
  | .ring .check_cque =>
    match options.io_instance, s.stage with
    | none, .between => some (.check_cque (.error "Store not present"), s)
    | _, _ => (s.step options .check_cque).map fun s' => (.none, s')
  | .ring a => (s.step options a).map fun s' => (s.answer options a, s')
  | .seal_ b =>
    match s.stage with
    | .between =>
      let (result, after) := (s.mem.ring b).seal_
      some (.seal_ result, { s with mem := s.mem.modify b fun _ => after })
    | _ => none
  | .un_sealed b =>
    match s.stage with
    | .between =>
      let (result, after) := (s.mem.ring b).un_sealed
      some (.un_sealed result, { s with mem := s.mem.modify b fun _ => after })
    | _ => none

def query (s : Client L) (q : Query L) : Reply L × Client L :=
  ((s.mem.query q).1, { s with mem := (s.mem.query q).2 })

theorem query_same_iff (s : Client L) (q : Query L) : s.mem.leaves q = true ↔ (s.query q).2 = s := by
  rw [BufferRing.leaves_iff]
  constructor
  · intro hsame
    simp only [query, hsame]
  · intro hsame
    exact congrArg Client.mem hsame

/-- Queries made at any points of a run are transparent, up to each of its points, exactly when every
`is_sealed` among them finds its buffer sealed; what it returns is the bit it found. -/
theorem queries_transparent_iff (options : BufferRingOptions) (l : List (Op L ⊕ Query L)) (s : Client L) :
    ((∀ n, Transparent (perform options) query (l.take n) s) ↔
      QueriesMeet (perform options) query (fun s q => s.mem.leaves q = true) l s) ∧
    ∀ (t : Client L) b, (t.query (.is_sealed b)).1 = .flag (state_sealed (t.mem.ring b).state) :=
  ⟨transparent_iff query_same_iff l s, fun _ _ => rfl⟩

/-- A new ring is asked whether its buffer is sealed before a byte is reserved in it. -/
def askFirst : List (Op 1 ⊕ Query 1) :=
  [.inr (.is_sealed 0), .inl (.ring (.reserve_space 0 (zeros 1)))]

/-- Asked first, the open buffer refuses the reservation it would have granted. -/
theorem is_sealed_closes :
    (answers (queried (perform storeOptions) query) askFirst
        (init (BufferRing.with_options storeOptions))).map (fun r => lefts r.1) =
      some [.reserve_space (some (.error .EncounteredSealedBuffer))] ∧
    (answers (perform storeOptions) (lefts askFirst)
        (init (BufferRing.with_options storeOptions))).map Prod.fst =
      some [.reserve_space (some (.ok 0))] ∧
    ¬ Transparent (perform storeOptions) query askFirst (init (BufferRing.with_options storeOptions)) := by
  have hasked : (answers (queried (perform storeOptions) query) askFirst
      (init (BufferRing.with_options storeOptions))).map (fun r => lefts r.1) =
      some [.reserve_space (some (.error .EncounteredSealedBuffer))] := by decide +kernel
  have hplain : (answers (perform storeOptions) (lefts askFirst)
      (init (BufferRing.with_options storeOptions))).map Prod.fst =
      some [.reserve_space (some (.ok 0))] := by decide +kernel
  refine ⟨hasked, hplain, fun htransparent => ?_⟩
  have hsame : (answers (queried (perform storeOptions) query) askFirst
      (init (BufferRing.with_options storeOptions))).map (fun r => lefts r.1) =
      (answers (perform storeOptions) (lefts askFirst)
        (init (BufferRing.with_options storeOptions))).map Prod.fst := by
    rw [← htransparent, Option.map_map]
    rfl
  rw [hasked, hplain] at hsame
  cases hsame

end Client

end FlushRing
