import FlushRing.Transition

/-! A server with a submission queue and a completion queue. Entries are pushed, handed over in batches,
started and completed in an order the server chooses, and their completions read in the order they come. An
entry may hold back the next one of its batch, or wait for every entry before it. -/

namespace Submission

variable {E : Type}

/-- How far an entry has come since it was handed over. -/
inductive Progress where
  | waiting
  | running
  | done (result : Int)
  deriving DecidableEq

def Progress.result : Progress → Option Int
  | .done result => some result
  | _ => none

/-- An entry with the batch it was handed over in. -/
structure Handed (E : Type) where
  entry : E
  batch : Nat
  progress : Progress
  deriving DecidableEq

def Handed.unserved (p : Handed E) : Bool := p.progress.result.isNone

/-- What the server reports of the entry at one position of the log. -/
structure Completion (E : Type) where
  position : Nat
  entry : E
  result : Int
  deriving DecidableEq

/-- Entries that are pushed, all that have been handed over so far, in order, and the completions nobody
has read. -/
structure Queues (E : Type) where
  sq : List E
  log : List (Handed E)
  cq : List (Completion E)

/-- Which entries hold back the next one of their batch, and which wait for all before them. -/
structure Ordering (E : Type) where
  links : E → Bool
  drains : E → Bool

/-- What the server does. -/
inductive Serve where
  | start (i : Nat)
  | complete (i : Nat) (result : Int)

namespace Queues

def new : Queues E := { sq := [], log := [], cq := [] }

/-- All entries pushed so far, in order. -/
def pushed (q : Queues E) : List E := q.log.map Handed.entry ++ q.sq

/-- The result of the entry at a position of the log, once it has completed. -/
def result (q : Queues E) (i : Nat) : Option Int := q.log[i]?.bind (·.progress.result)

/-- The entry at a position of the log and its batch. -/
def handed (q : Queues E) (i : Nat) : Option (E × Nat) := q.log[i]?.map fun p => (p.entry, p.batch)

def started (q : Queues E) (i : Nat) : Bool := q.log[i]?.any (·.progress ≠ .waiting)

/-- Everything handed over has completed. -/
def idle (q : Queues E) : Bool := q.log.all (·.progress.result.isSome)

def push (capacity : Nat) (q : Queues E) (e : E) : Option (Queues E) :=
  if q.sq.length < capacity then some { q with sq := q.sq ++ [e] } else none

/-- The pushed entries are handed over as one batch, named by the position of its first entry. -/
def submit (q : Queues E) : Queues E :=
  { q with
    sq := []
    log := q.log ++ q.sq.map fun entry => { entry, batch := q.log.length, progress := .waiting } }

/-- All completions are read. -/
def drain (q : Queues E) : List (Completion E) × Queues E := (q.cq, { q with cq := [] })

/-- The entry at position `i` does not have to wait for one before it. -/
def ready (order : Ordering E) (q : Queues E) (i : Nat) (h : Handed E) : Bool :=
  (!order.drains h.entry || (q.log.take i).all (·.progress.result.isSome)) &&
    !(0 < i && q.log[i - 1]?.any fun p =>
      p.batch == h.batch && order.links p.entry && p.progress.result.isNone)

def serve (order : Ordering E) (q : Queues E) : Serve → Option (Queues E)
  | .start i =>
    match q.log[i]? with
    | some h =>
      if h.progress = .waiting ∧ q.ready order i h = true then
        some { q with log := q.log.set i { h with progress := .running } }
      else none
    | none => none
  | .complete i result =>
    match q.log[i]? with
    | some h =>
      if h.progress = .running then
        some { q with
          log := q.log.set i { h with progress := .done result }
          cq := q.cq ++ [{ position := i, entry := h.entry, result }] }
      else none
    | none => none

/-- What starting an entry needs and does. -/
theorem serve_start {order : Ordering E} {q q' : Queues E} {i : Nat} (h : q.serve order (.start i) = some q') :
    ∃ p, q.log[i]? = some p ∧ p.progress = .waiting ∧ q.ready order i p = true ∧
      q' = { q with log := q.log.set i { p with progress := .running } } := by
  simp only [serve] at h
  split at h
  next p hp =>
    split at h
    next hready => exact ⟨p, hp, hready.1, hready.2, (Option.some.inj h).symm⟩
    next => cases h
  next => cases h

/-- What completing an entry needs and does. -/
theorem serve_complete {order : Ordering E} {q q' : Queues E} {i : Nat} {r : Int}
    (h : q.serve order (.complete i r) = some q') :
    ∃ p, q.log[i]? = some p ∧ p.progress = .running ∧
      q' = { q with
        log := q.log.set i { p with progress := .done r }
        cq := q.cq ++ [{ position := i, entry := p.entry, result := r }] } := by
  simp only [serve] at h
  split at h
  next p hp =>
    split at h
    next hrunning => exact ⟨p, hp, hrunning, (Option.some.inj h).symm⟩
    next => cases h
  next => cases h

/-- Progress of one entry changes nothing else that is known of the log. -/
theorem result_set {q : Queues E} {i : Nat} {p : Handed E} (hp : q.log[i]? = some p) (progress : Progress)
    (cq : List (Completion E)) :
    ({ q with log := q.log.set i { p with progress }, cq } : Queues E).result =
      Function.update q.result i progress.result := by
  funext j
  have hi : i < q.log.length := (List.getElem?_eq_some_iff.mp hp).1
  by_cases hj : i = j
  · subst hj
    rw [Function.update_self, result, List.getElem?_set_self hi]
    rfl
  · rw [Function.update_of_ne (Ne.symm hj), result, List.getElem?_set_ne hj]
    rfl

/-- Progress of one entry does not change what has been pushed. -/
theorem pushed_set {q : Queues E} {i : Nat} {p : Handed E} (hp : q.log[i]? = some p) (progress : Progress)
    (cq : List (Completion E)) :
    ({ q with log := q.log.set i { p with progress }, cq } : Queues E).pushed = q.pushed := by
  have hentries : (q.log.set i { p with progress }).map Handed.entry = q.log.map Handed.entry := by
    apply List.ext_getElem?
    intro j
    rw [List.getElem?_map, List.getElem?_map]
    by_cases hj : i = j
    · subst hj
      rw [List.getElem?_set_self (List.getElem?_eq_some_iff.mp hp).1, hp]
      rfl
    · rw [List.getElem?_set_ne hj]
  rw [pushed, pushed, hentries]

theorem handed_set {q : Queues E} {i : Nat} {p : Handed E} (hp : q.log[i]? = some p) (progress : Progress)
    (cq : List (Completion E)) :
    ({ q with log := q.log.set i { p with progress }, cq } : Queues E).handed = q.handed := by
  funext j
  have hi : i < q.log.length := (List.getElem?_eq_some_iff.mp hp).1
  by_cases hj : i = j
  · subst hj
    rw [handed, handed, List.getElem?_set_self hi, hp]
    rfl
  · rw [handed, handed, List.getElem?_set_ne hj]

/-- Progress of one entry starts no other. -/
theorem started_set (q : Queues E) (i : Nat) (p : Handed E) (progress : Progress) (cq : List (Completion E))
    {j : Nat} (hj : j ≠ i) :
    ({ q with log := q.log.set i { p with progress }, cq } : Queues E).started j = q.started j := by
  rw [started, started, List.getElem?_set_ne hj.symm]

section Serve
variable {order : Ordering E} {q q' : Queues E} {a : Serve}

/-- The server pushes nothing and takes nothing back. -/
theorem serve_keeps (h : q.serve order a = some q') :
    q'.sq = q.sq ∧ q'.pushed = q.pushed ∧ q'.log.length = q.log.length := by
  cases a with
  | start i =>
    obtain ⟨p, hp, _, _, rfl⟩ := serve_start h
    exact ⟨rfl, pushed_set hp _ _, List.length_set⟩
  | complete i r =>
    obtain ⟨p, hp, _, rfl⟩ := serve_complete h
    exact ⟨rfl, pushed_set hp _ _, List.length_set⟩

/-- Starting an entry answers nothing. -/
theorem start_keeps {i : Nat} (h : q.serve order (.start i) = some q') :
    q'.result = q.result ∧ q'.cq = q.cq := by
  obtain ⟨p, hp, hwaiting, _, rfl⟩ := serve_start h
  refine ⟨?_, rfl⟩
  have hnone : q.result i = none := by
    rw [result, hp, Option.bind_some, hwaiting]
    rfl
  rw [result_set hp]
  exact Function.update_eq_self_iff.mpr hnone.symm

/-- A completion is the first result of its entry. -/
theorem complete_result {i : Nat} {r : Int} (h : q.serve order (.complete i r) = some q') :
    q.result i = none ∧ q'.result = Function.update q.result i (some r) ∧
      ∃ e, q.pushed[i]? = some e ∧ q'.cq = q.cq ++ [{ position := i, entry := e, result := r }] := by
  obtain ⟨p, hp, hrunning, rfl⟩ := serve_complete h
  refine ⟨?_, result_set hp _ _, p.entry, ?_, rfl⟩
  · rw [result, hp, Option.bind_some, hrunning]
    rfl
  · have hi : i < q.log.length := (List.getElem?_eq_some_iff.mp hp).1
    rw [pushed, List.getElem?_append_left (by rwa [List.length_map]), List.getElem?_map, hp]
    rfl

/-- A result is final. -/
theorem serve_result (h : q.serve order a = some q') {i : Nat} {r : Int} (hi : q.result i = some r) :
    q'.result i = some r := by
  cases a with
  | start j =>
    rw [(start_keeps h).1, hi]
  | complete j s =>
    obtain ⟨hnone, hresult, _⟩ := complete_result h
    have hne : i ≠ j := by
      rintro rfl
      rw [hi] at hnone
      cases hnone
    rw [hresult, Function.update_of_ne hne, hi]

/-- Unread completions stay ahead of what arrives. -/
theorem serve_unread (h : q.serve order a = some q') : ∃ arrived, q'.cq = q.cq ++ arrived := by
  cases a with
  | start i =>
    refine ⟨[], ?_⟩
    rw [(start_keeps h).2, List.append_nil]
  | complete i r =>
    obtain ⟨_, _, e, _, hcq⟩ := complete_result h
    exact ⟨_, hcq⟩

end Serve

theorem lt_of_result {q : Queues E} {i : Nat} {r : Int} (h : q.result i = some r) : i < q.log.length := by
  rw [result, Option.bind_eq_some_iff] at h
  obtain ⟨p, hp, _⟩ := h
  exact (List.getElem?_eq_some_iff.mp hp).1

/-- What has been handed over keeps its results when a batch is. -/
theorem submit_result (q : Queues E) : q.submit.result = q.result := by
  funext i
  by_cases hi : i < q.log.length
  · rw [result, result, submit, List.getElem?_append_left hi]
  · have hnone : q.result i = none := by
      rw [result, List.getElem?_eq_none (Nat.not_lt.mp hi)]
      rfl
    rw [hnone, result, submit, List.getElem?_append_right (Nat.not_lt.mp hi), List.getElem?_map]
    cases q.sq[i - q.log.length]? <;> rfl

/-- A batch follows the log, in the order its entries were pushed. -/
theorem submit_log (q : Queues E) {i : Nat} (hi : q.log.length ≤ i) :
    q.submit.log[i]? = q.sq[i - q.log.length]?.map fun entry =>
      { entry, batch := q.log.length, progress := .waiting } := by
  rw [submit, List.getElem?_append_right hi, List.getElem?_map]

/-- The server is idle when every entry handed over has a result. -/
theorem idle_iff (q : Queues E) : q.idle = true ↔ ∀ i < q.log.length, (q.result i).isSome = true := by
  rw [idle, List.all_eq_true]
  constructor
  · intro h i hi
    rw [result, List.getElem?_eq_getElem hi]
    exact h _ (List.getElem_mem hi)
  · intro h p hp
    obtain ⟨i, hi, rfl⟩ := List.mem_iff_getElem.mp hp
    have hsome := h i hi
    rwa [result, List.getElem?_eq_getElem hi] at hsome

/-- The result of an entry is its progress. -/
theorem result_of_getElem? {q : Queues E} {i : Nat} {p : Handed E} (hp : q.log[i]? = some p) :
    q.result i = p.progress.result := by
  rw [result, hp]
  rfl

theorem pushed_getElem? {q : Queues E} {i : Nat} {p : Handed E} (hp : q.log[i]? = some p) :
    q.pushed[i]? = some p.entry := by
  have hlt := (List.getElem?_eq_some_iff.mp hp).1
  rw [pushed, List.getElem?_append_left (by rwa [List.length_map]), List.getElem?_map, hp]
  rfl

/-- What an entry waits for: all before it if it drains, and the one before it in its batch if that one
links. -/
theorem ready_iff {order : Ordering E} {q : Queues E} {i : Nat} {p : Handed E} (hp : q.log[i]? = some p) :
    q.ready order i p = true ↔
      (order.drains p.entry = true → ∀ j < i, (q.result j).isSome = true) ∧
      ∀ j d, i = j + 1 → q.log[j]? = some d → d.batch = p.batch → order.links d.entry = true →
        (q.result j).isSome = true := by
  have hi : i < q.log.length := (List.getElem?_eq_some_iff.mp hp).1
  have hall : (q.log.take i).all (·.progress.result.isSome) = true ↔ ∀ j < i, (q.result j).isSome = true := by
    rw [List.all_eq_true]
    constructor
    · intro h j hj
      have hlog : q.log[j]? = some q.log[j] := List.getElem?_eq_getElem (Nat.lt_trans hj hi)
      rw [result_of_getElem? hlog]
      exact h _ (List.mem_take_iff_getElem.mpr ⟨j, Nat.lt_min.mpr ⟨hj, Nat.lt_trans hj hi⟩, rfl⟩)
    · intro h d hd
      obtain ⟨j, hj, rfl⟩ := List.mem_take_iff_getElem.mp hd
      have hsome := h j (Nat.lt_min.mp hj).1
      rwa [result_of_getElem? (List.getElem?_eq_getElem (Nat.lt_min.mp hj).2)] at hsome
  rw [ready, Bool.and_eq_true, Bool.or_eq_true, hall, Bool.not_eq_true', Bool.not_eq_true']
  refine and_congr ?_ ?_
  · cases order.drains p.entry <;> simp
  · cases i with
    | zero => simp
    | succ k =>
      have hlog : q.log[k]? = some q.log[k] := List.getElem?_eq_getElem (by omega)
      simp only [Nat.add_one_sub_one, hlog, Option.any_some, Nat.zero_lt_succ, decide_true, Bool.true_and]
      constructor
      · rintro h j d hj hd hbatch hlinks
        obtain rfl := Nat.succ.inj hj
        obtain rfl := Option.some.inj (hlog.symm.trans hd)
        rw [result_of_getElem? hlog]
        simpa [hbatch, hlinks, Option.isSome_iff_ne_none] using h
      · intro h
        have hdone := h k q.log[k] rfl hlog
        rw [result_of_getElem? hlog] at hdone
        by_contra hwaits
        simp_all

/-- An entry may start when all before it have completed, whatever the order asks for. -/
theorem ready_first {q : Queues E} (order : Ordering E) {i : Nat} {p : Handed E} (hp : q.log[i]? = some p)
    (hbefore : ∀ j < i, (q.result j).isSome = true) : q.ready order i p = true :=
  (ready_iff hp).mpr ⟨fun _ => hbefore, fun j _ hj _ _ _ => hbefore j (by omega)⟩

/-- An entry that is running can be completed, with any result. -/
theorem complete_running (order : Ordering E) {q : Queues E} {i : Nat} {p : Handed E} (hp : q.log[i]? = some p)
    (hrunning : p.progress = .running) (r : Int) :
    ∃ q', q.serve order (.complete i r) = some q' ∧ q'.result = Function.update q.result i (some r) ∧
      q'.cq = q.cq ++ [{ position := i, entry := p.entry, result := r }] := by
  refine ⟨_, ?_, result_set hp (.done r) _, rfl⟩
  simp only [serve, hp, hrunning, if_true]

/-- An entry that may start can be completed, with any result. -/
theorem completes (order : Ordering E) {q : Queues E} {i : Nat} {p : Handed E} (hp : q.log[i]? = some p)
    (hnone : q.result i = none) (hready : q.ready order i p = true) (r : Int) :
    ∃ q', Transition.Reaches (serve order) (fun _ a => a = .start i ∨ a = .complete i r) q q' ∧
      q'.result = Function.update q.result i (some r) ∧
      q'.cq = q.cq ++ [{ position := i, entry := p.entry, result := r }] := by
  cases hprogress : p.progress with
  | waiting =>
    have hi : i < q.log.length := (List.getElem?_eq_some_iff.mp hp).1
    let begun : Queues E := { q with log := q.log.set i { p with progress := .running } }
    have hstart : q.serve order (.start i) = some begun := by
      simp only [serve, hp, hprogress, hready, and_self, if_true, begun]
    have hlog : begun.log[i]? = some { p with progress := .running } := List.getElem?_set_self hi
    obtain ⟨q', hcomplete, hresult, hcq⟩ := complete_running order hlog rfl r
    refine ⟨q', .tail (.complete i r) (.tail (.start i) .refl (.inl rfl) hstart) (.inr rfl) hcomplete, ?_, hcq⟩
    rw [hresult, (start_keeps hstart).1]
  | running =>
    obtain ⟨q', hcomplete, hresult, hcq⟩ := complete_running order hp hprogress r
    exact ⟨q', .tail (.complete i r) .refl (.inr rfl) hcomplete, hresult, hcq⟩
  | done s =>
    rw [result_of_getElem? hp, hprogress] at hnone
    cases hnone

/-- Until all has completed, the server can complete the first entry that has not, with any result. -/
theorem first_completes (order : Ordering E) {q : Queues E} (hbusy : q.idle = false) :
    ∃ i < q.log.length, q.result i = none ∧ (∀ j < i, (q.result j).isSome = true) ∧ ∀ r,
      ∃ q' e, Transition.Reaches (serve order) (fun _ a => a = .start i ∨ a = .complete i r) q q' ∧
        q'.result = Function.update q.result i (some r) ∧
        q'.cq = q.cq ++ [{ position := i, entry := e, result := r }] := by
  have hopen : ∃ i, i < q.log.length ∧ q.result i = none := by
    by_contra hall
    have hidle : q.idle = true := by
      rw [idle_iff]
      intro i hi
      rw [Option.isSome_iff_ne_none]
      exact fun hnone => hall ⟨i, hi, hnone⟩
    rw [hidle] at hbusy
    cases hbusy
  obtain ⟨hi, hnone⟩ := Nat.find_spec hopen
  have hbefore : ∀ j < Nat.find hopen, (q.result j).isSome = true := by
    intro j hj
    rw [Option.isSome_iff_ne_none]
    exact fun hj' => Nat.find_min hopen hj ⟨Nat.lt_trans hj hi, hj'⟩
  have hlog : q.log[Nat.find hopen]? = some q.log[Nat.find hopen] := List.getElem?_eq_getElem hi
  refine ⟨Nat.find hopen, hi, hnone, hbefore, fun r => ?_⟩
  obtain ⟨q', hreach, hresult, hcq⟩ := completes order hlog hnone (ready_first order hlog hbefore) r
  exact ⟨q', _, hreach, hresult, hcq⟩

/-- The server takes no entry away and adds none. -/
theorem reaches_keeps {order : Ordering E} {ok : Queues E → Serve → Prop} {q q' : Queues E}
    (h : Transition.Reaches (serve order) ok q q') :
    q'.sq = q.sq ∧ q'.pushed = q.pushed ∧ q'.log.length = q.log.length := by
  refine h.invariant (P := fun r => r.sq = q.sq ∧ r.pushed = q.pushed ∧ r.log.length = q.log.length)
    (fun r a r' hr _ hserve => ?_) ⟨rfl, rfl, rfl⟩
  obtain ⟨hsq, hpushed, hlength⟩ := serve_keeps hserve
  exact ⟨hsq.trans hr.1, hpushed.trans hr.2.1, hlength.trans hr.2.2⟩

/-- The server can complete everything that has been handed over, with any results. -/
theorem serves_all (order : Ordering E) (result : Nat → Int) (q : Queues E) :
    ∃ q', Transition.Reaches (serve order) (fun _ a => ∃ i, a = .start i ∨ a = .complete i (result i)) q q' ∧
      q'.idle = true := by
  -- one entry after the other, in the order they were handed over
  have hfirst (k : Nat) (hk : k ≤ q.log.length) :
      ∃ q', Transition.Reaches (serve order) (fun _ a => ∃ i, a = .start i ∨ a = .complete i (result i)) q q' ∧
        ∀ j < k, (q'.result j).isSome = true := by
    induction k with
    | zero => exact ⟨q, .refl, fun j hj => absurd hj (Nat.not_lt_zero j)⟩
    | succ k ih =>
      obtain ⟨q₁, hreach, hbefore⟩ := ih (by omega)
      have hlength := (reaches_keeps hreach).2.2
      cases hnone : q₁.result k with
      | some r =>
        refine ⟨q₁, hreach, fun j hj => ?_⟩
        obtain hj | rfl := Nat.lt_succ_iff_lt_or_eq.mp hj
        · exact hbefore j hj
        · rw [hnone]
          rfl
      | none =>
        have hp : q₁.log[k]? = some q₁.log[k] := List.getElem?_eq_getElem (by omega)
        obtain ⟨q₂, hserve, hresult, _⟩ := completes order hp hnone (ready_first order hp hbefore) (result k)
        refine ⟨q₂, hreach.trans (hserve.mono fun _ a ha => ⟨k, ha⟩), fun j hj => ?_⟩
        rw [hresult]
        obtain hj | rfl := Nat.lt_succ_iff_lt_or_eq.mp hj
        · rw [Function.update_of_ne (Nat.ne_of_lt hj)]
          exact hbefore j hj
        · rw [Function.update_self]
          rfl
  obtain ⟨q', hreach, hall⟩ := hfirst q.log.length (Nat.le_refl _)
  refine ⟨q', hreach, (idle_iff q').mpr fun i hi => hall i ?_⟩
  rwa [← (reaches_keeps hreach).2.2]

/-- Everything handed over has completed but the entry at position `k`, the last one, and of the completions
nobody has read only its own can be there. -/
structure Alone (k : Nat) (q : Queues E) : Prop where
  last : q.log.length = k + 1
  before : ∀ i < k, (q.result i).isSome = true
  own : q.cq = [] ∧ q.result k = none ∨
    ∃ d : Completion E, q.cq = [d] ∧ d.position = k ∧ q.result k = some d.result

/-- Whatever the server does, the last entry stays alone. -/
theorem Alone.serve {order : Ordering E} {q q' : Queues E} {k : Nat} {a : Serve} (hq : q.Alone k)
    (h : q.serve order a = some q') : q'.Alone k := by
  obtain ⟨_, _, hlength⟩ := serve_keeps h
  refine ⟨hlength.trans hq.last, fun i hi => ?_, ?_⟩
  · obtain ⟨r, hr⟩ := Option.isSome_iff_exists.mp (hq.before i hi)
    rw [serve_result h hr]
    rfl
  · cases a with
    | start i =>
      obtain ⟨hresult, hcq⟩ := start_keeps h
      rw [hresult, hcq]
      exact hq.own
    | complete i r =>
      obtain ⟨hnone, hresult, e, _, hcq⟩ := complete_result h
      obtain rfl : i = k := by
        obtain ⟨p, hp, _⟩ := serve_complete h
        have hi := (List.getElem?_eq_some_iff.mp hp).1
        have hlast := hq.last
        by_contra hne
        have hsome := hq.before i (by omega)
        rw [hnone] at hsome
        cases hsome
      obtain ⟨hempty, _⟩ | ⟨d, _, _, hd⟩ := hq.own
      · refine .inr ⟨{ position := i, entry := e, result := r }, ?_, rfl, ?_⟩
        · rw [hcq, hempty, List.nil_append]
        · rw [hresult, Function.update_self]
      · rw [hnone] at hd
        cases hd

/-- The server can complete the last entry, with any result. -/
theorem Alone.completes (order : Ordering E) {q : Queues E} {k : Nat} (hq : q.Alone k) (hnone : q.result k = none)
    (r : Int) :
    ∃ q', Transition.Reaches (Queues.serve order) (fun _ a => a = .start k ∨ a = .complete k r) q q' ∧
      q'.result k = some r ∧ q'.cq ≠ [] := by
  have hk : k < q.log.length := by
    rw [hq.last]
    exact Nat.lt_succ_self k
  have hlog : q.log[k]? = some q.log[k] := List.getElem?_eq_getElem hk
  obtain ⟨q', hreach, hresult, hcq⟩ := Queues.completes order hlog hnone (ready_first order hlog hq.before) r
  refine ⟨q', hreach, ?_, ?_⟩
  · rw [hresult, Function.update_self]
  · rw [hcq]
    exact List.append_ne_nil_of_right_ne_nil _ (List.cons_ne_nil _ _)

/-- An idle server has nothing to do. -/
theorem serve_idle {order : Ordering E} {q : Queues E} (hidle : q.idle = true) (a : Serve) :
    q.serve order a = none := by
  have hdone {i : Nat} {p : Handed E} (hp : q.log[i]? = some p) : p.progress.result.isSome = true := by
    have hsome := (idle_iff q).mp hidle i (List.getElem?_eq_some_iff.mp hp).1
    rwa [result_of_getElem? hp] at hsome
  cases hserve : q.serve order a with
  | none => rfl
  | some q' =>
    cases a with
    | start i =>
      obtain ⟨p, hp, hwaiting, _⟩ := serve_start hserve
      have hsome := hdone hp
      rw [hwaiting] at hsome
      cases hsome
    | complete i r =>
      obtain ⟨p, hp, hrunning, _⟩ := serve_complete hserve
      have hsome := hdone hp
      rw [hrunning] at hsome
      cases hsome

/-- The server's queues once one more entry has been pushed and handed over. -/
def sent (q : Queues E) (e : E) : Queues E := ({ q with sq := q.sq ++ [e] } : Queues E).submit

theorem sent_result (q : Queues E) (e : E) : (q.sent e).result = q.result :=
  submit_result { q with sq := q.sq ++ [e] }

theorem sent_length (q : Queues E) (e : E) : (q.sent e).log.length = q.pushed.length + 1 := by
  simp [sent, submit, pushed, Nat.add_assoc]

/-- An entry sent to an idle server is alone. -/
theorem sent_alone {q : Queues E} (e : E) (hsq : q.sq = []) (hidle : q.idle = true) (hcq : q.cq = []) :
    (q.sent e).Alone q.pushed.length := by
  have hlength : q.pushed.length = q.log.length := by
    rw [pushed, hsq, List.append_nil, List.length_map]
  refine ⟨sent_length q e, fun i hi => ?_, .inl ⟨hcq, ?_⟩⟩
  · rw [sent_result]
    exact (idle_iff q).mp hidle i (hlength ▸ hi)
  · rw [sent_result, result, List.getElem?_eq_none (Nat.le_of_eq hlength.symm)]
    rfl

/-- The entry handed over last can be overtaken, unless all before it have completed. -/
theorem overtaken (order : Ordering E) {q : Queues E} (e : E) (hbusy : q.sq ≠ [] ∨ q.idle = false) :
    ∃ i < q.pushed.length, q.result i = none ∧ ∀ r,
      ∃ q' d, Transition.Reaches (Queues.serve order) (fun _ a => a = .start i ∨ a = .complete i r) (q.sent e) q' ∧
        q'.result = Function.update q.result i (some r) ∧
        q'.cq = q.cq ++ [{ position := i, entry := d, result := r }] := by
  have hlength := sent_length q e
  have hresult := sent_result q e
  have hlast : q.result q.pushed.length = none := by
    have hle : q.log.length ≤ q.pushed.length := by
      rw [pushed, List.length_append, List.length_map]
      exact Nat.le_add_right _ _
    rw [result, List.getElem?_eq_none hle]
    rfl
  have hopen : (q.sent e).idle = false := by
    by_contra hidle
    have hsome := (idle_iff _).mp (Bool.of_not_eq_false hidle) q.pushed.length (by omega)
    rw [hresult, hlast] at hsome
    cases hsome
  obtain ⟨i, hi, hnone, hbefore, hcompletes⟩ := first_completes order hopen
  rw [hresult] at hnone hcompletes
  refine ⟨i, ?_, hnone, hcompletes⟩
  by_contra hnot
  obtain rfl : i = q.pushed.length := by omega
  have hall (j : Nat) (hj : j < q.pushed.length) : (q.result j).isSome = true := by
    rw [← hresult]
    exact hbefore j hj
  have hpushed : q.pushed.length = q.log.length + q.sq.length := by
    rw [pushed, List.length_append, List.length_map]
  rcases hbusy with hsq | hidle
  · have hpos := List.length_pos_iff.mpr hsq
    have hsome := hall q.log.length (by omega)
    rw [result, List.getElem?_eq_none (Nat.le_refl _)] at hsome
    cases hsome
  · rw [(idle_iff q).mpr fun j hj => hall j (by omega)] at hidle
    cases hidle

theorem started_of_result {q : Queues E} {i : Nat} (h : (q.result i).isSome = true) : q.started i = true := by
  obtain ⟨r, hr⟩ := Option.isSome_iff_exists.mp h
  obtain ⟨p, hp, hresult⟩ := Option.bind_eq_some_iff.mp hr
  rw [started, hp, Option.any_some, decide_eq_true_eq]
  intro hwaiting
  rw [hwaiting] at hresult
  cases hresult

/-- Everything before an entry that has started has completed; so it is because each entry follows one
that holds it back, or found everything before it completed. -/
structure Serialized (order : Ordering E) (q : Queues E) : Prop where
  serial : ∀ i, q.started i = true → ∀ j < i, (q.result j).isSome = true
  chained : ∀ i e batch, q.handed i = some (e, batch) → (∀ j < i, (q.result j).isSome = true) ∨
    ∃ k d, i = k + 1 ∧ q.handed k = some (d, batch) ∧ order.links d = true
  linked : ∀ e ∈ q.sq, order.links e = true

namespace Serialized
variable {order : Ordering E} {q q' : Queues E}

/-- New queues are serialized. -/
theorem new : (Queues.new : Queues E).Serialized order where
  serial i h := by
    cases h
  chained i e batch h := by
    cases h
  linked e h := by
    cases h

/-- An entry that may start has everything before it completed. -/
theorem of_ready (hq : q.Serialized order) {i : Nat} {p : Handed E} (hp : q.log[i]? = some p)
    (hready : q.ready order i p = true) : ∀ j < i, (q.result j).isSome = true := by
  have hhanded : q.handed i = some (p.entry, p.batch) := by
    rw [handed, hp]
    rfl
  obtain hbefore | ⟨k, d, rfl, hd, hlinks⟩ := hq.chained i _ _ hhanded
  · exact hbefore
  · obtain ⟨d, hlog, heq⟩ := Option.map_eq_some_iff.mp hd
    obtain ⟨rfl, hbatch⟩ := Prod.mk.inj heq
    have hprevious : (q.result k).isSome = true := ((ready_iff hp).mp hready).2 k d rfl hlog hbatch hlinks
    intro j hj
    obtain hj | rfl := Nat.lt_succ_iff_lt_or_eq.mp hj
    · exact hq.serial k (started_of_result hprevious) j hj
    · exact hprevious

/-- Whatever the server does, the entries stay serialized. -/
theorem serve {a : Serve} (hq : q.Serialized order) (h : q.serve order a = some q') : q'.Serialized order := by
  have hresult {j : Nat} (hj : (q.result j).isSome = true) : (q'.result j).isSome = true := by
    obtain ⟨r, hr⟩ := Option.isSome_iff_exists.mp hj
    rw [serve_result h hr]
    rfl
  have hhanded : q'.handed = q.handed := by
    cases a with
    | start i =>
      obtain ⟨p, hp, _, _, rfl⟩ := serve_start h
      exact handed_set hp _ _
    | complete i r =>
      obtain ⟨p, hp, _, rfl⟩ := serve_complete h
      exact handed_set hp _ _
  have hstarted (i : Nat) (hi : q'.started i = true) : q.started i = true ∨
      ∀ j < i, (q.result j).isSome = true := by
    cases a with
    | start k =>
      obtain ⟨p, hp, _, hready, rfl⟩ := serve_start h
      by_cases hik : i = k
      · exact .inr (hik ▸ hq.of_ready hp hready)
      · exact .inl (by rwa [started_set q k p _ _ hik] at hi)
    | complete k r =>
      obtain ⟨p, hp, hrunning, rfl⟩ := serve_complete h
      by_cases hik : i = k
      · refine .inl ?_
        rw [hik, started, hp, Option.any_some, hrunning]
        rfl
      · exact .inl (by rwa [started_set q k p _ _ hik] at hi)
  refine ⟨fun i hi j hj => ?_, fun i e batch he => ?_, ?_⟩
  · rcases hstarted i hi with hi | hbefore
    · exact hresult (hq.serial i hi j hj)
    · exact hresult (hbefore j hj)
  · rw [hhanded] at he ⊢
    rcases hq.chained i e batch he with hbefore | hlinked
    · exact .inl fun j hj => hresult (hbefore j hj)
    · exact .inr hlinked
  · rw [(serve_keeps h).1]
    exact hq.linked

/-- A push of an entry that holds back the next one keeps the queues serialized. -/
theorem push {capacity : Nat} {e : E} (hq : q.Serialized order) (he : order.links e = true)
    (h : q.push capacity e = some q') : q'.Serialized order := by
  unfold Queues.push at h
  split at h
  next =>
    obtain rfl := Option.some.inj h
    refine ⟨hq.serial, hq.chained, fun d hd => ?_⟩
    rcases List.mem_append.mp hd with hd | hd
    · exact hq.linked d hd
    · rwa [List.mem_singleton.mp hd]
  next => cases h

/-- A batch handed over once everything before it has completed. -/
theorem submit (hq : q.Serialized order) (hidle : q.idle = true) : q.submit.Serialized order := by
  have hresult : q.submit.result = q.result := submit_result q
  have hold (i : Nat) (hi : i < q.log.length) : ∀ j < i, (q.submit.result j).isSome = true := by
    intro j hj
    rw [hresult]
    exact (idle_iff q).mp hidle j (by omega)
  refine ⟨fun i hi => ?_, fun i e batch he => ?_, fun e he => by cases he⟩
  · by_cases hlog : i < q.log.length
    · exact hold i hlog
    · rw [started, submit_log q (Nat.not_lt.mp hlog), Option.any_map] at hi
      obtain ⟨e, _, hwaiting⟩ := (Option.any_eq_true _ _).mp hi
      simp at hwaiting
  · by_cases hlog : i < q.log.length
    · exact .inl (hold i hlog)
    · rw [handed, submit_log q (Nat.not_lt.mp hlog), Option.map_map] at he
      obtain ⟨e, hsq, heq⟩ := Option.map_eq_some_iff.mp he
      obtain ⟨rfl, rfl⟩ := Prod.mk.inj heq
      obtain hfirst | ⟨k, hk⟩ : i = q.log.length ∨ ∃ k, i = q.log.length + k + 1 :=
        (Nat.eq_or_lt_of_le (Nat.not_lt.mp hlog)).imp Eq.symm fun hlt => ⟨i - q.log.length - 1, by omega⟩
      · refine .inl fun j hj => ?_
        rw [hresult]
        exact (idle_iff q).mp hidle j (by omega)
      · subst hk
        have hlt : k < q.sq.length := by
          have hbound := (List.getElem?_eq_some_iff.mp hsq).1
          omega
        refine .inr ⟨q.log.length + k, q.sq[k], rfl, ?_, hq.linked _ (List.getElem_mem hlt)⟩
        rw [handed, submit_log q (Nat.le_add_right _ _), Nat.add_sub_cancel_left, List.getElem?_eq_getElem hlt]
        rfl

/-- Reading the completions keeps the queues serialized. -/
theorem drain (hq : q.Serialized order) : q.drain.2.Serialized order := ⟨hq.serial, hq.chained, hq.linked⟩

end Serialized

section Outstanding
variable {order : Ordering E} {q q' : Queues E}

/-- Entries the server has not completed: pushed, or handed over. -/
def unserved (q : Queues E) : List E := q.sq ++ (q.log.filter Handed.unserved).map Handed.entry

/-- Entries whose completions nobody has read. -/
def outstanding (q : Queues E) : List E := q.unserved ++ q.cq.map Completion.entry

/-- An idle server with nothing pushed has nothing left to serve. -/
theorem unserved_of_idle {q : Queues E} (hsq : q.sq = []) (hidle : q.idle = true) : q.unserved = [] := by
  have hnone : q.log.filter Handed.unserved = [] := by
    rw [List.filter_eq_nil_iff]
    intro p hp hunserved
    have hsome := List.all_eq_true.mp hidle p hp
    rw [Handed.unserved, Option.isNone_iff_eq_none] at hunserved
    rw [hunserved] at hsome
    cases hsome
  rw [unserved, hsq, hnone]
  rfl

theorem unserved_push {capacity : Nat} {e : E} (h : q.push capacity e = some q') :
    q'.unserved.Perm (e :: q.unserved) ∧ q'.cq = q.cq := by
  unfold push at h
  split at h
  next =>
    obtain rfl := Option.some.inj h
    refine ⟨?_, rfl⟩
    simp only [unserved, List.append_assoc, List.singleton_append]
    exact List.perm_middle
  next => cases h

theorem outstanding_push {capacity : Nat} {e : E} (h : q.push capacity e = some q') :
    q'.outstanding.Perm (e :: q.outstanding) := by
  obtain ⟨hunserved, hcq⟩ := unserved_push h
  rw [outstanding, hcq]
  exact hunserved.append_right _

/-- A push appends to what has been pushed. -/
theorem pushed_push {capacity : Nat} {e : E} (h : q.push capacity e = some q') :
    q'.pushed = q.pushed ++ [e] ∧ q'.log = q.log := by
  unfold push at h
  split at h
  next =>
    obtain rfl := Option.some.inj h
    exact ⟨(List.append_assoc _ _ _).symm, rfl⟩
  next => cases h

theorem pushed_submit (q : Queues E) : q.submit.pushed = q.pushed := by
  simp only [pushed, submit, List.map_append, List.map_map, List.append_nil]
  congr 1
  exact List.map_id _

/-- Between two states of the queues, entries have been handed over at most. -/
def HandsOver (q q' : Queues E) : Prop :=
  ∀ (i : Nat) (p : Handed E), q'.log[i]? = some p → q.log[i]? = some p ∨ p.progress = .waiting

theorem handsOver_of_log (h : q'.log = q.log) : q.HandsOver q' := by
  intro i p hp
  rw [h] at hp
  exact .inl hp

/-- A submit hands over what was pushed, and nothing else changes. -/
theorem handsOver_submit (q : Queues E) : q.HandsOver q.submit := by
  intro i p hp
  by_cases hi : i < q.log.length
  · rw [submit, List.getElem?_append_left hi] at hp
    exact .inl hp
  · rw [submit_log q (Nat.not_lt.mp hi)] at hp
    obtain ⟨e, _, rfl⟩ := Option.map_eq_some_iff.mp hp
    exact .inr rfl

theorem unserved_submit (q : Queues E) : q.submit.unserved.Perm q.unserved := by
  have hnew : ((q.sq.map fun entry => ({ entry, batch := q.log.length, progress := .waiting } : Handed E)).filter
      Handed.unserved).map Handed.entry = q.sq := by
    rw [List.filter_eq_self.mpr, List.map_map]
    · exact List.map_id _
    · intro p hp
      obtain ⟨e, _, rfl⟩ := List.mem_map.mp hp
      rfl
  simp only [unserved, submit, List.filter_append, List.map_append, hnew, List.nil_append]
  exact List.perm_append_comm

/-- Handing over settles nothing. -/
theorem outstanding_submit (q : Queues E) : q.submit.outstanding.Perm q.outstanding :=
  (unserved_submit q).append_right _

/-- Replacing one member of a list exchanges it for the new one. -/
theorem set_perm {α : Type} {l : List α} {i : Nat} {x : α} (y : α) (hi : l[i]? = some x) :
    (x :: l.set i y).Perm (y :: l) := by
  obtain ⟨hlt, rfl⟩ := List.getElem?_eq_some_iff.mp hi
  have hset := (List.set_perm_cons_eraseIdx hlt y).cons l[i]
  refine hset.trans ((List.Perm.swap _ _ _).trans (List.Perm.cons y ?_))
  exact List.getElem_cons_eraseIdx_perm hlt

theorem unserved_start {i : Nat} (h : q.serve order (.start i) = some q') : q'.unserved.Perm q.unserved := by
  obtain ⟨p, hp, hwaiting, _, rfl⟩ := serve_start h
  have hlog := ((set_perm { p with progress := .running } hp).filter
    Handed.unserved).map Handed.entry
  have hkept : p.unserved = true := by
    rw [Handed.unserved, hwaiting]
    rfl
  rw [List.filter_cons_of_pos hkept, List.filter_cons_of_pos rfl, List.map_cons, List.map_cons] at hlog
  exact (hlog.cons_inv).append_left _

/-- A completion takes its entry off those the server still has. -/
theorem unserved_complete {i : Nat} {r : Int} (h : q.serve order (.complete i r) = some q') :
    ∃ p, q.log[i]? = some p ∧ (p.entry :: q'.unserved).Perm q.unserved ∧
      q'.cq = q.cq ++ [{ position := i, entry := p.entry, result := r }] := by
  obtain ⟨p, hp, hrunning, rfl⟩ := serve_complete h
  refine ⟨p, hp, ?_, rfl⟩
  have hlog := ((set_perm { p with progress := .done r } hp).filter
    Handed.unserved).map Handed.entry
  have hkept : p.unserved = true := by
    rw [Handed.unserved, hrunning]
    rfl
  have hdropped : ¬ ({ p with progress := .done r } : Handed E).unserved = true := by
    intro hnone
    cases hnone
  rw [List.filter_cons_of_pos hkept, List.filter_cons_of_neg hdropped, List.map_cons] at hlog
  exact List.perm_middle.symm.trans (hlog.append_left _)

/-- What the server does leaves entries outstanding until their completions are read. -/
theorem outstanding_serve {a : Serve} (h : q.serve order a = some q') : q'.outstanding.Perm q.outstanding := by
  cases a with
  | start i =>
    rw [outstanding, outstanding, (start_keeps h).2]
    exact (unserved_start h).append_right _
  | complete i r =>
    obtain ⟨p, _, hunserved, hcq⟩ := unserved_complete h
    rw [outstanding, outstanding, hcq, List.map_append, ← List.append_assoc]
    refine List.perm_append_comm.trans ?_
    exact (hunserved.append_right _)

/-- Reading the completions settles their entries. -/
theorem outstanding_drain (q : Queues E) : (q.cq.map Completion.entry ++ q.drain.2.outstanding).Perm q.outstanding := by
  simp only [outstanding, drain, List.map_nil, List.append_nil]
  exact List.perm_append_comm

end Outstanding

end Queues

end Submission
