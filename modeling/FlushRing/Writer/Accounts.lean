import FlushRing.Word
import FlushRing.Writer.Calls

open Extents Submission Transition

namespace FlushRing

variable {T : Type} [DecidableEq T]

def WriterStage.ended : WriterStage → Bool
  | .finished => true
  | _ => false

theorem ended_iff {stage : WriterStage} : stage.ended = true ↔ stage = .finished := by
  cases stage <;> simp [WriterStage.ended]

namespace Writers

/-- The caller promises that a payload fits a buffer. -/
def fits : Action T → Bool
  | .append _ payload _ => payload.len ≤ BATCH_SIZE
  | _ => true

/-- The shared counter does not wrap around. -/
def roomy (s : Writers T) (a : Action T) : Prop := ∀ s', s.step a = some s' → s.file_offset ≤ s'.file_offset

/-- The accounts of all writers are in order, and their batches tile the file up to the shared counter. -/
structure Accounts (s : Writers T) : Prop where
  stood : ∀ t, s.Stood t
  tiles : Tiles 0 (s.batches.map Batch.extent) s.file_offset.toNat
  batch : ∀ b ∈ s.batches, 0 < b.len ∧ b.len ≤ BATCH_SIZE ∧ b.bytes.length = b.len.toNat

section Steps
variable {s s' : Writers T} {t t' : T} {w : RingWriter} {a : Action T}

theorem Accounts.init : (init : Writers T).Accounts where
  stood t := by
    refine ⟨[], ⟨.new, rfl, rfl, .refl _, fun e he => by cases he⟩, .idle ⟨rfl, ?_, rfl⟩⟩
    change (0 : Usize) ≤ BATCH_SIZE
    decide
  tiles := .nil
  batch b hb := by cases hb

/-- The accounts of a writer are its own. -/
theorem Stood.congr (h : s.Stood t) (hwriter : s'.writer t = s.writer t) (hstage : s'.stage t = s.stage t)
    (hfilling : s'.filling t = s.filling t) (hreturned : s'.returned t = s.returned t)
    (happended : s'.appended t = s.appended t) (hmine : s'.mine t = s.mine t) : s'.Stood t := by
  obtain ⟨rest, hkeeps, hstands⟩ := h
  refine ⟨rest, ?_, ?_⟩
  · rw [hwriter]
    refine ⟨hkeeps.sound, ?_, ?_, ?_, ?_⟩
    · rw [happended, hmine, hfilling]
      exact hkeeps.order
    · rw [hmine]
      exact hkeeps.pushed
    · rw [hreturned, hmine]
      exact hkeeps.ranges
    · rw [hmine]
      exact hkeeps.slots
  · rw [hwriter, hstage, hfilling]
    exact hstands

/-- A call of one writer leaves the accounts of the others in order. -/
theorem Within.stood (h : s.Within t w s') (ht : t' ≠ t) (hs : s.Stood t') : s'.Stood t' := by
  refine hs.congr (h.writer t' ht) (h.stage t' ht) (h.filling t' ht) (h.returned t' ht) (congrFun h.appended t') ?_
  rw [mine, h.batches]
  rfl

theorem claim_stood (ht : t' ≠ t) (hs : s.Stood t') (valid_len : Usize) : (s.claim t valid_len).Stood t' :=
  hs.congr rfl rfl (Function.update_of_ne ht _ _) rfl rfl (mine_claim_of_ne s ht valid_len)

/-- An append of writer `t` is called with `payloads`. -/
def given (s : Writers T) (t : T) (payloads : List Slice) : Writers T :=
  { s with appended := Function.update s.appended t (s.appended t ++ payloads) }

theorem given_nil (s : Writers T) (t : T) : s.given t [] = s := by
  simp only [given, List.append_nil, Function.update_eq_self]

/-- A call without a payload adds none. -/
theorem Called.silent (h : s.Called t s') : (s.given t []).Called t s' := by
  rw [given_nil]
  exact h

theorem Keeps.given (h : s.Keeps t w []) (payloads : List Slice) : (s.given t payloads).Keeps t w payloads where
  sound := h.sound
  order := by
    have happended : (s.given t payloads).appended t = s.appended t ++ payloads := Function.update_self ..
    have horder := h.order
    rw [List.append_nil] at horder
    rw [happended, horder]
    rfl
  pushed := h.pushed
  ranges := h.ranges
  slots := h.slots

/-- A call keeps the accounts, unless the counter wraps. -/
theorem Accounts.called {payloads : List Slice} (h : s.Accounts) (hstood : s'.Stood t)
    (hcalled : (s.given t payloads).Called t s') (hroomy : s.file_offset ≤ s'.file_offset) : s'.Accounts := by
  have hothers (t' : T) (ht : t' ≠ t) : (s.given t payloads).Stood t' :=
    (h.stood t').congr rfl rfl rfl rfl (Function.update_of_ne ht _ _) rfl
  cases hcalled with
  | stays hwithin =>
    refine ⟨fun t' => ?_, ?_, ?_⟩
    · by_cases ht : t' = t
      · rw [ht]
        exact hstood
      · exact hwithin.stood ht (hothers t' ht)
    · rw [hwithin.batches, hwithin.file_offset]
      exact h.tiles
    · rw [hwithin.batches]
      exact h.batch
  | @claims valid_len hpos hlen hbytes hwithin =>
    have hoffset : s'.file_offset = s.file_offset + valid_len := hwithin.file_offset
    rw [hoffset, BitVec.le_def] at hroomy
    refine ⟨fun t' => ?_, ?_, ?_⟩
    · by_cases ht : t' = t
      · rw [ht]
        exact hstood
      · exact hwithin.stood ht (claim_stood ht (hothers t' ht) valid_len)
    · rw [hwithin.batches, hoffset, add_toNat_of_le hroomy]
      change Tiles 0 ((s.batches ++ [_]).map Batch.extent) _
      rw [List.map_append, List.map_singleton]
      exact h.tiles.concat valid_len.toNat
    · rw [hwithin.batches]
      intro b hb
      obtain hb | hb := List.mem_append.mp hb
      · exact h.batch b hb
      · rw [List.mem_singleton.mp hb]
        exact ⟨hpos, hlen, hbytes⟩

/-- What the kernel does is in the accounts already. -/
theorem Accounts.served (h : s.Accounts) {ring : Queues WriteEntry} {serve : Serve}
    (hserve : (s.writer t).ring.serve order serve = some ring) (file : Nat → UInt8) (file_len : Nat) :
    ({ s with writer := Function.update s.writer t { s.writer t with ring }, file, file_len } :
      Writers T).Accounts := by
  refine ⟨fun t' => ?_, h.tiles, h.batch⟩
  by_cases ht : t' = t
  · subst t'
    obtain ⟨rest, hkeeps, hstands⟩ := h.stood t
    have hentries := Queues.outstanding_serve hserve
    refine ⟨rest, ?_, ?_⟩
    · dsimp only
      rw [Function.update_self]
      refine ⟨hkeeps.sound.serve hserve, hkeeps.order, ?_, ?_, fun e he => ?_⟩
      · rw [(Queues.serve_keeps hserve).2.1]
        exact hkeeps.pushed
      · exact ((hentries.map WriteEntry.range).append_left _).trans hkeeps.ranges
      · exact hkeeps.slots e (hentries.mem_iff.mp he)
    · dsimp only
      rw [Function.update_self]
      exact hstands.ring (Queues.serve_keeps hserve).1
  · exact (h.stood t').congr (Function.update_of_ne ht _ _) rfl rfl rfl rfl rfl

/-- The writer that begins a call. -/
def Action.caller : Action T → Option T
  | .append t _ _ => some t
  | .flush t _ => some t
  | .finish t _ => some t
  | _ => none

/-- What a step does: a writer that stands well makes a call or goes on with it, or the kernel starts or completes
an entry. -/
inductive Steps (s : Writers T) : Action T → Writers T → Prop where
  | calls {a : Action T} {t : T} {payloads : List Slice} {s' : Writers T} (hbegins : a.caller = some t)
      (hstood : s'.Stood t) (hcalled : (s.given t payloads).Called t s')
      (hgoes : s'.stage t ≠ .failed ∧ s'.reported t = s.reported t) : Steps s a s'
  | wakes {t : T} {ok : Bool} {s' : Writers T} (hstood : s'.Stood t) (hcalled : s.Called t s')
      (hfails : ok = false → s' = s.set t (s.writer t) .failed)
      (hgoes : ok = true → ∃ w, (s.writer t).reap_all = some w ∧ 0 < (s.writer t).ring.cq.length ∧ s.GoesOn t w s') :
      Steps s (.resume t ok) s'
  | starts {t : T} {i : Nat} {ring : Queues WriteEntry}
      (hserve : (s.writer t).ring.serve order (.start i) = some ring) :
      Steps s (.serve t (.start i)) { s with writer := Function.update s.writer t { s.writer t with ring } }
  | completes {t : T} {i : Nat} {result : Int} {p : Handed WriteEntry} {ring : Queues WriteEntry}
      (hp : (s.writer t).ring.log[i]? = some p) (hresult : result ≤ p.entry.len.toNat)
      (hserve : (s.writer t).ring.serve order (.complete i result) = some ring) :
      Steps s (.serve t (.complete i result))
        { s with
          writer := Function.update s.writer t { s.writer t with ring }
          file := fill s.file ((s.writer t).slots p.entry.buf).buf
            { start := p.entry.offset.toNat, len := result.toNat }
          file_len :=
            if 0 < result then max s.file_len (p.entry.offset.toNat + result.toNat) else s.file_len }

/-- Every action is a step of one writer or of the kernel. -/
theorem Accounts.steps (h : s.Accounts) (hfits : fits a = true) (hstep : s.step a = some s') : s.Steps a s' := by
  have hready (t : T) (hstage : (s.stage t).ready = true) :
      s.Keeps t (s.writer t) [] ∧ (s.writer t).Filled (s.filling t) := by
    obtain ⟨rest, hkeeps, hstands⟩ := h.stood t
    obtain ⟨rfl, hfilled⟩ := hstands.of_ready hstage
    exact ⟨hkeeps, hfilled⟩
  cases a with
  | append t payload submits =>
    unfold step at hstep
    dsimp only at hstep
    split at hstep
    next hstage =>
      obtain rfl := Option.some.inj hstep
      obtain ⟨hkeeps, hfilled⟩ := hready t hstage
      have hlen : payload.len ≤ BATCH_SIZE := of_decide_eq_true hfits
      obtain ⟨hstood, hcalled⟩ := append_called (hkeeps.given [payload]) hfilled hlen submits
      exact .calls rfl hstood hcalled (append_goes (s := s.given t [payload]) hkeeps.sound hfilled submits payload)
    next => cases hstep
  | flush t submits =>
    unfold step at hstep
    dsimp only at hstep
    split at hstep
    next hstage =>
      obtain rfl := Option.some.inj hstep
      obtain ⟨hkeeps, hfilled⟩ := hready t hstage
      obtain ⟨hstood, hcalled⟩ := flush_called hkeeps hfilled submits
      exact .calls rfl hstood hcalled.silent (flush_goes hkeeps.sound hfilled submits)
    next => cases hstep
  | finish t submits =>
    unfold step at hstep
    dsimp only at hstep
    split at hstep
    next hstage =>
      obtain rfl := Option.some.inj hstep
      obtain ⟨hkeeps, hfilled⟩ := hready t hstage
      obtain ⟨hstood, hcalled⟩ := finish_called hkeeps hfilled submits
      exact .calls rfl hstood hcalled.silent (finish_goes hkeeps.sound hfilled submits)
    next => cases hstep
  | resume t ok =>
    obtain ⟨hstood, hcalled⟩ := resume_called (h.stood t) hstep
    refine .wakes hstood hcalled (fun hok => ?_) fun hok => ?_
    · rw [hok] at hstep
      exact resume_fails hstep
    · rw [hok] at hstep
      exact resume_goes (h.stood t) hstep
  | serve t serve =>
    cases serve with
    | start i =>
      obtain ⟨ring, hserve, rfl⟩ := Option.map_eq_some_iff.mp hstep
      exact .starts hserve
    | complete i result =>
      simp only [step, Writers.serve] at hstep
      split at hstep
      next p hp =>
        split at hstep
        next hresult =>
          obtain ⟨ring, hserve, rfl⟩ := Option.map_eq_some_iff.mp hstep
          exact .completes hp hresult hserve
        next => cases hstep
      next => cases hstep

/-- Every step of a sane run keeps the accounts. -/
theorem Accounts.step (h : s.Accounts) (hfits : fits a = true) (hroomy : roomy s a) (hstep : s.step a = some s') :
    s'.Accounts := by
  have hgrows := hroomy s' hstep
  cases h.steps hfits hstep with
  | calls _ hstood hcalled _ => exact h.called hstood hcalled hgrows
  | wakes hstood hcalled _ _ => exact h.called hstood hcalled.silent hgrows
  | starts hserve => exact h.served hserve s.file s.file_len
  | completes hp hresult hserve => exact h.served hserve _ _

/-- The caller keeps its promise and the counter does not wrap. -/
def sane (s : Writers T) (a : Action T) : Prop := fits a = true ∧ roomy s a

instance (s : Writers T) (a : Action T) : Decidable (sane s a) :=
  decidable_of_iff (fits a = true ∧ (s.step a).all (fun s' => s.file_offset ≤ s'.file_offset) = true) <| by
    rw [sane, roomy, Option.all_eq_true]
    simp

/-- They hold in every state of a sane run. -/
theorem Accounts.reaches {ok : Writers T → Action T → Prop} (hok : ∀ s a, ok s a → sane s a)
    (h : Reaches Writers.step ok Writers.init s) : s.Accounts :=
  h.invariant (fun s a _ hs ha hstep => hs.step (hok s a ha).1 (hok s a ha).2 hstep) .init

/-- A writer that has finished has returned all its batches, and has left no byte behind. -/
theorem Accounts.finished (h : s.Accounts) (hstage : s.stage t = .finished) :
    (s.returned t).Perm ((s.mine t).map Batch.range) ∧
      s.appended t = (s.mine t).flatMap Batch.payloads ++ s.filling t ∧
      (s.filling t).flatMap Slice.toList = [] := by
  obtain ⟨rest, hkeeps, hstands⟩ := h.stood t
  rw [hstage] at hstands
  obtain ⟨hfilled, hcursor, hpending, hcompleted, rfl⟩ := hstands.of_finished
  have hranges := hkeeps.ranges
  rw [hcompleted, hkeeps.sound.outstanding_nil hpending, List.map_nil, List.append_nil, List.append_nil] at hranges
  have horder := hkeeps.order
  rw [List.append_nil] at horder
  have hempty := hfilled.holds
  rw [hcursor] at hempty
  exact ⟨hranges, horder, hempty.symm⟩

/-- The batches of a finished writer hold the bytes it was given. -/
theorem Accounts.bytes (h : s.Accounts) (hstage : s.stage t = .finished) :
    (s.mine t).flatMap Batch.bytes = (s.appended t).flatMap Slice.toList := by
  obtain ⟨_, horder, hempty⟩ := h.finished hstage
  rw [horder, List.flatMap_append, hempty, List.append_nil, List.flatMap_assoc]
  rfl

/-- As long as payloads fit a batch and the counter does not wrap, and whatever the kernel's results are, the
batches of all writers tile the file up to the shared counter, and when `finish` has returned to a writer it has
returned the range of each of its batches once; the bytes of these are the bytes of the payloads it was given, in
order. -/
theorem finish_returns_all (h : Reaches step sane init s) :
    Tiles 0 (s.batches.map Batch.extent) s.file_offset.toNat ∧
      (∀ b ∈ s.batches, 0 < b.len ∧ b.len ≤ BATCH_SIZE ∧ b.bytes.length = b.len.toNat) ∧
      ∀ t, s.stage t = .finished →
        (s.returned t).Perm ((s.mine t).map Batch.range) ∧
        (s.mine t).flatMap Batch.bytes = (s.appended t).flatMap Slice.toList := by
  have haccounts : s.Accounts := Accounts.reaches (fun _ _ => id) h
  exact ⟨haccounts.tiles, haccounts.batch, fun t hstage => ⟨(haccounts.finished hstage).1, haccounts.bytes hstage⟩⟩

/-- Two writers: one outgrows its first slot, its writes fail and come short, and it finishes before the other has
claimed anything. -/
def finishesOnce : List (Action Bool) :=
  let payload (len : Usize) : Slice := { len, byte := fun _ => 7 }
  [.append false (payload 1048575) true, .append true (payload 3) true, .append false (payload 2) true,
    .finish false true, .serve false (.start 0), .serve false (.start 1), .serve false (.complete 1 1),
    .serve false (.complete 0 (-5)), .resume false true, .finish true true]

theorem finish_returns_all_finishesOnce :
    ∃ s : Writers Bool, Reaches step sane init s ∧ s.stage false = .finished ∧ (s.appended false).length = 2 ∧
      (s.returned false).length = 2 ∧ (s.returned false).Perm ((s.mine false).map Batch.range) := by
  have hrun : (exec step sane finishesOnce init).any (fun s => decide ((s.stage false).ended = true ∧
      (s.appended false).length = 2 ∧ (s.returned false).length = 2)) = true := by
    decide +kernel
  obtain ⟨s, hreach, hcheck⟩ := exists_of_exec hrun
  obtain ⟨hended, happended, hreturned⟩ := of_decide_eq_true hcheck
  have hstage := ended_iff.mp hended
  exact ⟨s, hreach, hstage, happended, hreturned, ((finish_returns_all hreach).2.2 false hstage).1⟩

end Steps

end Writers

end FlushRing
