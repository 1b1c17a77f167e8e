import FlushRing.Writer.Accounts

open Extents Submission Transition

namespace FlushRing

variable {T : Type} [DecidableEq T]

namespace RingWriter
variable {w w' : RingWriter}

/-- With nothing outstanding, every slot is open. -/
theorem Sound.opened (h : w.Sound) (hnone : w.ring.outstanding = []) (b : Fin RING_LEN) :
    (w.slots b).state = .Open := by
  cases hstate : (w.slots b).state with
  | Open => rfl
  | InFlight =>
    obtain ⟨e, he, _⟩ := (h.flying b).mp hstate
    rw [hnone] at he
    cases he

/-- Reading the completion queue takes as many writes off those pending. -/
theorem Sound.reap_pending (h : w.Sound) (hreap : w.reap_all = some w') :
    w'.Sound ∧ w'.pending.toNat + w.ring.cq.length = w.pending.toNat ∧
      w'.ring.outstanding = w.ring.unserved := by
  obtain ⟨w'', hreap', hsound, _, _, _, hring, _⟩ := h.reap_all
  obtain rfl := Option.some.inj (hreap'.symm.trans hreap)
  have hdrained : w''.ring.outstanding = w.ring.unserved := by
    rw [hring]
    exact List.append_nil _
  have hpending := h.pending
  have hpending' := hsound.pending
  rw [hdrained] at hpending'
  rw [Queues.outstanding, List.length_append, List.length_map] at hpending
  exact ⟨hsound, by omega, hdrained⟩

end RingWriter

namespace Writers

/-- No `submit_and_wait` returns an error. -/
def Action.waits_well : Action T → Bool
  | .resume _ ok => ok
  | _ => true

/-- A wake-up of writer `t`. -/
def wakes (t : T) (_ : Writers T) : Action T → Bool
  | .resume t' ok => t' = t && ok
  | _ => false

section Calls
variable {s s' : Writers T} {t t' : T} {a : Action T}

/-- What the other writers have done to one. -/
theorem Called.others {payloads : List Slice} (hcalled : (s.given t payloads).Called t s') (ht : t' ≠ t) :
    s'.stage t' = s.stage t' ∧ s'.reported t' = s.reported t' := by
  have hsame {m : Writers T} (hstage : m.stage t' = s.stage t') (hreported : m.reported t' = s.reported t')
      (hwithin : m.Within t (s.writer t) s') : s'.stage t' = s.stage t' ∧ s'.reported t' = s.reported t' := by
    refine ⟨(hwithin.stage t' ht).trans hstage, ?_⟩
    rw [← hreported, Writers.reported, Writers.reported, hwithin.writer t' ht, hwithin.returned t' ht]
  cases hcalled with
  | stays hwithin => exact hsame (m := s.given t payloads) rfl rfl hwithin
  | claims _ _ _ hwithin => exact hsame (m := (s.given t payloads).claim t _) rfl rfl hwithin

/-- The kernel reports nothing by itself. -/
theorem reported_ring (s : Writers T) (t : T) (ring : Queues WriteEntry) (file : Nat → UInt8) (file_len : Nat)
    (t' : T) :
    ({ s with writer := Function.update s.writer t { s.writer t with ring }, file, file_len } :
      Writers T).reported t' = s.reported t' := by
  rw [Writers.reported, Writers.reported]
  dsimp only
  by_cases ht : t' = t
  · rw [ht, Function.update_self]
  · rw [Function.update_of_ne ht]

/-- A step takes back no report, and every wake-up of a writer adds one; without an error no writer fails. -/
theorem Accounts.progress (h : s.Accounts) (hfits : fits a = true) (hstep : s.step a = some s') (t : T) :
    (a.waits_well = true → s.stage t ≠ .failed → s'.stage t ≠ .failed) ∧
      (s.reported t).length + (if wakes t s a then 1 else 0) ≤ (s'.reported t).length := by
  cases h.steps hfits hstep with
  | @calls _ t' _ _ hbegins hstood hcalled hgoes =>
    have hsleeps : wakes t s a = false := by
      cases a with
      | resume => cases hbegins
      | serve => cases hbegins
      | _ => rfl
    rw [hsleeps]
    by_cases ht : t = t'
    · rw [ht, hgoes.2]
      exact ⟨fun _ _ => hgoes.1, Nat.le_refl _⟩
    · obtain ⟨hstage, hreported⟩ := hcalled.others ht
      rw [hstage, hreported]
      exact ⟨fun _ => id, Nat.le_refl _⟩
  | @wakes t' ok _ hstood hcalled hfails hgoes =>
    by_cases ht : t = t'
    · subst t'
      cases ok with
      | false =>
        refine ⟨(fun hok => by cases hok), ?_⟩
        have hsame : (s.set t (s.writer t) .failed).reported t = s.reported t := by
          change s.returned t ++ ((s.set t (s.writer t) .failed).writer t).completed = _
          rw [set_writer]
          rfl
        rw [hfails rfl, hsame, Writers.wakes, Bool.and_false]
        exact Nat.le_refl _
      | true =>
        obtain ⟨w, hreap, hunread, hgo⟩ := hgoes rfl
        obtain ⟨rest, hkeeps, _⟩ := h.stood t
        obtain ⟨w', hreap', _, hcompleted, _⟩ := hkeeps.sound.reap_all
        obtain rfl := Option.some.inj (hreap'.symm.trans hreap)
        refine ⟨fun _ _ => hgo.stage, ?_⟩
        rw [hgo.reported, hcompleted, Writers.reported]
        simp only [wakes, List.length_append, List.length_map, decide_true, Bool.and_true, if_true]
        omega
    · obtain ⟨hstage, hreported⟩ := hcalled.silent.others ht
      have hsleeps : wakes t s (.resume t' ok) = false := by
        simp [wakes, Ne.symm ht]
      rw [hstage, hreported, hsleeps]
      exact ⟨fun _ => id, Nat.le_refl _⟩
  | starts hserve =>
    refine ⟨fun _ => id, Nat.le_of_eq ?_⟩
    exact congrArg List.length (reported_ring s _ _ s.file s.file_len t).symm
  | completes hp hresult hserve =>
    refine ⟨fun _ => id, Nat.le_of_eq ?_⟩
    exact congrArg List.length (reported_ring s _ _ _ _ t).symm

/-- All that a writer has claimed is reported or pending. -/
theorem Accounts.reported_pending (h : s.Accounts) (t : T) :
    (s.reported t).length + (s.writer t).pending.toNat = (s.mine t).length := by
  obtain ⟨rest, hkeeps, _⟩ := h.stood t
  have hranges := hkeeps.ranges.length_eq
  rw [List.length_append, List.length_map, List.length_map] at hranges
  rw [hkeeps.sound.pending]
  exact hranges

/-- In no sane run does a writer wait more often than it has sealed slots, less those whose writes are pending. -/
theorem waits_le_batches {actions : List (Action T)} (hrun : exec step sane actions init = some s) (t : T) :
    occurrences step (wakes t) actions init + (s.writer t).pending.toNat ≤ (s.mine t).length := by
  have hstep (s : Writers T) (a : Action T) (s' : Writers T) (hs : s.Accounts) (hsane : sane s a)
      (hstep : step s a = some s') :
      s'.Accounts ∧ 0 + (if wakes t s a then 1 else 0) + (s.reported t).length ≤ 0 + (s'.reported t).length := by
    have hgain := (hs.progress hsane.1 hstep t).2
    refine ⟨hs.step hsane.1 hsane.2 hstep, ?_⟩
    omega
  have hcount : 0 + occurrences step (wakes t) actions init + ((init : Writers T).reported t).length ≤
      0 + (s.reported t).length := occurrences_le_gain hstep .init hrun
  have haccounts : s.Accounts := Accounts.reaches (fun _ _ => id) (exec_reaches hrun)
  have hreported := haccounts.reported_pending t
  omega

/-- A call that waits comes to an end at its next wake-up once the kernel has completed the writer's entries,
whatever their results. -/
theorem Accounts.returns (h : s.Accounts) (hbusy : (s.stage t).ready = false) (hfailed : s.stage t ≠ .failed)
    (hserved : (s.writer t).ring.unserved = []) :
    ∃ s', s.step (.resume t true) = some s' ∧ (s'.stage t).ready = true := by
  obtain ⟨rest, hkeeps, hstands⟩ := h.stood t
  have hcq : (s.writer t).ring.cq.length = (s.writer t).pending.toNat := by
    rw [hkeeps.sound.pending, Queues.outstanding, hserved, List.nil_append, List.length_map]
  have hresumes : ∃ s', s.step (.resume t true) = some s' := by
    obtain ⟨w, hreap, _⟩ := hkeeps.sound.reap_all
    change ∃ s', s.resume t true = some s'
    unfold Writers.resume
    generalize s.stage t = stage at hstands hbusy hfailed
    generalize s.filling t = filling at hstands
    dsimp only
    cases hstands with
    | idle => cases hbusy
    | finished => cases hbusy
    | failed => exact absurd rfl hfailed
    | waits _ _ _ hnext =>
      obtain ⟨e, he, _⟩ := (hkeeps.sound.flying _).mp hnext
      have hunread : (s.writer t).ring.cq.isEmpty = false := by
        rw [Queues.outstanding, hserved, List.nil_append] at he
        rw [List.isEmpty_eq_false_iff]
        intro hnil
        rw [hnil] at he
        cases he
      dsimp only
      rw [if_pos rfl, hunread, if_neg Bool.false_ne_true, hreap]
      exact ⟨_, rfl⟩
    | drains =>
      dsimp only
      rw [if_pos rfl, if_pos (Nat.le_of_eq hcq.symm), hreap]
      exact ⟨_, rfl⟩
  obtain ⟨s', hstep⟩ := hresumes
  obtain ⟨w, hreap, _, hgo⟩ := resume_goes (h.stood t) hstep
  obtain ⟨hsound, hpending, houtstanding⟩ := hkeeps.sound.reap_pending hreap
  refine ⟨s', hstep, hgo.ready (hsound.opened (houtstanding.trans hserved)) (BitVec.eq_of_toNat_eq ?_)⟩
  change w.pending.toNat = 0
  omega

end Calls

/-- An action of another writer or of the kernel. -/
def others (t : T) (a : Action T) : Prop := a.caller ≠ some t ∧ ∀ ok, a ≠ .resume t ok

/-- A step of the kernel on the entries of writer `t`, with the results it is to report. -/
def serves (t : T) (result : Nat → Int) (a : Action T) : Prop :=
  ∃ i, a = .serve t (.start i) ∨ a = .serve t (.complete i (result i))

section Returns
variable {s : Writers T}

theorem Accounts.sane_serve (h : s.Accounts) (t : T) (serve : Serve) : sane s (.serve t serve) := by
  refine ⟨rfl, fun s' hstep => ?_⟩
  cases h.steps rfl hstep with
  | calls hbegins => cases hbegins
  | starts => exact BitVec.le_refl _
  | completes => exact BitVec.le_refl _

/-- The kernel can complete all entries a writer has handed over, with any results. -/
theorem Accounts.completes_all (h : s.Accounts) {t : T} {result : Nat → Int}
    (hresult : ∀ i e, (s.writer t).ring.pushed[i]? = some e → result i ≤ e.len.toNat) :
    ∃ s', Reaches Writers.step (fun s a => sane s a ∧ serves t result a) s s' ∧
      (s'.writer t).ring.idle = true ∧ (s'.writer t).ring.sq = (s.writer t).ring.sq := by
  obtain ⟨q, hreach, hidle⟩ := Queues.serves_all order result (s.writer t).ring
  obtain ⟨hsq, _, _⟩ := Queues.reaches_keeps hreach
  let Runs (q : Queues WriteEntry) (m : Writers T) : Prop :=
    (m.writer t).ring = q ∧ q.pushed = (s.writer t).ring.pushed ∧ m.Accounts
  have hstep (q : Queues WriteEntry) (a : Serve) (q' : Queues WriteEntry) (m : Writers T) (hm : Runs q m)
      (hok : ∃ i, a = .start i ∨ a = .complete i (result i)) (hserve : q.serve order a = some q') :
      ∃ a' m', (sane m a' ∧ serves t result a') ∧ m.step a' = some m' ∧ Runs q' m' := by
    obtain ⟨rfl, hpushed, haccounts⟩ := hm
    have hsane := haccounts.sane_serve t a
    have hpushed' := (Queues.serve_keeps hserve).2.1.trans hpushed
    obtain ⟨i, rfl | rfl⟩ := hok
    · have hnext : Writers.step m (.serve t (.start i)) =
          some { m with writer := Function.update m.writer t { m.writer t with ring := q' } } := by
        simp only [Writers.step, Writers.serve, hserve, Option.map_some]
      refine ⟨_, _, ⟨hsane, i, .inl rfl⟩, hnext, ?_, hpushed', haccounts.step hsane.1 hsane.2 hnext⟩
      dsimp only
      rw [Function.update_self]
    · obtain ⟨p, hp, _, _⟩ := Queues.serve_complete hserve
      have hat : (s.writer t).ring.pushed[i]? = some p.entry := by
        rw [← hpushed]
        exact Queues.pushed_getElem? hp
      have hle := hresult i p.entry hat
      let range : Extent := { start := p.entry.offset.toNat, len := (result i).toNat }
      have hnext : Writers.step m (.serve t (.complete i (result i))) = some
          { m with
            writer := Function.update m.writer t { m.writer t with ring := q' }
            file := fill m.file ((m.writer t).slots p.entry.buf).buf range
            file_len := if 0 < result i then max m.file_len range.stop else m.file_len } := by
        simp only [Writers.step, Writers.serve, hp, hle, hserve, if_true, Option.map_some, range]
      refine ⟨_, _, ⟨hsane, i, .inr rfl⟩, hnext, ?_, hpushed', haccounts.step hsane.1 hsane.2 hnext⟩
      dsimp only
      rw [Function.update_self]
  obtain ⟨s', hreach', hring, _⟩ := hreach.simulate hstep ⟨rfl, rfl, h⟩
  refine ⟨s', hreach', ?_, ?_⟩
  · rw [hring]
    exact hidle
  · rw [hring]
    exact hsq

/-- A call of one writer stays where it is while others act. -/
theorem Accounts.waits (h : s.Accounts) {s' : Writers T} {t : T}
    (hreach : Reaches Writers.step (fun s a => sane s a ∧ others t a) s s') : s'.Accounts ∧ s'.stage t = s.stage t := by
  refine hreach.invariant (P := fun r => r.Accounts ∧ r.stage t = s.stage t) (fun r a r' hr hok hstep => ?_) ⟨h, rfl⟩
  obtain ⟨⟨hfits, hroomy⟩, hcaller, hresumes⟩ := hok
  refine ⟨hr.1.step hfits hroomy hstep, Eq.trans ?_ hr.2⟩
  cases hr.1.steps hfits hstep with
  | calls hbegins _ hcalled =>
    refine (hcalled.others fun ht => hcaller ?_).1
    rw [ht]
    exact hbegins
  | @wakes t' ok _ _ hcalled =>
    refine (hcalled.silent.others fun ht => hresumes ok ?_).1
    rw [ht]
  | starts => rfl
  | completes => rfl

/-- No call fails as long as no wait does. -/
theorem not_failed (h : Reaches step (fun s a => sane s a ∧ a.waits_well = true) init s) (t : T) :
    s.Accounts ∧ s.stage t ≠ .failed := by
  refine h.invariant (P := fun s => s.Accounts ∧ s.stage t ≠ .failed) (fun s a s' hs hok hstep => ?_)
    ⟨.init, fun hfailed => by cases hfailed⟩
  obtain ⟨⟨hfits, hroomy⟩, hwell⟩ := hok
  exact ⟨hs.1.step hfits hroomy hstep, (hs.1.progress hfits hstep t).1 hwell hs.2⟩

/-- In a sane run, as long as no `submit_and_wait` returns an error, no call fails or panics, and none is stuck:
whatever the others do, a call that waits comes to an end at its next wake-up once the kernel has completed the
writer's entries, and the kernel can complete them, with any results. -/
theorem calls_return (h : Reaches step (fun s a => sane s a ∧ a.waits_well = true) init s) {t : T}
    (result : Nat → Int) (hresult : ∀ i e, (s.writer t).ring.pushed[i]? = some e → result i ≤ e.len.toNat) :
    s.stage t ≠ .failed ∧ ((s.stage t).ready = false →
      (∃ s' s'', Reaches step (fun _ a => serves t result a) s s' ∧
        s'.step (.resume t true) = some s'' ∧ (s''.stage t).ready = true) ∧
      ∀ s', Reaches step (fun s a => sane s a ∧ others t a) s s' → (s'.writer t).ring.unserved = [] →
        ∃ s'', s'.step (.resume t true) = some s'' ∧ (s''.stage t).ready = true) := by
  obtain ⟨haccounts, hfailed⟩ := not_failed h t
  refine ⟨hfailed, fun hbusy => ?_⟩
  have hreturns (s' : Writers T) (hreach : Reaches step (fun s a => sane s a ∧ others t a) s s')
      (hserved : (s'.writer t).ring.unserved = []) :
      ∃ s'', s'.step (.resume t true) = some s'' ∧ (s''.stage t).ready = true := by
    obtain ⟨haccounts', hstage⟩ := haccounts.waits hreach
    rw [← hstage] at hbusy hfailed
    exact haccounts'.returns hbusy hfailed hserved
  refine ⟨?_, hreturns⟩
  obtain ⟨s', hreach, hidle, hsq⟩ := haccounts.completes_all hresult
  obtain ⟨rest, _, hstands⟩ := haccounts.stood t
  have hserved := Queues.unserved_of_idle (hsq.trans (hstands.sq_nil hbusy hfailed)) hidle
  have hothers {a : Action T} (hserves : serves t result a) : others t a := by
    obtain ⟨i, rfl | rfl⟩ := hserves
    · exact ⟨nofun, fun _ => nofun⟩
    · exact ⟨nofun, fun _ => nofun⟩
  obtain ⟨s'', hstep, hready⟩ := hreturns s' (hreach.mono fun s a ha => ⟨ha.1, hothers ha.2⟩) hserved
  exact ⟨s', s'', hreach.mono fun _ _ ha => ha.2, hstep, hready⟩

/-- One writer fills all its slots, while another one appends. -/
def fillsRing : List (Action Bool) :=
  let payload (len : Usize) : Slice := { len, byte := fun _ => 7 }
  [.append false (payload 1048576) true, .append false (payload 1048576) true, .append true (payload 3) true,
    .append false (payload 1048576) true, .append false (payload 1048576) true, .append false (payload 1) true]

theorem calls_return_fillsRing :
    ∃ s : Writers Bool, Reaches step (fun s a => sane s a ∧ a.waits_well = true) init s ∧
      (s.stage false).ready = false ∧ (s.writer false).ring.pushed.length = 4 ∧
      ∃ s' s'', Reaches step (fun _ a => serves false (fun _ => 1048576) a) s s' ∧
        s'.step (.resume false true) = some s'' ∧ (s''.stage false).ready = true := by
  have hrun : (exec step (fun s a => sane s a ∧ a.waits_well = true) fillsRing init).any (fun s => decide
      ((s.stage false).ready = false ∧ (s.writer false).ring.pushed.length = 4 ∧
        ∀ e ∈ (s.writer false).ring.pushed, (1048576 : Int) ≤ e.len.toNat)) = true := by
    decide +kernel
  obtain ⟨s, hreach, hcheck⟩ := exists_of_exec hrun
  obtain ⟨hbusy, hpushed, hlen⟩ := of_decide_eq_true hcheck
  have hreturns := calls_return hreach (fun _ => 1048576) fun i e he => hlen e (List.mem_of_getElem? he)
  exact ⟨s, hreach, hbusy, hpushed, (hreturns.2 hbusy).1⟩

/-- It goes on once one of its writes has completed. -/
def goesOn : List (Action Bool) :=
  fillsRing ++ [.serve false (.start 0), .serve false (.complete 0 1048576), .resume false true]

theorem waits_le_batches_goesOn :
    ∃ s : Writers Bool, exec step sane goesOn init = some s ∧ occurrences step (wakes false) goesOn init = 1 ∧
      1 + (s.writer false).pending.toNat ≤ (s.mine false).length := by
  have hrun : (exec step sane goesOn init).isSome = true := by decide +kernel
  obtain ⟨s, hexec⟩ := Option.isSome_iff_exists.mp hrun
  have hwakes : occurrences step (wakes false) goesOn init = 1 := by decide +kernel
  have hle := waits_le_batches hexec false
  rw [hwakes] at hle
  exact ⟨s, hexec, hwakes, hle⟩

end Returns

end Writers

end FlushRing
