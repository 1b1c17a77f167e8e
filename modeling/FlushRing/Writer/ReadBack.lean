import FlushRing.Writer.Accounts

open Extents Submission Transition

namespace FlushRing

variable {T : Type} [DecidableEq T]

namespace Writers

/-- The kernel has written all the bytes of an entry. -/
def full (p : Handed WriteEntry) : Prop := p.progress = .done p.entry.len.toNat

instance : DecidablePred full := fun p => inferInstanceAs (Decidable (p.progress = .done p.entry.len.toNat))

/-- The batches whose writes were full are in the file, and the file ends before what is not claimed. -/
structure Stored (s : Writers T) : Prop where
  stored : ∀ t (i : Nat) p b, (s.writer t).ring.log[i]? = some p → full p → (s.mine t)[i]? = some b →
    load s.file b.extent = b.bytes ∧ b.extent.stop ≤ s.file_len
  file_len : s.file_len ≤ s.file_offset.toNat

section Batches
variable {s s' : Writers T} {t : T} {a : Action T} {b d : Batch T}

theorem mem_batches (hb : b ∈ s.mine t) : b ∈ s.batches ∧ b.writer = t := by
  obtain ⟨hmem, hwriter⟩ := List.mem_filter.mp hb
  exact ⟨hmem, of_decide_eq_true hwriter⟩

/-- Different batches write apart from each other. -/
theorem Accounts.apart (h : s.Accounts) (hb : b ∈ s.batches) (hd : d ∈ s.batches) (hne : b ≠ d) :
    b.extent.Apart d.extent := by
  have hpairwise := h.tiles.pairwise
  rw [List.pairwise_map] at hpairwise
  have hsymm : Std.Symm fun b d : Batch T => b.extent.Apart d.extent := ⟨fun _ _ hapart => hapart.symm⟩
  exact hpairwise.forall hb hd hne

/-- And so do the batches of one writer at different places. -/
theorem Accounts.apart_mine (h : s.Accounts) {i j : Nat} (hb : (s.mine t)[i]? = some b)
    (hd : (s.mine t)[j]? = some d) (hne : i ≠ j) : b.extent.Apart d.extent := by
  have hpairwise := h.tiles.pairwise
  rw [List.pairwise_map] at hpairwise
  have hmine : (s.mine t).Pairwise fun b d => b.extent.Apart d.extent := hpairwise.sublist List.filter_sublist
  rw [List.pairwise_iff_getElem] at hmine
  obtain ⟨hi, rfl⟩ := List.getElem?_eq_some_iff.mp hb
  obtain ⟨hj, rfl⟩ := List.getElem?_eq_some_iff.mp hd
  obtain hlt | hlt := Nat.lt_or_gt_of_ne hne
  · exact hmine i j hi hj hlt
  · exact (hmine j i hj hi hlt).symm

/-- Batches that start at one place are the same. -/
theorem Accounts.eq_of_offset (h : s.Accounts) (hb : b ∈ s.batches) (hd : d ∈ s.batches)
    (hoffset : b.offset = d.offset) : b = d := by
  by_contra hne
  have hapart := h.apart hb hd hne
  have hpos := (h.batch b hb).1
  have hpos' := (h.batch d hd).1
  rw [BitVec.lt_def] at hpos hpos'
  have hzero : (0#64).toNat = 0 := rfl
  refine hapart.not_mem (i := 0) hpos ?_
  simp only [Extent.stop, Batch.extent, hoffset]
  omega

/-- The entry at a place of the log is that of the batch at this place. -/
theorem Accounts.entry_range (h : s.Accounts) {i : Nat} {p : Handed WriteEntry}
    (hp : (s.writer t).ring.log[i]? = some p) : ∃ b, (s.mine t)[i]? = some b ∧ p.entry.range = b.range := by
  obtain ⟨rest, hkeeps, _⟩ := h.stood t
  have hat : ((s.writer t).ring.pushed.map WriteEntry.range)[i]? = some p.entry.range := by
    rw [List.getElem?_map, Queues.pushed_getElem? hp]
    rfl
  rw [hkeeps.pushed, List.getElem?_map] at hat
  obtain ⟨b, hb, hrange⟩ := Option.map_eq_some_iff.mp hat
  exact ⟨b, hb, hrange.symm⟩

/-- The buffer of an entry the kernel has started holds the bytes of its batch. -/
theorem Accounts.entry_bytes (h : s.Accounts) {i : Nat} {p : Handed WriteEntry}
    (hp : (s.writer t).ring.log[i]? = some p) (hunserved : p.entry ∈ (s.writer t).ring.unserved)
    (hb : (s.mine t)[i]? = some b) :
    load ((s.writer t).slots p.entry.buf).buf { start := 0, len := b.len.toNat } = b.bytes := by
  obtain ⟨rest, hkeeps, _⟩ := h.stood t
  obtain ⟨d, hd, hrange, hbytes⟩ := hkeeps.slots p.entry (List.mem_append_left _ hunserved)
  obtain ⟨b', hb', hrange'⟩ := h.entry_range hp
  obtain rfl := Option.some.inj (hb'.symm.trans hb)
  have hoffset : b'.offset = d.offset := congrArg CompletedRange.disk_offset (hrange'.symm.trans hrange.symm)
  obtain rfl := h.eq_of_offset (mem_batches (List.mem_of_getElem? hb')).1 (mem_batches hd).1 hoffset
  exact hbytes

/-- A call leaves the file and what was claimed before as they are. -/
theorem Called.leaves {payloads : List Slice} (hcalled : (s.given t payloads).Called t s') :
    s'.file = s.file ∧ s'.file_len = s.file_len ∧
      ∀ t', (s.writer t').ring.HandsOver (s'.writer t').ring ∧ s.mine t' <+: s'.mine t' := by
  have hlog {m : Writers T} (hwriter : m.writer = s.writer) (hwithin : m.Within t (s.writer t) s') (t' : T) :
      (s.writer t').ring.HandsOver (s'.writer t').ring := by
    by_cases ht : t' = t
    · rw [ht]
      exact hwithin.log
    · rw [hwithin.writer t' ht, hwriter]
      exact Queues.handsOver_of_log rfl
  cases hcalled with
  | stays hwithin =>
    refine ⟨hwithin.file, hwithin.file_len, fun t' => ⟨hlog (m := s.given t payloads) rfl hwithin t', ?_⟩⟩
    rw [mine, mine, hwithin.batches]
    exact List.prefix_rfl
  | claims _ _ _ hwithin =>
    refine ⟨hwithin.file, hwithin.file_len, fun t' => ⟨hlog (m := (s.given t payloads).claim t _) rfl hwithin t', ?_⟩⟩
    rw [mine, mine, hwithin.batches]
    exact (List.prefix_append _ _).filter _

/-- Whatever a writer calls, the full writes stay in the file. -/
theorem Stored.called {payloads : List Slice} (h : s.Stored) (hs : s.Accounts)
    (hcalled : (s.given t payloads).Called t s') (hroomy : s.file_offset ≤ s'.file_offset) : s'.Stored := by
  obtain ⟨hfile, hfile_len, hleaves⟩ := hcalled.leaves
  rw [BitVec.le_def] at hroomy
  refine ⟨fun t' i p b hp hfull hb => ?_, ?_⟩
  · obtain ⟨hlog, tail, hmine⟩ := hleaves t'
    obtain hp | hwaiting := hlog i p hp
    · obtain ⟨d, hd, _⟩ := hs.entry_range hp
      have hlt := (List.getElem?_eq_some_iff.mp hd).1
      rw [← hmine, List.getElem?_append_left hlt] at hb
      rw [hfile, hfile_len]
      exact h.stored t' i p b hp hfull hb
    · rw [full, hwaiting] at hfull
      cases hfull
  · rw [hfile_len]
    exact h.file_len.trans hroomy

/-- The full writes stay when the kernel starts an entry. -/
theorem Stored.started (h : s.Stored) {i : Nat} {ring : Queues WriteEntry}
    (hserve : (s.writer t).ring.serve order (.start i) = some ring) :
    Stored { s with writer := Function.update s.writer t { s.writer t with ring } } := by
  obtain ⟨p, hp, _, _, hring⟩ := Queues.serve_start hserve
  refine ⟨fun t' j p' b hp' hfull hb => h.stored t' j p' b ?_ hfull hb, h.file_len⟩
  dsimp only at hp'
  by_cases ht : t' = t
  · subst t'
    rw [Function.update_self, hring] at hp'
    dsimp only at hp'
    by_cases hj : i = j
    · subst j
      rw [List.getElem?_set_self (List.getElem?_eq_some_iff.mp hp).1] at hp'
      obtain rfl := Option.some.inj hp'
      cases hfull
    · rwa [List.getElem?_set_ne hj] at hp'
  · rwa [Function.update_of_ne ht] at hp'

/-- The kernel writes part of the entry's batch, and nothing of another one. -/
theorem Stored.completed (h : s.Stored) (hs : s.Accounts) {i : Nat} {result : Int} {p : Handed WriteEntry}
    {ring : Queues WriteEntry} (hp : (s.writer t).ring.log[i]? = some p) (hresult : result ≤ p.entry.len.toNat)
    (hserve : (s.writer t).ring.serve order (.complete i result) = some ring) :
    Stored
      { s with
        writer := Function.update s.writer t { s.writer t with ring }
        file := fill s.file ((s.writer t).slots p.entry.buf).buf
          { start := p.entry.offset.toNat, len := result.toNat }
        file_len :=
          if 0 < result then max s.file_len (p.entry.offset.toNat + result.toNat) else s.file_len } := by
  obtain ⟨d, hd, hrange⟩ := hs.entry_range hp
  obtain ⟨p', hp', hunserved, _⟩ := Queues.unserved_complete hserve
  obtain rfl := Option.some.inj (hp.symm.trans hp')
  obtain ⟨p', hp', _, hring⟩ := Queues.serve_complete hserve
  obtain rfl := Option.some.inj (hp.symm.trans hp')
  have hlog (j : Nat) (hj : j ≠ i) : ring.log[j]? = (s.writer t).ring.log[j]? := by
    rw [hring]
    exact List.getElem?_set_ne hj.symm
  have hself : ring.log[i]? = some { p with progress := .done result } := by
    rw [hring]
    exact List.getElem?_set_self (List.getElem?_eq_some_iff.mp hp).1
  obtain ⟨hmem', hwriter'⟩ := mem_batches (List.mem_of_getElem? hd)
  have hbytes := hs.entry_bytes hp (hunserved.mem_iff.mp List.mem_cons_self) hd
  have hoffset : p.entry.offset = d.offset := congrArg CompletedRange.disk_offset hrange
  have hlen : p.entry.len.toNat = d.len.toNat := by
    have hsealed : (p.entry.len.setWidth 64).toNat = d.len.toNat :=
      congrArg (fun r => r.sealed_len.toNat) hrange
    rw [← hsealed, BitVec.toNat_setWidth, Nat.mod_eq_of_lt (p.entry.len.isLt.trans (by decide))]
  let written : Extent := { start := p.entry.offset.toNat, len := result.toNat }
  have hstart : d.extent.start = written.start := congrArg BitVec.toNat hoffset.symm
  have hstop : written.stop ≤ d.extent.stop := by
    simp only [Extent.stop, Batch.extent, written, hoffset]
    omega
  have hgrows : s.file_len ≤ (if 0 < result then max s.file_len written.stop else s.file_len) := by
    split
    next => exact Nat.le_max_left _ _
    next => exact Nat.le_refl _
  have hothers {b : Batch T} (hapart : b.extent.Apart d.extent)
      (hstored : load s.file b.extent = b.bytes ∧ b.extent.stop ≤ s.file_len) :
      load (fill s.file ((s.writer t).slots p.entry.buf).buf written) b.extent = b.bytes ∧
        b.extent.stop ≤ (if 0 < result then max s.file_len written.stop else s.file_len) := by
    have hwritten : b.extent.Apart written := (hapart.symm.mono (Nat.le_of_eq hstart) hstop).symm
    rw [load_fill_apart _ _ hwritten]
    exact ⟨hstored.1, hstored.2.trans hgrows⟩
  refine ⟨fun t' j p' b hp' hfull hb => ?_, ?_⟩
  · change (s.mine t')[j]? = some b at hb
    dsimp only at hp' ⊢
    by_cases ht : t' = t
    · subst t'
      rw [Function.update_self] at hp'
      dsimp only at hp'
      by_cases hj : j = i
      · subst j
        obtain rfl := Option.some.inj (hself.symm.trans hp')
        obtain rfl := Option.some.inj (hd.symm.trans hb)
        have hall : result = p.entry.len.toNat := Progress.done.inj hfull
        have hwritten : written = d.extent := by
          refine Extent.ext hstart.symm ?_
          change result.toNat = d.len.toNat
          omega
        have hpos := (hs.batch d hmem').1
        rw [BitVec.lt_def] at hpos
        rw [if_pos (by omega)]
        change load (fill s.file ((s.writer t).slots p.entry.buf).buf written) d.extent = _ ∧ d.extent.stop ≤
          max s.file_len written.stop
        rw [hwritten, load_fill_self, ← hbytes, load]
        simp only [Nat.zero_add]
        exact ⟨rfl, Nat.le_max_right _ _⟩
      · rw [hlog j hj] at hp'
        exact hothers (hs.apart_mine hb hd hj) (h.stored t j p' b hp' hfull hb)
    · rw [Function.update_of_ne ht] at hp'
      obtain ⟨hmem, hwriter⟩ := mem_batches (List.mem_of_getElem? hb)
      have hne : b ≠ d := by
        rintro rfl
        exact ht (hwriter.symm.trans hwriter')
      exact hothers (hs.apart hmem hmem' hne) (h.stored t' j p' b hp' hfull hb)
  · have hclaimed : written.stop ≤ s.file_offset.toNat :=
      hstop.trans (hs.tiles.bounds (List.mem_map_of_mem hmem')).2
    change (if 0 < result then max s.file_len written.stop else s.file_len) ≤ s.file_offset.toNat
    split
    next => exact Nat.max_le.mpr ⟨h.file_len, hclaimed⟩
    next => exact h.file_len

/-- What is stored stays stored. -/
theorem Stored.step (h : s.Stored) (hs : s.Accounts) (hfits : fits a = true) (hroomy : roomy s a)
    (hstep : s.step a = some s') : s'.Stored := by
  have hgrows := hroomy s' hstep
  cases hs.steps hfits hstep with
  | calls _ _ hcalled _ => exact h.called hs hcalled hgrows
  | wakes _ hcalled _ _ => exact h.called hs hcalled.silent hgrows
  | starts hserve => exact h.started hserve
  | completes hp hresult hserve => exact h.completed hs hp hresult hserve

theorem Stored.init : (init : Writers T).Stored where
  stored t i p b hp := by cases hp
  file_len := Nat.le_refl _

/-- Full writes stay in every sane run. -/
theorem Stored.reaches (h : Reaches Writers.step sane Writers.init s) : s.Accounts ∧ s.Stored := by
  refine h.invariant (P := fun s => s.Accounts ∧ s.Stored) (fun s a s' hs hsane hstep => ?_) ⟨.init, .init⟩
  exact ⟨hs.1.step hsane.1 hsane.2 hstep, hs.2.step hs.1 hsane.1 hsane.2 hstep⟩

/-- In a sane run, and whatever becomes of other writes, of the calls and of the writers: a batch whose entry has
completed with all its bytes is in the file, at the place that was claimed for it. -/
theorem full_writes_stay (h : Reaches step sane init s) {i : Nat} {p : Handed WriteEntry}
    (hp : (s.writer t).ring.log[i]? = some p) (hfull : full p) :
    ∃ b, (s.mine t)[i]? = some b ∧ p.entry.range = b.range ∧ load s.file b.extent = b.bytes := by
  obtain ⟨haccounts, hstored⟩ := Stored.reaches h
  obtain ⟨b, hb, hrange⟩ := haccounts.entry_range hp
  exact ⟨b, hb, hrange, (hstored.stored t i p b hp hfull hb).1⟩

/-- Of two writes of different writers the first one fails; the other one is full. -/
def failsOne : List (Action Bool) :=
  let payload (len : Usize) : Slice := { len, byte := fun i => UInt8.ofNat (i + 1) }
  [.append false (payload 4) true, .append true (payload 3) true, .finish false true, .finish true true,
    .serve false (.start 0), .serve false (.complete 0 (-5)), .serve true (.start 0), .serve true (.complete 0 3)]

theorem full_writes_stay_failsOne :
    ∃ s : Writers Bool, Reaches step sane init s ∧ ∃ b, (s.mine true)[0]? = some b ∧ b.offset = 4 ∧
      load s.file b.extent = b.bytes ∧ b.bytes = [1, 2, 3] := by
  have hrun : (exec step sane failsOne init).any (fun s =>
      ((s.writer true).ring.log[0]?.any fun p => decide (full p)) &&
        (s.mine true)[0]?.any fun b => b.offset == 4 && b.bytes == [1, 2, 3]) = true := by
    decide +kernel
  obtain ⟨s, hreach, hcheck⟩ := exists_of_exec hrun
  obtain ⟨hlog, hmine⟩ := Bool.and_eq_true_iff.mp hcheck
  obtain ⟨p, hp, hfull⟩ := (Option.any_eq_true _ _).mp hlog
  obtain ⟨b, hb, hbatch⟩ := (Option.any_eq_true _ _).mp hmine
  obtain ⟨hoffset, hbytes⟩ := Bool.and_eq_true_iff.mp hbatch
  obtain ⟨d, hd, _, hload⟩ := full_writes_stay hreach hp (of_decide_eq_true hfull)
  obtain rfl := Option.some.inj (hb.symm.trans hd)
  exact ⟨s, hreach, b, hb, beq_iff_eq.mp hoffset, hload, beq_iff_eq.mp hbytes⟩

end Batches

/-- The ranges all threads have returned, in the order `main` reads them. -/
def all_ranges (s : Writers T) (handles : List T) : List CompletedRange :=
  (handles.flatMap s.returned).mergeSort fun r r' => r.disk_offset ≤ r'.disk_offset

/-- A `seek` and a `read_exact`, which fails where the file is too short. -/
def read_exact (s : Writers T) (range : CompletedRange) : Option (List UInt8) :=
  let e : Extent := { start := range.disk_offset.toNat, len := range.sealed_len.toNat }
  if e.stop ≤ s.file_len then some (load s.file e) else none

/-- What `main` reads back, range by range. -/
def read_back (s : Writers T) (handles : List T) : Option (List (List UInt8)) :=
  (s.all_ranges handles).mapM s.read_exact

section ReadBack
variable {s : Writers T} {handles : List T}

/-- Members of a list are taken from it key by key. -/
theorem flatMap_filter_perm {α : Type} (key : α → T) (hnodup : handles.Nodup) (l : List α) :
    (handles.flatMap fun t => l.filter (key · = t)).Perm (l.filter (key · ∈ handles)) := by
  induction handles with
  | nil => simp
  | cons t ts ih =>
    obtain ⟨ht, hts⟩ := List.nodup_cons.mp hnodup
    have hsplit := List.filter_append_perm (fun a => decide (key a = t)) (l.filter (key · ∈ t :: ts))
    have hfirst : (l.filter (key · ∈ t :: ts)).filter (key · = t) = l.filter (key · = t) := by
      rw [List.filter_filter]
      apply List.filter_congr
      intro a _
      by_cases ha : key a = t <;> simp [ha]
    have hrest : (l.filter (key · ∈ t :: ts)).filter (fun a => !decide (key a = t)) = l.filter (key · ∈ ts) := by
      rw [List.filter_filter]
      apply List.filter_congr
      intro a _
      by_cases ha : key a = t
      · simp [ha, ht]
      · simp [ha]
    rw [hfirst, hrest] at hsplit
    rw [List.flatMap_cons]
    exact ((ih hts).append_left _).trans hsplit

/-- All threads together have returned the ranges of all batches. -/
theorem Accounts.returned (h : s.Accounts) (hnodup : handles.Nodup) (hall : ∀ t, t ∈ handles)
    (hfinished : ∀ t, s.stage t = .finished) :
    (handles.flatMap s.returned).Perm (s.batches.map Batch.range) := by
  have hranges : (handles.flatMap s.returned).Perm (handles.flatMap fun t => (s.mine t).map Batch.range) :=
    List.Perm.flatMap_left _ fun t _ => (h.finished (hfinished t)).1
  refine hranges.trans ?_
  rw [← List.map_flatMap]
  have hpartition := flatMap_filter_perm Batch.writer hnodup s.batches
  rw [List.filter_eq_self.mpr fun b _ => decide_eq_true (hall b.writer)] at hpartition
  exact hpartition.map _

/-- So `main` reads the batches in the order they were claimed. -/
theorem Accounts.all_ranges (h : s.Accounts) (hnodup : handles.Nodup) (hall : ∀ t, t ∈ handles)
    (hfinished : ∀ t, s.stage t = .finished) : s.all_ranges handles = s.batches.map Batch.range := by
  have hperm : (s.all_ranges handles).Perm (s.batches.map Batch.range) :=
    (List.mergeSort_perm _ _).trans (h.returned hnodup hall hfinished)
  have hsorted : (s.all_ranges handles).Pairwise fun r r' => decide (r.disk_offset ≤ r'.disk_offset) = true := by
    apply List.pairwise_mergeSort
    · intro r r' r'' hr hr'
      exact decide_eq_true (BitVec.le_trans (of_decide_eq_true hr) (of_decide_eq_true hr'))
    · intro r r'
      simpa using BitVec.le_total r.disk_offset r'.disk_offset
  have hclaimed : (s.batches.map Batch.range).Pairwise fun r r' => decide (r.disk_offset ≤ r'.disk_offset) = true := by
    have hstarts := h.tiles.sorted
    rw [List.pairwise_map] at hstarts ⊢
    exact hstarts.imp fun hle => decide_eq_true hle
  refine List.Perm.eq_of_pairwise (fun r r' hr hr' hle hle' => ?_) hsorted hclaimed hperm
  obtain ⟨b, hb, rfl⟩ := List.mem_map.mp (hperm.mem_iff.mp hr)
  obtain ⟨d, hd, rfl⟩ := List.mem_map.mp hr'
  rw [h.eq_of_offset hb hd (BitVec.le_antisymm (of_decide_eq_true hle) (of_decide_eq_true hle'))]

/-- A writer that has finished has handed over the entries of all its batches. -/
theorem Accounts.handed (h : s.Accounts) {t : T} (hstage : s.stage t = .finished) {i : Nat} {b : Batch T}
    (hb : (s.mine t)[i]? = some b) : ∃ p, (s.writer t).ring.log[i]? = some p := by
  obtain ⟨rest, hkeeps, hstands⟩ := h.stood t
  rw [hstage] at hstands
  obtain ⟨_, _, hpending, _⟩ := hstands.of_finished
  have hnone := hkeeps.sound.outstanding_nil hpending
  obtain ⟨hunserved, _⟩ := List.append_eq_nil_iff.mp hnone
  obtain ⟨hsq, _⟩ := List.append_eq_nil_iff.mp hunserved
  have hpushed := congrArg List.length hkeeps.pushed
  rw [Queues.pushed, hsq, List.append_nil, List.length_map, List.length_map, List.length_map] at hpushed
  have hlt := (List.getElem?_eq_some_iff.mp hb).1
  exact ⟨_, List.getElem?_eq_getElem (hpushed ▸ hlt)⟩

theorem mapM_eq_some {α β : Type} {f : α → Option β} {g : α → β} {l : List α} (h : ∀ a ∈ l, f a = some (g a)) :
    l.mapM f = some (l.map g) := by
  induction l with
  | nil => rfl
  | cons a l ih =>
    rw [List.mapM_cons, h a List.mem_cons_self, ih fun b hb => h b (List.mem_cons_of_mem _ hb)]
    rfl

/-- When all writers of a sane run have finished and no write came short, `main` reads back the batches of all of
them in the order they were claimed, and these are the whole file, without a gap. -/
theorem reads_back (h : Reaches step sane init s) (hnodup : handles.Nodup) (hall : ∀ t, t ∈ handles)
    (hfinished : ∀ t, s.stage t = .finished) (hfull : ∀ t, ∀ p ∈ (s.writer t).ring.log, full p) :
    s.read_back handles = some (s.batches.map Batch.bytes) ∧ s.file_len = s.file_offset.toNat ∧
      load s.file { start := 0, len := s.file_len } = s.batches.flatMap Batch.bytes ∧
      ∀ t, (s.mine t).flatMap Batch.bytes = (s.appended t).flatMap Slice.toList := by
  obtain ⟨haccounts, hstored⟩ := Stored.reaches h
  have hin (b : Batch T) (hb : b ∈ s.batches) : load s.file b.extent = b.bytes ∧ b.extent.stop ≤ s.file_len := by
    have hmine : b ∈ s.mine b.writer := List.mem_filter.mpr ⟨hb, decide_eq_true rfl⟩
    obtain ⟨i, hi⟩ := List.mem_iff_getElem?.mp hmine
    obtain ⟨p, hp⟩ := haccounts.handed (hfinished b.writer) hi
    exact hstored.stored b.writer i p b hp (hfull b.writer p (List.mem_of_getElem? hp)) hi
  have hfile_len : s.file_len = s.file_offset.toNat := by
    refine Nat.le_antisymm hstored.file_len (haccounts.tiles.stop_le (Nat.zero_le _) fun e he => ?_)
    obtain ⟨b, hb, rfl⟩ := List.mem_map.mp he
    exact (hin b hb).2
  refine ⟨?_, hfile_len, ?_, fun t => haccounts.bytes (hfinished t)⟩
  · rw [read_back, haccounts.all_ranges hnodup hall hfinished, List.mapM_map]
    refine mapM_eq_some fun b hb => ?_
    obtain ⟨hload, hstop⟩ := hin b hb
    rw [← hload]
    exact if_pos hstop
  · have hload := haccounts.tiles.load_flatMap s.file
    rw [Nat.sub_zero, ← hfile_len, List.flatMap_map] at hload
    rw [hload]
    exact List.flatMap_congr fun b hb => (hin b hb).1

/-- Two writers claim out of turn, one of them twice, and their writes complete out of order. -/
def interleaves : List (Action Bool) :=
  let payload (len : Usize) (first : Nat) : Slice := { len, byte := fun i => UInt8.ofNat (first + i) }
  [.append false (payload 2 10) true, .append true (payload 1 20) true, .flush true true,
    .append true (payload 3 30) true, .append false (payload 1 40) true, .finish false true, .finish true true,
    .serve true (.start 0), .serve true (.start 1), .serve true (.complete 1 3), .serve false (.start 0),
    .serve true (.complete 0 1), .resume true true, .serve false (.complete 0 3), .resume false true]

theorem reads_back_interleaves :
    ∃ s : Writers Bool, Reaches step sane init s ∧
      s.batches.map Batch.bytes = [[20], [10, 11, 40], [30, 31, 32]] ∧
      s.read_back [true, false] = some (s.batches.map Batch.bytes) := by
  have hrun : (exec step sane interleaves init).any (fun s => decide
      ((∀ t, (s.stage t).ended = true) ∧
        (∀ t, ∀ p ∈ (s.writer t).ring.log, full p) ∧
        s.batches.map Batch.bytes = [[20], [10, 11, 40], [30, 31, 32]])) = true := by
    decide +kernel
  obtain ⟨s, hreach, hcheck⟩ := exists_of_exec hrun
  obtain ⟨hended, hfull, hbytes⟩ := of_decide_eq_true hcheck
  exact ⟨s, hreach, hbytes, (reads_back hreach (by decide) (by decide) (fun t => ended_iff.mp (hended t)) hfull).1⟩

end ReadBack

end Writers

end FlushRing
