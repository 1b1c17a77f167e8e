import Mathlib

/-! Extents of an addressed memory: the whole pages around one, filling and reading one, blocks of a
bounded size, and lists of extents that tile a range without a gap. -/

namespace Extents

/-- `len` consecutive addresses from `start`. -/
@[ext]
structure Extent where
  start : Nat
  len : Nat
  deriving DecidableEq, Repr

namespace Extent

def stop (e : Extent) : Nat := e.start + e.len

@[simp] theorem stop_prefix (n : Nat) : ({ start := 0, len := n } : Extent).stop = n := Nat.zero_add n

def asSet (e : Extent) : Set Nat := Set.Ico e.start e.stop

def Apart (d e : Extent) : Prop := Disjoint d.asSet e.asSet

theorem Apart.symm {d e : Extent} (h : d.Apart e) : e.Apart d := Disjoint.symm h

/-- Extents one after the other are apart. -/
theorem apart_of_le {d e : Extent} (h : d.stop ≤ e.start) : d.Apart e := by
  rw [Apart, asSet, asSet, Set.Ico_disjoint_Ico]
  omega

/-- Parts of extents that are apart are apart. -/
theorem Apart.mono {d d' e : Extent} (h : d.Apart e) (hstart : d.start ≤ d'.start)
    (hstop : d'.stop ≤ d.stop) : d'.Apart e :=
  Set.disjoint_of_subset_left (Set.Ico_subset_Ico hstart hstop) h

theorem Apart.not_mem {d e : Extent} (h : d.Apart e) {i : Nat} (hi : i < d.len) :
    ¬ (e.start ≤ d.start + i ∧ d.start + i < e.stop) := by
  intro hmem
  refine Set.disjoint_left.mp h ?_ hmem
  constructor
  · omega
  · unfold stop
    omega

/-- An extent is below another when it lies inside it. -/
instance : Preorder Extent := Preorder.lift asSet

/-- An extent between the ends of another is part of it. -/
theorem le_of_bounds {d e : Extent} (hstart : e.start ≤ d.start) (hstop : d.stop ≤ e.stop) : d ≤ e :=
  Set.Ico_subset_Ico hstart hstop

/-- A nonempty part of an extent is between its ends. -/
theorem bounds_of_le {d e : Extent} (hlen : 0 < d.len) (h : d ≤ e) :
    e.start ≤ d.start ∧ d.stop ≤ e.stop :=
  (Set.Ico_subset_Ico_iff (Nat.lt_add_of_pos_right hlen)).mp h

/-- It consists of whole pages of `p` addresses. -/
def Paged (p : Nat) (e : Extent) : Prop := p ∣ e.start ∧ p ∣ e.stop

/-- The whole pages of `p` addresses that an extent reaches into. -/
def pages (p : Nat) (e : Extent) : Extent where
  start := e.start / p * p
  len := (e.start % p + e.len + (p - 1)) / p * p

section Pages
variable {p : Nat} (hp : 0 < p)

/-- The page cover of an extent consists of whole pages. -/
theorem pages_paged (p : Nat) (e : Extent) : (e.pages p).Paged p :=
  ⟨Dvd.intro_left _ rfl, Nat.dvd_add (Dvd.intro_left _ rfl) (Dvd.intro_left _ rfl)⟩

include hp

/-- The page cover of an extent contains it. -/
theorem le_pages (e : Extent) : e ≤ e.pages p := by
  have hstart := Nat.div_add_mod' e.start p
  have hround := Nat.div_add_mod' (e.start % p + e.len + (p - 1)) p
  have hrest := Nat.mod_lt (e.start % p + e.len + (p - 1)) hp
  apply le_of_bounds
  · exact Nat.div_mul_le_self _ _
  · unfold stop pages
    dsimp only
    omega

/-- Whole pages that contain an extent contain all the pages it reaches into. -/
theorem pages_le {e w : Extent} (hlen : 0 < e.len) (hw : w.Paged p) (h : e ≤ w) : e.pages p ≤ w := by
  obtain ⟨hstart, hstop⟩ := bounds_of_le hlen h
  obtain ⟨⟨first, hfirst⟩, ⟨last, hlast⟩⟩ := hw
  have hlow : first ≤ e.start / p := by
    rw [Nat.le_div_iff_mul_le hp, Nat.mul_comm, ← hfirst]
    exact hstart
  have hhigh : e.start / p + (e.start % p + e.len + (p - 1)) / p ≤ last := by
    have hsplit := Nat.div_add_mod' e.start p
    have hlast : e.start % p + e.len + (p - 1) + e.start / p * p < (last + 1) * p := by
      rw [Nat.succ_mul, Nat.mul_comm last, ← hlast]
      unfold stop at hstop ⊢
      omega
    rw [Nat.add_comm, ← Nat.add_mul_div_right _ _ hp]
    exact Nat.le_of_lt_succ ((Nat.div_lt_iff_lt_mul hp).mpr hlast)
  apply le_of_bounds
  · rw [hfirst, Nat.mul_comm]
    exact Nat.mul_le_mul_right p hlow
  · rw [hlast]
    unfold stop pages
    dsimp only
    rw [← Nat.add_mul, Nat.mul_comm]
    exact Nat.mul_le_mul_left p hhigh

/-- They are the least whole pages that contain it. -/
theorem pages_isLeast {e : Extent} (hlen : 0 < e.len) :
    IsLeast {w | w.Paged p ∧ e ≤ w} (e.pages p) :=
  ⟨⟨pages_paged p e, le_pages hp e⟩, fun _ hw => pages_le hp hlen hw.1 hw.2⟩

end Pages

end Extent

open Extent

section Memory
variable {β : Type} (mem data : Nat → β) {d e : Extent}

/-- Memory after `data` has been copied over an extent. -/
def fill (e : Extent) : Nat → β := fun k =>
  if e.start ≤ k ∧ k < e.stop then data (k - e.start) else mem k

/-- The contents of an extent. -/
def load (e : Extent) : List β := (List.range e.len).map fun i => mem (e.start + i)

/-- Two memories hold the same extent when they agree on its bytes. -/
theorem load_congr {mem mem' : Nat → β} :
    load mem e = load mem' e ↔ ∀ i < e.len, mem (e.start + i) = mem' (e.start + i) := by
  simp [load]

/-- Moving the contents of an extent moves what is read from it. -/
theorem load_eq_iff {mem mem' : Nat → β} (hlen : d.len = e.len) :
    load mem d = load mem' e ↔ ∀ i < e.len, mem (d.start + i) = mem' (e.start + i) := by
  unfold load
  rw [hlen]
  simp

/-- What was filled in is there. -/
theorem fill_apply {i : Nat} (hi : i < e.len) : fill mem data e (e.start + i) = data i := by
  have hin : e.start ≤ e.start + i ∧ e.start + i < e.stop := by
    unfold stop
    omega
  rw [fill, if_pos hin, Nat.add_sub_cancel_left]

theorem fill_congr {data data' : Nat → β} (h : ∀ i < e.len, data i = data' i) :
    fill mem data e = fill mem data' e := by
  funext k
  unfold fill
  split
  next hin =>
    apply h
    unfold stop at hin
    omega
  next => rfl

theorem fill_prefix (n : Nat) :
    fill mem data { start := 0, len := n } = fun k => if k < n then data k else mem k := by
  funext k
  simp only [fill, stop_prefix, Nat.zero_le, true_and, Nat.sub_zero]

/-- What was copied over an extent is read back from it. -/
theorem load_fill_self : load (fill mem data e) e = (List.range e.len).map data := by
  apply List.map_congr_left
  intro i hi
  exact fill_apply mem data (List.mem_range.mp hi)

/-- Outside the extent the memory is as it was. -/
theorem fill_apply_apart {i : Nat} (h : d.Apart e) (hi : i < d.len) :
    fill mem data e (d.start + i) = mem (d.start + i) := by
  rw [fill, if_neg (h.not_mem hi)]

/-- Filling an extent leaves every extent apart from it as it was. -/
theorem load_fill_apart (h : d.Apart e) : load (fill mem data e) d = load mem d := by
  rw [load_congr]
  intro i hi
  exact fill_apply_apart mem data h hi

/-- Memories that agree on two extents agree on the parts that lie at one place in them. -/
theorem load_part {mem mem' : Nat → β} {start start' n i k : Nat}
    (h : load mem { start, len := n } = load mem' { start := start', len := n }) (hk : i + k ≤ n) :
    load mem { start := start + i, len := k } = load mem' { start := start' + i, len := k } := by
  have hwhole := (load_eq_iff (d := { start, len := n }) (e := { start := start', len := n }) rfl).mp h
  apply (load_eq_iff (d := { start := start + i, len := k }) (e := { start := start' + i, len := k }) rfl).mpr
  intro j hj
  have hin : i + j < n := by
    dsimp only at hj
    omega
  have hj := hwhole (i + j) hin
  rw [← Nat.add_assoc, ← Nat.add_assoc] at hj
  exact hj

/-- Two neighbouring extents are read one after the other. -/
theorem load_append (start m n : Nat) :
    load mem ⟨start, m + n⟩ = load mem ⟨start, m⟩ ++ load mem ⟨start + m, n⟩ := by
  simp only [load, List.range_add, List.map_append, List.map_map]
  congr 1
  apply List.map_congr_left
  intro i _
  simp only [Function.comp_apply]
  congr 1
  omega

end Memory

/-- An allocation of `size` addresses, counted from zero. -/
structure Block (β : Type) where
  mem : Nat → β
  size : Nat

namespace Block
variable {β : Type} (b : Block β) (data ptr : Nat → β) {d e : Extent}

/-- Copies `data` over an extent of the block; there is no result when the extent leaves the block. -/
def write (e : Extent) : Option (Block β) :=
  if e.stop ≤ b.size then some { b with mem := fill b.mem data e } else none

/-- Copies an extent of the block to the start of another memory; there is no result when the extent leaves
the block. -/
def copyTo (e : Extent) : Option (Nat → β) :=
  if e.stop ≤ b.size then
    some (fill ptr (fun i => b.mem (e.start + i)) { start := 0, len := e.len })
  else none

variable {b data ptr} in
/-- A write that returns has stayed inside the block. -/
theorem write_eq_some {b' : Block β} (h : b.write data e = some b') :
    e.stop ≤ b.size ∧ b' = { b with mem := fill b.mem data e } := by
  unfold write at h
  split at h
  next hin => exact ⟨hin, (Option.some.inj h).symm⟩
  next => cases h

variable {b ptr} in
theorem copyTo_eq_some {ptr' : Nat → β} (h : b.copyTo ptr e = some ptr') :
    e.stop ≤ b.size ∧ ptr' = fill ptr (fun i => b.mem (e.start + i)) { start := 0, len := e.len } := by
  unfold copyTo at h
  split at h
  next hin => exact ⟨hin, (Option.some.inj h).symm⟩
  next => cases h

variable {b data} in
/-- What is copied out of a written extent is the part of the written data at its place. -/
theorem copyTo_of_write {b' : Block β} (h : b.write data e = some b') (hstart : e.start ≤ d.start)
    (hstop : d.stop ≤ e.stop) :
    b'.copyTo ptr d =
      some (fill ptr (fun i => data (d.start - e.start + i)) { start := 0, len := d.len }) := by
  obtain ⟨hin, rfl⟩ := write_eq_some h
  rw [copyTo, if_pos (Nat.le_trans hstop hin)]
  congr 1
  apply fill_congr
  intro i hi
  have hplace : d.start + i = e.start + (d.start - e.start + i) := by omega
  rw [hplace]
  apply fill_apply
  unfold stop at hstop
  dsimp only at hi
  omega

end Block

/-- Extents handed out under keys, all of them below `next`; those of different keys do not overlap. -/
structure Separate {K : Type} (placed : K → Extent → Prop) (next : Nat) : Prop where
  below : ∀ k e, placed k e → e.stop ≤ next
  apart : ∀ k e k' e', placed k e → placed k' e' → k ≠ k' → e.Apart e'

/-- Extents stay separate while each is kept or cut down under its key, and at most one key is given a new
one, from `next` on. -/
theorem Separate.grow {K : Type} {placed placed' : K → Extent → Prop} {next next' : Nat}
    (h : Separate placed next) (hle : next ≤ next') (fresh : Option K)
    (hnew : ∀ k e, placed' k e → (∃ d, placed k d ∧ d.start ≤ e.start ∧ e.stop ≤ d.stop) ∨
      (fresh = some k ∧ next ≤ e.start ∧ e.stop ≤ next')) : Separate placed' next' where
  below k e he := by
    obtain ⟨d, hd, _, hstop⟩ | ⟨_, _, hstop⟩ := hnew k e he
    · exact hstop.trans ((h.below k d hd).trans hle)
    · exact hstop
  apart k e k' e' he he' hne := by
    obtain ⟨d, hd, hstart, hstop⟩ | ⟨hk, hstart, _⟩ := hnew k e he
    · obtain ⟨d', hd', hstart', hstop'⟩ | ⟨_, hstart', _⟩ := hnew k' e' he'
      · have hapart := (h.apart k d k' d' hd hd' hne).mono hstart hstop
        exact (hapart.symm.mono hstart' hstop').symm
      · exact apart_of_le (hstop.trans ((h.below k d hd).trans hstart'))
    · obtain ⟨d', hd', _, hstop'⟩ | ⟨hk', _, _⟩ := hnew k' e' he'
      · exact (apart_of_le (hstop'.trans ((h.below k' d' hd').trans hstart))).symm
      · rw [hk, Option.some.injEq] at hk'
        exact absurd hk' hne

/-- The extents follow one another without a gap from `start` to `stop`. -/
inductive Tiles : Nat → List Extent → Nat → Prop where
  | nil {start : Nat} : Tiles start [] start
  | cons {e : Extent} {l : List Extent} {stop : Nat} (h : Tiles e.stop l stop) :
      Tiles e.start (e :: l) stop

namespace Tiles
variable {start stop : Nat} {l : List Extent}

theorem concat (h : Tiles start l stop) (n : Nat) :
    Tiles start (l ++ [{ start := stop, len := n }]) (stop + n) := by
  induction h with
  | @nil start => exact .cons (e := { start, len := n }) .nil
  | cons _ ih => exact .cons ih

/-- The lengths of a tiling add up. -/
theorem sum_len (h : Tiles start l stop) : start + (l.map Extent.len).sum = stop := by
  induction h with
  | nil => rfl
  | cons _ ih =>
    rw [← ih, List.map_cons, List.sum_cons, Extent.stop]
    omega

/-- A range ends where its tiles do. -/
theorem stop_le (h : Tiles start l stop) {n : Nat} (hstart : start ≤ n) (htiles : ∀ e ∈ l, e.stop ≤ n) :
    stop ≤ n := by
  induction h with
  | nil => exact hstart
  | cons _ ih => exact ih (htiles _ List.mem_cons_self) fun e he => htiles e (List.mem_cons_of_mem _ he)

theorem start_le (h : Tiles start l stop) : start ≤ stop := by
  have hsum := h.sum_len
  omega

/-- Each extent of a tiling is within it. -/
theorem bounds (h : Tiles start l stop) {e : Extent} (he : e ∈ l) :
    start ≤ e.start ∧ e.stop ≤ stop := by
  induction h with
  | nil => cases he
  | cons htail ih =>
    have hle := htail.start_le
    obtain rfl | he := List.mem_cons.mp he
    · exact ⟨Nat.le_refl _, hle⟩
    · have hbounds := ih he
      unfold Extent.stop at hbounds hle ⊢
      omega

/-- Tiling extents do not overlap. -/
theorem pairwise (h : Tiles start l stop) : l.Pairwise Apart := by
  induction h with
  | nil => exact .nil
  | cons htail ih =>
    rw [List.pairwise_cons]
    exact ⟨fun e he => apart_of_le (htail.bounds he).1, ih⟩

/-- Their starts go up. -/
theorem sorted (h : Tiles start l stop) : l.Pairwise fun d e => d.start ≤ e.start := by
  induction h with
  | nil => exact .nil
  | @cons e l stop htail ih =>
    rw [List.pairwise_cons]
    exact ⟨fun d hd => (Nat.le_add_right _ _).trans (htail.bounds hd).1, ih⟩

/-- The tiles cover the range they tile, and nothing else. -/
theorem iUnion_asSet (h : Tiles start l stop) : (⋃ e ∈ l, e.asSet) = Set.Ico start stop := by
  induction h with
  | nil => simp
  | @cons e l stop htail ih =>
    have hunion : (⋃ d ∈ e :: l, d.asSet) = e.asSet ∪ ⋃ d ∈ l, d.asSet := by
      ext i
      simp
    have hle : e.start ≤ e.stop := Nat.le_add_right _ _
    rw [hunion, ih, asSet, Set.Ico_union_Ico_eq_Ico hle htail.start_le]

/-- A tiled range reads as the contents of its tiles, one after the other. -/
theorem load_flatMap {β : Type} (mem : Nat → β) (h : Tiles start l stop) :
    load mem { start, len := stop - start } = l.flatMap (load mem) := by
  induction h with
  | nil => simp [load]
  | @cons e l stop htail ih =>
    have hsplit : stop - e.start = e.len + (stop - e.stop) := by
      have hle := htail.start_le
      unfold Extent.stop at hle ⊢
      omega
    rw [hsplit, load_append, List.flatMap_cons, ← ih]
    rfl

end Tiles

end Extents
