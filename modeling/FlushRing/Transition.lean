import Mathlib

/-! Guarded transition functions: runs whose steps meet a condition, the invariant rule for them, and
the bookkeeping of a quantity that the components of a state share. -/

namespace Transition

variable {S A : Type}

/-- `Reaches step ok s t`: some sequence of enabled steps, each meeting `ok`, leads from `s` to `t`. -/
inductive Reaches (step : S → A → Option S) (ok : S → A → Prop) (s : S) : S → Prop where
  | refl : Reaches step ok s s
  | tail {t u : S} (a : A) (h : Reaches step ok s t) (hok : ok t a) (hstep : step t a = some u) :
      Reaches step ok s u

namespace Reaches
variable {step : S → A → Option S} {ok : S → A → Prop} {s t u : S}

/-- A property kept by every step that meets the condition holds along every such run. -/
theorem invariant {P : S → Prop} (hkeep : ∀ s a t, P s → ok s a → step s a = some t → P t)
    (hinit : P s) (h : Reaches step ok s t) : P t := by
  induction h with
  | refl => exact hinit
  | tail a _ hok hstep ih => exact hkeep _ a _ ih hok hstep

/-- A weaker condition allows the same runs. -/
theorem mono {ok' : S → A → Prop} (himp : ∀ s a, ok s a → ok' s a)
    (h : Reaches step ok s t) : Reaches step ok' s t := by
  induction h with
  | refl => exact .refl
  | tail a _ hok hstep ih => exact .tail a ih (himp _ a hok) hstep

/-- Runs follow one another. -/
theorem trans (h : Reaches step ok s t) (h' : Reaches step ok t u) : Reaches step ok s u := by
  induction h' with
  | refl => exact h
  | tail a _ hok hstep ih => exact .tail a ih hok hstep

/-- Steps of a component are steps of the system it is part of. -/
theorem lift {S' A' : Type} {step' : S' → A' → Option S'} {ok' : S' → A' → Prop} (f : S → S') (g : A → A')
    (hstep : ∀ s a t, ok s a → step s a = some t → ok' (f s) (g a) ∧ step' (f s) (g a) = some (f t))
    (h : Reaches step ok s t) : Reaches step' ok' (f s) (f t) := by
  induction h with
  | refl => exact .refl
  | tail a _ hok hstep' ih =>
    obtain ⟨hok', hnext⟩ := hstep _ a _ hok hstep'
    exact .tail (g a) ih hok' hnext

/-- A run is matched step by step by one of another system, as far as a relation between their states is kept. -/
theorem simulate {S' A' : Type} {step' : S' → A' → Option S'} {ok' : S' → A' → Prop} {R : S → S' → Prop}
    (hstep : ∀ s a t s', R s s' → ok s a → step s a = some t →
      ∃ a' t', ok' s' a' ∧ step' s' a' = some t' ∧ R t t')
    (h : Reaches step ok s t) {s' : S'} (hrelated : R s s') : ∃ t', Reaches step' ok' s' t' ∧ R t t' := by
  induction h with
  | refl => exact ⟨s', .refl, hrelated⟩
  | tail a _ hok hnext ih =>
    obtain ⟨mid', hreach, hmid⟩ := ih
    obtain ⟨a', t', hok', hnext', hlast⟩ := hstep _ a _ mid' hmid hok hnext
    exact ⟨t', .tail a' hreach hok' hnext', hlast⟩

end Reaches

/-- Runs a list of actions, checking the condition before each of them. -/
def exec (step : S → A → Option S) (ok : S → A → Prop) [∀ s a, Decidable (ok s a)] :
    List A → S → Option S
  | [], s => some s
  | a :: rest, s =>
    if ok s a then
      match step s a with
      | some t => exec step ok rest t
      | none => none
    else none

theorem exec_reaches {step : S → A → Option S} {ok : S → A → Prop} [∀ s a, Decidable (ok s a)]
    {actions : List A} {s t : S} (h : exec step ok actions s = some t) : Reaches step ok s t := by
  induction actions generalizing s with
  | nil =>
    cases h
    exact .refl
  | cons a rest ih =>
    unfold exec at h
    split at h
    next hok =>
      split at h
      next mid hstep => exact (Reaches.tail a .refl hok hstep).trans (ih h)
      next => cases h
    next => cases h

/-- A check that succeeds at the end of an executed run holds in some reachable state. -/
theorem exists_of_exec {step : S → A → Option S} {ok : S → A → Prop} [∀ s a, Decidable (ok s a)]
    {actions : List A} {s : S} {check : S → Bool}
    (h : (exec step ok actions s).any check = true) :
    ∃ t, Reaches step ok s t ∧ check t = true := by
  cases hrun : exec step ok actions s with
  | none =>
    rw [hrun] at h
    cases h
  | some t =>
    rw [hrun] at h
    exact ⟨t, exec_reaches hrun, h⟩

section Occurrences

/-- How many steps of a run of listed actions meet a condition. -/
def occurrences (step : S → A → Option S) (p : S → A → Bool) : List A → S → Nat
  | [], _ => 0
  | a :: rest, s =>
    (if p s a then 1 else 0) +
      match step s a with
      | some t => occurrences step p rest t
      | none => 0

/-- A measure that every counted step lowers, and that an action raises by its credit at most, bounds how
often the condition is met. -/
theorem occurrences_le {step : S → A → Option S} {ok : S → A → Prop} [∀ s a, Decidable (ok s a)]
    {p : S → A → Bool} {P : S → Prop} {measure : S → Nat} {credit : A → Nat}
    (hstep : ∀ s a t, P s → ok s a → step s a = some t →
      P t ∧ measure t + (if p s a then 1 else 0) ≤ measure s + credit a)
    {actions : List A} {s t : S} (hinit : P s) (hrun : exec step ok actions s = some t) :
    measure t + occurrences step p actions s ≤ measure s + (actions.map credit).sum := by
  induction actions generalizing s with
  | nil =>
    cases hrun
    exact Nat.le_refl _
  | cons a rest ih =>
    unfold exec at hrun
    split at hrun
    next hok =>
      split at hrun
      next mid hmid =>
        obtain ⟨hkept, hfirst⟩ := hstep s a mid hinit hok hmid
        have hrest := ih hkept hrun
        simp only [occurrences, hmid, List.map_cons, List.sum_cons]
        omega
      next => cases hrun
    next => cases hrun

/-- A measure that every counted step lowers, and that a step raises by what another quantity gains at most, bounds
how often the condition is met by what that quantity has gained. -/
theorem occurrences_le_gain {step : S → A → Option S} {ok : S → A → Prop} [∀ s a, Decidable (ok s a)]
    {p : S → A → Bool} {P : S → Prop} {measure gain : S → Nat}
    (hstep : ∀ s a t, P s → ok s a → step s a = some t →
      P t ∧ measure t + (if p s a then 1 else 0) + gain s ≤ measure s + gain t)
    {actions : List A} {s t : S} (hinit : P s) (hrun : exec step ok actions s = some t) :
    measure t + occurrences step p actions s + gain s ≤ measure s + gain t := by
  induction actions generalizing s with
  | nil =>
    cases hrun
    exact Nat.le_refl _
  | cons a rest ih =>
    unfold exec at hrun
    split at hrun
    next hok =>
      split at hrun
      next mid hmid =>
        obtain ⟨hkept, hfirst⟩ := hstep s a mid hinit hok hmid
        have hrest := ih hkept hrun
        simp only [occurrences, hmid]
        omega
      next => cases hrun
    next => cases hrun

end Occurrences

section History
variable {H : Type}

/-- The system with a history variable: `note` adds to it what a step has done, and no step reads it. -/
def recorded (step : S → A → Option S) (note : H → S → A → S → H) (p : S × H) (a : A) : Option (S × H) :=
  (step p.1 a).map fun t => (t, note p.2 p.1 a t)

/-- A relation between state and history that every step keeps holds along every recorded run. -/
theorem Reaches.recorded_invariant {step : S → A → Option S} {C : S → A → Prop} {note : H → S → A → S → H}
    {P : S → H → Prop} (hkeep : ∀ s x a t, P s x → C s a → step s a = some t → P t (note x s a t))
    {s t : S} {x y : H} (hinit : P s x)
    (h : Reaches (recorded step note) (fun p a => C p.1 a) (s, x) (t, y)) : P t y := by
  refine h.invariant (P := fun p => P p.1 p.2) (fun p a q hp hok hstep => ?_) hinit
  obtain ⟨u, hu, rfl⟩ := Option.map_eq_some_iff.mp hstep
  exact hkeep p.1 p.2 a u hp hok hu

end History

section Answers
variable {S' O O' : Type}

/-- Runs a list of operations of a component that answers each of them. -/
def answers (call : S → A → Option (O × S)) : List A → S → Option (List O × S)
  | [], s => some ([], s)
  | a :: rest, s =>
    match call s a with
    | some (o, t) => (answers call rest t).map fun r => (o :: r.1, r.2)
    | none => none

/-- A component that answers every call as another one does, from related states to related states, answers
every list of calls as the other does. -/
theorem answers_simulate {call : S → A → Option (O × S)} {call' : S' → A → Option (O' × S')}
    {R : S → S' → Prop} {Q : O → O' → Prop}
    (hcall : ∀ s s' a o t, R s s' → call s a = some (o, t) →
      ∃ o' t', call' s' a = some (o', t') ∧ Q o o' ∧ R t t')
    {actions : List A} {s t : S} {s' : S'} {os : List O} (hrelated : R s s')
    (h : answers call actions s = some (os, t)) :
    ∃ os' t', answers call' actions s' = some (os', t') ∧ List.Forall₂ Q os os' ∧ R t t' := by
  induction actions generalizing s s' os with
  | nil =>
    cases h
    exact ⟨[], s', rfl, .nil, hrelated⟩
  | cons a rest ih =>
    unfold answers at h
    split at h
    next o mid hmid =>
      obtain ⟨⟨os, last⟩, hrest, heq⟩ := Option.map_eq_some_iff.mp h
      cases heq
      obtain ⟨o', mid', hcall', hanswer, hmid'⟩ := hcall s s' a o mid hrelated hmid
      obtain ⟨os', t', hrest', hanswers, ht⟩ := ih hmid' hrest
      refine ⟨o' :: os', t', ?_, .cons hanswer hanswers, ht⟩
      simp only [answers, hcall', hrest', Option.map_some]
    next => cases h

end Answers

section Queries
variable {Q O R : Type}

/-- The left components of a list, in order. -/
def lefts (l : List (A ⊕ Q)) : List A := l.filterMap Sum.getLeft?

theorem lefts_inl (a : A) (l : List (A ⊕ Q)) : lefts (.inl a :: l) = a :: lefts l := rfl

theorem lefts_inr (q : Q) (l : List (A ⊕ Q)) : lefts (.inr q :: l) = lefts l := rfl

/-- A component that answers queries between its calls. -/
def queried (call : S → A → Option (O × S)) (query : S → Q → R × S) (s : S) :
    A ⊕ Q → Option ((O ⊕ R) × S)
  | .inl a => (call s a).map fun r => (.inl r.1, r.2)
  | .inr q => some (.inr (query s q).1, (query s q).2)

/-- The calls are answered, and leave the component, as if no query had been made. -/
def Transparent (call : S → A → Option (O × S)) (query : S → Q → R × S) (l : List (A ⊕ Q)) (s : S) : Prop :=
  (answers (queried call query) l s).map (fun r => (lefts r.1, r.2)) = answers call (lefts l) s

/-- Every query is made in a state that meets the condition. -/
def QueriesMeet (call : S → A → Option (O × S)) (query : S → Q → R × S) (ok : S → Q → Prop) :
    List (A ⊕ Q) → S → Prop
  | [], _ => True
  | .inl a :: rest, s => ∀ o t, call s a = some (o, t) → QueriesMeet call query ok rest t
  | .inr q :: rest, s => ok s q ∧ QueriesMeet call query ok rest (query s q).2

variable {call : S → A → Option (O × S)} {query : S → Q → R × S} {ok : S → Q → Prop}

theorem transparent_nil (s : S) : Transparent call query [] s := rfl

theorem transparent_call (a : A) (l : List (A ⊕ Q)) (s : S) :
    Transparent call query (.inl a :: l) s ↔ ∀ o t, call s a = some (o, t) → Transparent call query l t := by
  unfold Transparent
  rw [lefts_inl, answers, answers, queried]
  cases hcall : call s a with
  | none => simp
  | some r =>
    obtain ⟨o, t⟩ := r
    have hinj : Function.Injective fun r : List O × S => (o :: r.1, r.2) := by
      rintro ⟨os, u⟩ ⟨os', u'⟩ heq
      cases heq
      rfl
    simp only [Option.map_some, Option.some.injEq, Prod.mk.injEq]
    constructor
    · rintro heq o' t' ⟨rfl, rfl⟩
      apply Option.map_injective hinj
      rw [← heq, Option.map_map, Option.map_map]
      rfl
    · intro heq
      rw [← heq o t ⟨rfl, rfl⟩, Option.map_map, Option.map_map]
      rfl

/-- A query that changes nothing can be left out. -/
theorem transparent_query {q : Q} {s : S} (hsame : (query s q).2 = s) (l : List (A ⊕ Q)) :
    Transparent call query (.inr q :: l) s ↔ Transparent call query l s := by
  unfold Transparent
  rw [lefts_inr, answers, queried]
  simp only
  rw [Option.map_map, hsame]
  rfl

/-- A query that is transparent on its own leaves the component as it is. -/
theorem same_of_transparent {q : Q} {s : S} (h : Transparent call query [.inr q] s) : (query s q).2 = s := by
  have hend : some (lefts [(Sum.inr (query s q).1 : O ⊕ R)], (query s q).2) = some (([] : List O), s) := h
  exact (Prod.mk.inj (Option.some.inj hend)).2

/-- Queries are transparent at every point of a run exactly when each leaves the component as it is. -/
theorem transparent_iff (hok : ∀ s q, ok s q ↔ (query s q).2 = s) (l : List (A ⊕ Q)) (s : S) :
    (∀ n, Transparent call query (l.take n) s) ↔ QueriesMeet call query ok l s := by
  induction l generalizing s with
  | nil =>
    refine ⟨fun _ => trivial, fun _ n => ?_⟩
    rw [List.take_nil]
    exact transparent_nil s
  | cons x rest ih =>
    cases x with
    | inl a =>
      constructor
      · intro h o t hcall
        rw [← ih t]
        intro n
        exact (transparent_call a _ s).mp (h (n + 1)) o t hcall
      · intro h n
        cases n with
        | zero => exact transparent_nil s
        | succ n => exact (transparent_call a _ s).mpr fun o t hcall => (ih t).mpr (h o t hcall) n
    | inr q =>
      constructor
      · intro h
        have hsame : (query s q).2 = s := same_of_transparent (h 1)
        refine ⟨(hok s q).mpr hsame, ?_⟩
        rw [hsame, ← ih s]
        exact fun n => (transparent_query hsame _).mp (h (n + 1))
      · rintro ⟨hq, hrest⟩ n
        have hsame := (hok s q).mp hq
        rw [hsame] at hrest
        cases n with
        | zero => exact transparent_nil s
        | succ n => exact (transparent_query hsame _).mpr ((ih s).mpr hrest n)

end Queries

section Shares

variable {I P : Type} [Fintype I] [DecidableEq I]

/-- Replacing one component exchanges its share of the total. -/
theorem sum_update_add (share : P → Nat) (part : I → P) (i : I) (p : P) :
    (∑ j, share (Function.update part i p j)) + share (part i) =
      (∑ j, share (part j)) + share p := by
  rw [← Finset.add_sum_erase _ _ (Finset.mem_univ i),
    ← Finset.add_sum_erase _ (fun j => share (part j)) (Finset.mem_univ i)]
  have hrest : ∑ j ∈ Finset.univ.erase i, share (Function.update part i p j) =
      ∑ j ∈ Finset.univ.erase i, share (part j) := by
    apply Finset.sum_congr rfl
    intro j hj
    rw [Function.update_of_ne (Finset.ne_of_mem_erase hj)]
  rw [hrest, Function.update_self]
  omega

omit [DecidableEq I] in
/-- No share exceeds the sum. -/
theorem share_le_sum (share : P → Nat) (part : I → P) (i : I) :
    share (part i) ≤ ∑ j, share (part j) :=
  Finset.single_le_sum (f := fun j => share (part j)) (fun _ _ => Nat.zero_le _) (Finset.mem_univ i)

/-- Two different components hold no more together than the total. -/
theorem pair_le_sum (share : P → Nat) (part : I → P) {i j : I} (hne : i ≠ j) :
    share (part i) + share (part j) ≤ ∑ k, share (part k) := by
  rw [← Finset.add_sum_erase _ (fun k => share (part k)) (Finset.mem_univ i)]
  have hj : share (part j) ≤ ∑ k ∈ Finset.univ.erase i, share (part k) :=
    Finset.single_le_sum (f := fun k => share (part k)) (fun _ _ => Nat.zero_le _)
      (Finset.mem_erase.mpr ⟨hne.symm, Finset.mem_univ j⟩)
  omega

/-- A total that equals a recorded amount keeps doing so when a step moves the recorded amount by
what the stepping component gains or gives up. -/
theorem balance_step {share : P → Nat} {part : I → P} {i : I} {p : P} {amount amount' : Nat}
    (h : amount = ∑ j, share (part j)) (hmove : amount' + share (part i) = amount + share p) :
    amount' = ∑ j, share (Function.update part i p j) := by
  have hsum := sum_update_add share part i p
  omega

/-- A total bounded by a capacity stays bounded when a step raises share and reserve by no more than
the capacity. -/
theorem bound_step {share : P → Nat} {part : I → P} {i : I} {p : P} {used used' cap cap' : Nat}
    (h : (∑ j, share (part j)) + used ≤ cap)
    (hmove : share p + used' + cap ≤ share (part i) + used + cap') :
    (∑ j, share (Function.update part i p j)) + used' ≤ cap' := by
  have hsum := sum_update_add share part i p
  omega

end Shares

end Transition
