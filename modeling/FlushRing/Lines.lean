import Mathlib

/-! A stream read piece by piece, each up to and including a delimiter. -/

namespace Lines

variable {α : Type} [DecidableEq α]

/-- The pieces of a stream; what follows the last delimiter is one too. -/
def pieces (delim : α) : List α → List (List α)
  | [] => []
  | a :: l =>
    if a = delim then [a] :: pieces delim l
    else
      match pieces delim l with
      | [] => [[a]]
      | piece :: rest => (a :: piece) :: rest

theorem pieces_append {delim : α} {body : List α} (hbody : delim ∉ body) (rest : List α) :
    pieces delim (body ++ delim :: rest) = (body ++ [delim]) :: pieces delim rest := by
  induction body with
  | nil => simp [pieces]
  | cons a body ih =>
    have ha : a ≠ delim := by
      rintro rfl
      exact hbody List.mem_cons_self
    have hrest := ih fun hmem => hbody (List.mem_cons_of_mem _ hmem)
    rw [List.cons_append, pieces, if_neg ha, hrest]
    rfl

/-- Pieces that have been written one after the other are read back. -/
theorem pieces_flatten {delim : α} {ls : List (List α)}
    (h : ∀ l ∈ ls, ∃ body, l = body ++ [delim] ∧ delim ∉ body) : pieces delim ls.flatten = ls := by
  induction ls with
  | nil => rfl
  | cons l ls ih =>
    obtain ⟨body, hl, hbody⟩ := h l List.mem_cons_self
    have hrest := ih fun l' hl' => h l' (List.mem_cons_of_mem _ hl')
    rw [List.flatten_cons, hl, List.append_assoc, List.singleton_append, pieces_append hbody, hrest]

end Lines
