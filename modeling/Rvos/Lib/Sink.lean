import Mathlib.Tactic

/-! # Sinks

    A sink takes a front part of what it is given and says how much.  What makes
    writing in pieces harmless is one law (`append`): it takes two lists in a row
    as it takes the first and then, unless that was cut short, the second.

    * `Sink.putAll` : pieces one after the other, until one is cut short.
    * `Sink.putAll_eq` : that is the same as all of them at once. -/

structure Sink (α σ : Type) where
  /-- The state afterwards, and how many elements were taken. -/
  put : σ → List α → σ × Nat
  le : ∀ s xs, (put s xs).2 ≤ xs.length
  nil : ∀ s, put s [] = (s, 0)
  append : ∀ s xs ys, put s (xs ++ ys) =
    if (put s xs).2 < xs.length then put s xs
    else ((put (put s xs).1 ys).1, xs.length + (put (put s xs).1 ys).2)
  /-- What was taken is the front. -/
  front : ∀ s xs, put s (xs.take (put s xs).2) = put s xs

namespace Sink

variable {α σ : Type} (S : Sink α σ)

/-- Piece by piece; after one that was cut short nothing more is given. -/
def putAll : σ → List (List α) → σ × Nat
  | s, [] => (s, 0)
  | s, xs :: xss =>
    if (S.put s xs).2 < xs.length then S.put s xs
    else ((putAll (S.put s xs).1 xss).1, xs.length + (putAll (S.put s xs).1 xss).2)

/-- **Pieces** are taken as their concatenation is. -/
theorem putAll_eq (xss : List (List α)) : ∀ s, S.putAll s xss = S.put s xss.flatten := by
  induction xss with
  | nil =>
    intro s
    rw [List.flatten_nil, S.nil]
    rfl
  | cons xs xss ih =>
    intro s
    rw [List.flatten_cons, S.append, putAll, ih]

/-- An empty piece makes no difference. -/
theorem putAll_nil_cons (s : σ) (xss : List (List α)) : S.putAll s ([] :: xss) = S.putAll s xss := by
  simp [putAll, S.nil]

end Sink
