import Mathlib.Tactic

/-! # Bounded queues

    A queue of bounded capacity takes as much of what it is given as it has room
    for, and gives out its oldest elements.

    * `Queue`, `Queue.call` : the queue, and how it answers calls.
    * `serve` : a machine answers calls one after another; the log keeps every
      call with its answer.
    * `Refines` : a machine that answers each call as the queue does.
      `Refines.serve` : then it answers every sequence of calls as the queue does.
    * `Queue.account` : nothing is lost, duplicated or reordered. -/

namespace Fifo

variable {α σ : Type} {cap : Nat}

/-- At most `cap` elements, oldest first. -/
structure Queue (α : Type) (cap : Nat) where
  items : List α
  fits : items.length ≤ cap

inductive Call (α : Type) where
  | put (xs : List α)
  | take (n : Nat)

/-- How many elements were accepted, or the elements given out. -/
inductive Answer (α : Type) where
  | accepted (n : Nat)
  | given (xs : List α)

namespace Queue

def empty : Queue α cap := ⟨[], Nat.zero_le _⟩

def room (q : Queue α cap) : Nat := cap - q.items.length

/-- Append as much as there is room for. -/
def put (q : Queue α cap) (xs : List α) : Queue α cap where
  items := q.items ++ xs.take q.room
  fits := by
    have hfits := q.fits
    simp only [List.length_append, List.length_take, room]
    omega

/-- Remove the `n` oldest elements. -/
def take (q : Queue α cap) (n : Nat) : Queue α cap where
  items := q.items.drop n
  fits := by
    have hfits := q.fits
    rw [List.length_drop]
    omega

def call (q : Queue α cap) : Call α → Queue α cap × Answer α
  | .put xs => (q.put xs, .accepted (min xs.length q.room))
  | .take n => (q.take n, .given (q.items.take n))

end Queue

/-! ## Section 1: Sequences of calls -/

/-- Answer calls one after another: the last state and the log. -/
def serve (step : σ → Call α → σ × Answer α) : σ → List (Call α) → σ × List (Call α × Answer α)
  | s, [] => (s, [])
  | s, c :: cs =>
    let next := step s c
    let rest := serve step next.1 cs
    (rest.1, (c, next.2) :: rest.2)

/-- The elements a call handed over, as far as they were accepted. -/
def acceptedBy : Call α × Answer α → List α
  | (.put xs, .accepted n) => xs.take n
  | _ => []

/-- The elements a call gave out. -/
def givenBy : Call α × Answer α → List α
  | (_, .given xs) => xs
  | _ => []

def accepted (log : List (Call α × Answer α)) : List α := log.flatMap acceptedBy

def given (log : List (Call α × Answer α)) : List α := log.flatMap givenBy

theorem Queue.account_call (q : Queue α cap) (c : Call α) :
    q.items ++ acceptedBy (c, (q.call c).2) = givenBy (c, (q.call c).2) ++ (q.call c).1.items := by
  cases c with
  | put xs =>
    show q.items ++ xs.take (min xs.length q.room) = [] ++ (q.items ++ xs.take q.room)
    rw [List.nil_append, Nat.min_comm, ← List.take_eq_take_min]
  | take n => simp [call, Queue.take, acceptedBy, givenBy]

/-- **Account.**  Over any calls: what was in the queue and what was accepted is
    what was given out and what is in the queue, in this order. -/
theorem Queue.account (cs : List (Call α)) : ∀ q : Queue α cap,
    q.items ++ accepted (serve Queue.call q cs).2 =
      given (serve Queue.call q cs).2 ++ (serve Queue.call q cs).1.items := by
  induction cs with
  | nil =>
    intro q
    simp [serve, accepted, given]
  | cons c cs ih =>
    intro q
    have hone := q.account_call c
    have hrest := ih (q.call c).1
    simp only [serve, accepted, given, List.flatMap_cons] at hrest ⊢
    rw [← List.append_assoc, hone, List.append_assoc, hrest, List.append_assoc]

/-! ## Section 2: Refinement -/

/-- Each call of the machine is answered as the queue answers it. -/
structure Refines (step : σ → Call α → σ × Answer α) (abs : σ → Queue α cap → Prop) : Prop where
  answer : ∀ {s q} c, abs s q → (step s c).2 = (q.call c).2
  next : ∀ {s q} c, abs s q → abs (step s c).1 (q.call c).1

/-- **Refinement.**  Then so is every sequence of calls. -/
theorem Refines.serve {step : σ → Call α → σ × Answer α} {abs : σ → Queue α cap → Prop}
    (h : Refines step abs) (cs : List (Call α)) : ∀ {s : σ} {q : Queue α cap}, abs s q →
      (Fifo.serve step s cs).2 = (Fifo.serve Queue.call q cs).2 ∧
        abs (Fifo.serve step s cs).1 (Fifo.serve Queue.call q cs).1 := by
  induction cs with
  | nil =>
    intro s q habs
    exact ⟨rfl, habs⟩
  | cons c cs ih =>
    intro s q habs
    obtain ⟨hlog, hlast⟩ := ih (h.next c habs)
    refine ⟨?_, hlast⟩
    simp only [Fifo.serve, h.answer c habs, hlog]

end Fifo
