/-
  ViewScript/Dialogue.lean
  ========================
  **Workers side by side.**

  A dialogue is a computation taken apart into its requests and what follows on each reply.
  Workers are dialogues with the same host.  They run side by side: between two requests of
  one worker the others may make requests of their own.
-/
import ViewScript.Host

namespace ViewScript

/-- A computation with the requests it makes. -/
inductive Dialogue (α : Type) where
  | done (value : α)
  | ask (request : Request) (next : request.Reply → Dialogue α)

namespace Dialogue

variable {α β : Type}

/-- One dialogue and then another. -/
def andThen : Dialogue α → (α → Dialogue β) → Dialogue β
  | .done value, after => after value
  | .ask request next, after => .ask request fun reply => (next reply).andThen after

instance : Monad Dialogue where
  pure := .done
  bind := .andThen

instance : Host Dialogue where
  answer request := .ask request .done

variable {m : Type → Type} [Monad m] [Host m]

/-- Make one request. -/
def advance : Dialogue α → m (Dialogue α)
  | .done value => return .done value
  | .ask request next => return next (← Host.answer request)

/-- Make all requests. -/
def perform : Dialogue α → m α
  | .done value => return value
  | .ask request next => do perform (next (← Host.answer request))

/-- It is the turn of one of the workers. -/
def advanceAt : Nat → List (Dialogue α) → m (List (Dialogue α))
  | _, [] => return []
  | 0, worker :: workers => return (← worker.advance) :: workers
  | turn + 1, worker :: workers => return worker :: (← advanceAt turn workers)

/-- The workers take turns. -/
def takeTurns : List Nat → List (Dialogue α) → m (List (Dialogue α))
  | [], workers => return workers
  | turn :: turns, workers => do takeTurns turns (← advanceAt turn workers)

/-- The workers finish, one after the other. -/
def performEach : List (Dialogue α) → m (List α)
  | [] => return []
  | worker :: workers => return (← worker.perform) :: (← performEach workers)

/-- Run workers side by side until all of them have finished. -/
def sideBySide (turns : List Nat) (workers : List (Dialogue α)) : m (List α) := do
  performEach (← takeTurns turns workers)

end Dialogue

end ViewScript
