/-
  ViewScript/Proofs/Grammar/Lookbehind.lean
  =========================================
  **No rule looks behind.**

  A cursor does not hold what lies behind it.  So text that is put before a source shows in
  one way only: every offset is greater by the size of that text.  This is so from any offset,
  also from one that splits a character or lies past the end, because what lies ahead of it
  is the same.

  A choice compares the place of a failure with the place where it began, and a repetition
  the places before and after a run.  Both are moved by the same number of bytes, and so the
  same alternative is taken and the same run is the last one.
-/
import ViewScript.Proofs.Grammar.Termination

namespace ViewScript

/-! ### Text before a source -/

theorem Text.dropBytes?_append_add (front back : Text) (offset : Nat) :
    dropBytes? (front.byteSize + offset) (front ++ back) = dropBytes? offset back := by
  induction front with
  | nil => simp
  | cons c cs ih =>
    rw [byteSize_cons, Nat.add_assoc, List.cons_append, dropBytes?_cons]
    exact ih

/-- The same lies ahead of an offset, wherever the source stands. -/
theorem Cursor.ofOffset_append_add (front back : Text) (offset : Nat) :
    ofOffset (front ++ back) (front.byteSize + offset) =
      (ofOffset back offset).shift front.byteSize := by
  have finished : (front ++ back).byteSize ≤ front.byteSize + offset ↔ back.byteSize ≤ offset := by
    rw [Text.byteSize_append]
    omega
  simp only [ofOffset, shift, Text.dropBytes?_append_add, finished]
  rw [Nat.add_comm]

/-- A reply some bytes further on.  The value is shifted by `moved`. -/
def Reply.shift {α : Type} (k : Nat) (moved : α → α) : Reply α → Reply α
  | .ok value next => .ok (moved value) (next.shift k)
  | .fail failure => .fail (failure.shift k)

/-- A parser that follows itself by the size of a text does not see the text before it. -/
theorem Parser.Follows.runAt_append {α : Type} {moved : α → α} {parser : Parser α} {front : Text}
    (follows : ∀ n, Follows front.byteSize n 0 moved parser parser) (back : Text) (offset : Nat) :
    parser.runAt (front ++ back) (front.byteSize + offset) =
      (parser.runAt back offset).shift front.byteSize moved := by
  unfold runAt
  rw [Cursor.ofOffset_append_add]
  rcases follows _ (Cursor.ofOffset back offset) (Nat.lt_succ_self _) with
    ⟨value, next, here, there, -⟩ | ⟨failure, here, there⟩
  · rw [here, there]
    rfl
  · rw [here, there]
    rfl

namespace Grammar

open ViewScript.Parser

theorem follows_closed (k n : Nat) : Nested.closed.Follows k n .closed where
  expression := follows_production .expression k n
  children := follows_production .children k n

/-- **No rule looks behind.**  With any text put before the source, every production gives
    the reply that it gives without it: every span in the tree, the place where it ended and
    the place where it failed are moved by the size of that text, and nothing else changes.
    The same holds of strings with any mark and of groups with any brackets, which are no
    productions of their own. -/
theorem production_looks_ahead_only (front back : Text) (offset : Nat) :
    (∀ production : Production,
      production.parser.runAt (front ++ back) (front.byteSize + offset) =
        (production.parser.runAt back offset).shift front.byteSize
          (production.shift front.byteSize)) ∧
    (∀ mark : Char,
      (quoted mark).runAt (front ++ back) (front.byteSize + offset) =
        ((quoted mark).runAt back offset).shift front.byteSize (Node.shift front.byteSize)) ∧
    ∀ delimiter : Delimiter,
      (close (Rules.group · delimiter)).runAt (front ++ back) (front.byteSize + offset) =
        ((close (Rules.group · delimiter)).runAt back offset).shift front.byteSize
          (Node.shift front.byteSize) := by
  refine ⟨?_, ?_, ?_⟩
  · intro production
    apply Follows.runAt_append
    intro n
    exact follows_production production front.byteSize n
  · intro mark
    apply Follows.runAt_append
    intro n
    exact follows_quoted mark
  · intro delimiter
    have closed : close (Rules.group · delimiter) = Rules.group .closed delimiter :=
      close_eq (fun inner => follows_group inner delimiter) Node.shift_zero
    rw [closed]
    apply Follows.runAt_append
    intro n
    exact (follows_group (follows_closed front.byteSize n) delimiter).mono (Nat.le_succ n)
      (Nat.le_refl 0)

end Grammar

end ViewScript
