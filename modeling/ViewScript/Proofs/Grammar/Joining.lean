/-
  ViewScript/Proofs/Grammar/Joining.lean
  ======================================
  **Putting programs one behind the other.**

  A program is read node by node.  With more behind it, every node but the last is read as
  before, because it ends before the end.  The last one is read as before or, if it is
  plain code, takes in the code behind the seam.  From there on the nodes are those of what
  stands behind, read by itself.
-/
import Mathlib.Data.List.TakeWhile
import ViewScript.Proofs.Grammar.Extension
import ViewScript.Proofs.Grammar.Termination

namespace ViewScript.Grammar

open ViewScript.Parser

variable {others : Text}

/-! ### Nodes at the end of a text -/

/-- A node that ends where the text ends is read with more behind as well, or else it is plain
    code and takes in the code behind. -/
theorem yields_term_append (noEnd : '>' ∉ '\n' :: others) {offset : Nat} {text run back : Text}
    {node : Node} (filled : text ≠ []) (done : (Rules.term .closed).Yields offset text [] node)
    (split : '\n' :: others = run ++ back) (isCode : ∀ c ∈ run, isCodeChar c = true)
    (stops : Stops isCodeChar back) :
    (Rules.term .closed).Yields offset text ('\n' :: others) node ∨
      node = .code (.ofText offset text) ∧
        (Rules.term .closed).Yields offset (text ++ run) back
          (.code (.ofText offset (text ++ run))) := by
  have kept := kept_markedRules (stable_closed noEnd) isSound_closed noEnd
  rw [term_eq_append] at done ⊢
  by_cases declines : (firstOf (markedRules .closed)).Declines ⟨offset, .chars text⟩
  · refine .inr ?_
    have declined := declines_of_firstOf declines
    -- The other rules decline with more behind as well, so that plain code is read.
    have declined' : ∀ parser ∈ markedRules .closed,
        parser.Declines ⟨offset, .chars ((text ++ run) ++ back)⟩ := by
      intro parser member
      rw [List.append_assoc, ← split]
      exact ((kept parser member).declines_iff filled).mp (declined parser member)
    have code : plainCode.Yields offset text [] node := by
      rw [Yields, List.append_nil] at done ⊢
      have committed : ¬ plainCode.Declines ⟨offset, .chars text⟩ := by
        intro noCode
        have all := List.forall_mem_append.mpr ⟨declined, List.forall_mem_singleton.mpr noCode⟩
        exact not_declines_of_ok done (declines_firstOf all)
      rwa [firstOf_append_cons_eq declined committed] at done
    obtain ⟨isRun, rfl⟩ := code.meets meets_plainCode
    have longer : IsRun isCodeChar (text ++ run) := by
      refine ⟨by simp [filled], fun c member => ?_⟩
      rcases List.mem_append.mp member with member | member
      · exact isRun.2 c member
      · exact isCode c member
    exact ⟨rfl, yields_firstOf_append declined' (yields_plainCode longer stops).firstOf⟩
  · refine .inl ?_
    have marked : (firstOf (markedRules .closed)).Yields offset text [] node := by
      rw [Yields, List.append_nil] at done ⊢
      rwa [firstOf_append_left declines] at done
    have longer := (kept_firstOf kept).kept filled marked
    exact (firstOf_append_left (not_declines_of_ok longer)).trans longer

/-! ### Putting expressions together -/

/-- The nodes of two texts that stand one behind the other, put together.  Plain code before
    and behind the seam is one node. -/
inductive Joins : List Node → List Node → List Node → Prop
  | apart (nodes later : List Node) : Joins nodes later (nodes ++ later)
  | code (front later : List Node) (start seam stop : Nat) :
    Joins (front ++ [.code ⟨start, seam⟩]) (.code ⟨seam, stop⟩ :: later)
      (front ++ .code ⟨start, stop⟩ :: later)

theorem Joins.cons {nodes later whole : List Node} (node : Node) (joins : Joins nodes later whole) :
    Joins (node :: nodes) later (node :: whole) := by
  cases joins with
  | apart => exact .apart (node :: nodes) later
  | code front later start seam stop => exact .code (node :: front) later start seam stop

/-- What is read of two texts together, given the nodes of the first and the reply to the
    second. -/
def JoinsReply (nodes : List Node) : Reply (List Node) → Reply (List Node) → Prop
  | .ok later last, reply => ∃ whole, Joins nodes later whole ∧ reply = .ok whole last
  | .fail failure, reply => reply = .fail failure

theorem JoinsReply.cons {nodes : List Node} {reply longer : Reply (List Node)} (node : Node)
    (joins : JoinsReply nodes reply longer) :
    JoinsReply (node :: nodes) reply (longer.map (node :: ·)) := by
  cases reply with
  | ok later last =>
    obtain ⟨whole, joins, rfl⟩ := joins
    exact ⟨node :: whole, joins.cons node, rfl⟩
  | fail failure =>
    obtain rfl := joins
    rfl

theorem joinsReply_nil (reply : Reply (List Node)) : JoinsReply [] reply reply := by
  cases reply with
  | ok later last => exact ⟨later, .apart [] later, rfl⟩
  | fail failure => rfl

/-- The last node of a text, and what stands behind. -/
theorem joinsReply_last (noEnd : '>' ∉ '\n' :: others) {offset : Nat} {text : Text} {node : Node}
    (filled : text ≠ []) (done : (Rules.term .closed).Yields offset text [] node) :
    JoinsReply [node] (many (Rules.term .closed) ⟨offset + text.byteSize, .chars ('\n' :: others)⟩)
      (many (Rules.term .closed) ⟨offset, .chars (text ++ '\n' :: others)⟩) := by
  have meets := meets_term isSound_closed
  obtain ⟨run, back, split, isRun, stops⟩ : ∃ run back, others = run ++ back ∧
      IsRun isCodeChar ('\n' :: run) ∧ Stops isCodeChar back := by
    refine ⟨others.takeWhile isCodeChar, others.dropWhile isCodeChar,
      List.takeWhile_append_dropWhile.symm, ⟨List.cons_ne_nil _ _, ?_⟩, stops_dropWhile _ _⟩
    exact List.forall_mem_cons.mpr ⟨rfl, fun c member => List.mem_takeWhile_imp member⟩
  have wholeSplit : '\n' :: others = ('\n' :: run) ++ back := by rw [split, List.cons_append]
  rcases yields_term_append noEnd filled done wholeSplit isRun.2 stops with kept | ⟨rfl, longer⟩
  · rw [many_eq_map meets kept (Yields.offset_ne filled)]
    exact (joinsReply_nil _).cons node
  · have later : (Rules.term .closed).Yields (offset + text.byteSize) ('\n' :: run) back _ :=
      yields_term_code .closed isRun rfl stops
    have size : offset + (text ++ '\n' :: run).byteSize =
        offset + text.byteSize + Text.byteSize ('\n' :: run) := by
      rw [Text.byteSize_append, Nat.add_assoc]
    have whole := many_eq_map meets longer (Yields.offset_ne (by simp))
    have rest := many_eq_map meets later (Yields.offset_ne isRun.1)
    rw [List.append_assoc, ← wholeSplit, size] at whole
    rw [← wholeSplit] at rest
    rw [whole, rest]
    cases many (Rules.term .closed)
        ⟨offset + text.byteSize + Text.byteSize ('\n' :: run), .chars back⟩ with
    | ok nodes last =>
      refine ⟨.code (.ofText offset (text ++ '\n' :: run)) :: nodes, ?_, rfl⟩
      have span : Span.ofText offset (text ++ '\n' :: run) =
          ⟨offset, offset + text.byteSize + Text.byteSize ('\n' :: run)⟩ := by
        rw [Span.ofText, size]
      rw [span]
      exact .code [] nodes offset (offset + text.byteSize) _
    | fail failure => rfl

/-- Nothing is left of a text that is read to its end without moving. -/
theorem eq_nil_of_still {α : Type} {parser : Parser α} {offset : Nat} {text : Text}
    {value other : α} (done : parser.Yields offset text [] value)
    (still : parser ⟨offset, .chars text⟩ = .ok other ⟨offset, .chars text⟩) : text = [] := by
  rw [Yields, List.append_nil, still] at done
  injection done with _ next
  injection next with _ ahead
  injection ahead

theorem joinsReply_expression (noEnd : '>' ∉ '\n' :: others) {offset : Nat} {text : Text}
    {nodes : List Node} (done : (many (Rules.term .closed)).Yields offset text [] nodes) :
    JoinsReply nodes
      (many (Rules.term .closed) ⟨offset + text.byteSize, .chars ('\n' :: others)⟩)
      (many (Rules.term .closed) ⟨offset, .chars (text ++ '\n' :: others)⟩) := by
  have meets := meets_term isSound_closed
  have stable := stable_term (stable_closed noEnd) isSound_closed noEnd
  have atEnd : ∀ place, many (Rules.term .closed) ⟨place, .chars []⟩ = .ok [] ⟨place, .chars []⟩ :=
    fun place => many_of_declines (startsIn_term .closed ⟨place, .chars []⟩ trivial)
  induction size : text.length using Nat.strong_induction_on generalizing offset text nodes with
  | _ n ih =>
  subst size
  have read := done
  rw [Yields, List.append_nil] at read
  by_cases filled : text = []
  · subst filled
    rw [atEnd] at read
    cases read
    exact joinsReply_nil _
  cases stable.extend offset text filled with
  | inside node place back left first first' =>
    -- The first node ends before the end of the text, with more behind as well.
    have moved : place ≠ offset :=
      fun still => filled (eq_nil_of_still done (many_of_still first still))
    obtain ⟨later, rfl, rest⟩ := exists_cons_of_many meets first moved read
    rw [many_eq_map meets first' moved]
    obtain ⟨item, reads, -⟩ := meets.ok first
    obtain ⟨_, rfl, ⟨⟩⟩ := reads.exists_chars
    have size : offset + (item ++ back).byteSize = offset + item.byteSize + back.byteSize := by
      rw [Text.byteSize_append, Nat.add_assoc]
    rw [size] at rest ⊢
    have shorter : back.length < (item ++ back).length := length_lt_of_moved meets first moved
    have yields : (many (Rules.term .closed)).Yields (offset + item.byteSize) back [] later := by
      rw [Yields, List.append_nil, rest]
    exact (ih back.length shorter yields rfl).cons node
  | declined expected expected' failed failed' =>
    exact absurd (eq_nil_of_still done (many_of_declines ⟨expected, failed⟩)) filled
  | across short _ =>
    cases reply : Rules.term .closed ⟨offset, .chars text⟩ with
    | fail failure =>
      rw [reply] at short
      rw [many_eq_fail reply (Nat.ne_of_gt short)] at read
      cases read
    | ok node next =>
      -- The first node is the last one as well.
      rw [reply] at short
      obtain ⟨item, reads, -⟩ := meets.ok reply
      obtain ⟨back, rfl, rfl⟩ := reads.exists_chars
      obtain rfl : back = [] := List.length_eq_zero_iff.mp (Nat.le_zero.mp short)
      rw [List.append_nil] at filled ⊢
      obtain ⟨later, rfl, rest⟩ :=
        exists_cons_of_many meets reply (Yields.offset_ne filled) read
      rw [atEnd, List.append_nil] at rest
      cases rest
      exact joinsReply_last noEnd filled reply

theorem joinsReply_program (noEnd : '>' ∉ '\n' :: others) {offset : Nat} {text : Text}
    {nodes : List Node} (done : Grammar.expression.Yields offset text [] nodes) :
    JoinsReply nodes (program ⟨offset + text.byteSize, .chars ('\n' :: others)⟩)
      (program ⟨offset, .chars (text ++ '\n' :: others)⟩) := by
  have rule : Grammar.expression = many (Rules.term .closed) := expression_eq
  have joins := joinsReply_expression noEnd (rule ▸ done)
  rw [← rule] at joins
  show JoinsReply nodes (Parser.bind Grammar.expression _ _) (Parser.bind Grammar.expression _ _)
  unfold Parser.bind
  cases reply : Grammar.expression ⟨offset + text.byteSize, .chars ('\n' :: others)⟩ with
  | fail failure =>
    rw [reply] at joins
    rw [joins]
    rfl
  | ok later last =>
    rw [reply] at joins
    obtain ⟨whole, joins, longer⟩ := joins
    rw [longer]
    show JoinsReply nodes (Parser.bind endOfInput _ last) (Parser.bind endOfInput _ last)
    unfold Parser.bind
    cases endOfInput last with
    | ok span last => exact ⟨whole, joins, rfl⟩
    | fail failure => rfl

end ViewScript.Grammar

namespace ViewScript

open Grammar ViewScript.Parser

theorem yields_expression_of_parse {source : Text} {nodes : List Node}
    (parsed : parse source = .ok nodes) : Grammar.expression.Yields 0 source [] nodes := by
  obtain ⟨next, done⟩ := parse_eq_ok_iff.mp parsed
  obtain ⟨_, middle, begun, rest⟩ := bind_eq_ok_iff.mp done
  obtain ⟨_, last, ended, ⟨⟩⟩ := bind_eq_ok_iff.mp rest
  obtain ⟨read, reads, -⟩ := isSound_closed.expression.ok begun
  obtain ⟨back, rfl, rfl⟩ := reads.exists_chars
  obtain ⟨_, nothing, rfl, empty⟩ := meets_endOfInput.ok ended
  cases nothing
  obtain rfl : back = [] := empty
  rw [List.append_nil]
  exact begun

/-- A text behind a program is read as it is by itself, with all offsets shifted. -/
theorem parse_append {source others : Text} {nodes : List Node} (noEnd : '>' ∉ '\n' :: others)
    (parsed : parse source = .ok nodes) :
    match parse ('\n' :: others) with
    | .ok later => ∃ whole, Joins nodes (shiftAll source.byteSize later) whole ∧
      parse (source ++ '\n' :: others) = .ok whole
    | .error failure =>
      parse (source ++ '\n' :: others) = .error (failure.shift source.byteSize) := by
  have joins := joinsReply_program noEnd (yields_expression_of_parse parsed)
  have follows := follows_production .program source.byteSize _ ⟨0, .chars ('\n' :: others)⟩
    (Nat.lt_succ_self _)
  rcases follows with ⟨later, last, done, done', -⟩ | ⟨failure, failed, failed'⟩
  · have here : program ⟨0 + source.byteSize, .chars ('\n' :: others)⟩ =
        .ok (shiftAll source.byteSize later) _ := done'
    rw [here] at joins
    obtain ⟨whole, joins, longer⟩ := joins
    rw [parse_eq_ok_iff.mpr ⟨last, done⟩]
    exact ⟨whole, joins, parse_eq_ok_iff.mpr ⟨_, longer⟩⟩
  · have here : program ⟨0 + source.byteSize, .chars ('\n' :: others)⟩ =
        .fail (failure.shift source.byteSize) := failed'
    rw [here] at joins
    rw [parse_eq_error_iff.mpr failed]
    exact parse_eq_error_iff.mpr joins

end ViewScript
