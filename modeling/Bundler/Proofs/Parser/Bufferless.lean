import Bundler.Proofs.Parser.Discipline
import Bundler.Proofs.Parser.Stream

/-!
# The buffer does not show

What a parser learns of its source through a token stream, it would also learn
without a buffer: from a reader that keeps the tokens consumed so far and
nothing else, and lexes whatever it is asked for behind the last of them.  The
two are run side by side, on any sequence of the operations that parsers have,
in which checkpoints are gone back to in the reverse of the order they were
taken in.
-/

namespace Bundler

/-- A source, and the tokens consumed of it, the first one first. -/
structure Unbuffered where
  source : List Char
  tokens : List Token

namespace Unbuffered

/-- The end of the last consumed token. -/
def lastEnd (reader : Unbuffered) : Nat :=
  (reader.tokens.getLast?.map (·.span.stop)).getD 0

/-- What lexing finds behind the last consumed token. -/
def next (mode : LexMode) (reader : Unbuffered) : Token :=
  (lexToken mode
    ⟨reader.lastEnd, Text.dropBytes reader.lastEnd reader.source⟩).token

def push (tokens : List Token) (reader : Unbuffered) : Unbuffered :=
  { reader with tokens := reader.tokens ++ tokens }

/-- The next tokens, each in a mode of its own. -/
def ahead : List LexMode → Unbuffered → List Token
  | [], _ => []
  | mode :: modes, reader =>
      reader.next mode :: ahead modes (reader.push [reader.next mode])

/-- Keeps the tokens that had been consumed at a checkpoint. -/
def restore (checkpoint : Checkpoint) (reader : Unbuffered) : Unbuffered :=
  { reader with tokens := reader.tokens.take checkpoint.consumed }

theorem push_push (first second : List Token) (reader : Unbuffered) :
    (reader.push first).push second = reader.push (first ++ second) := by
  rw [push, push, push, List.append_assoc]

theorem restore_push (tokens : List Token) (reader : Unbuffered) :
    (reader.push tokens).restore ⟨reader.tokens.length⟩ = reader := by
  rw [push, restore, List.take_left]

/-- The range of the tokens consumed since a checkpoint, if there are any. -/
def spanSince? (checkpoint : Checkpoint) (reader : Unbuffered) : Option Span :=
  match reader.tokens.drop checkpoint.consumed with
  | [] => none
  | first :: _ => some ⟨first.span.start, reader.lastEnd⟩

end Unbuffered

/-! ### Operations -/

/-- What a parser may do.  The checkpoints that it has taken and not gone back
behind are counted from the newest one. -/
inductive Operation
  | consume (mode : LexMode)
  | peek (mode : LexMode)
  | peekAhead (modes : List LexMode)
  /-- Consumes the next token if it satisfies a condition, such as to be of a
  certain kind. -/
  | consumeIf (mode : LexMode) (condition : Token → Bool)
  | checkpoint
  /-- Goes back to a checkpoint, which is given up with all newer ones. -/
  | restore (depth : Nat)
  | lastEnd
  | spanSince (depth : Nat)

/-- What a parser learns by an operation. -/
inductive Answer
  | token (token : Token) (consumed : Bool)
  | tokens (tokens : List Token)
  | offset (offset : Nat)
  | span (span : Option Span)
  | done

namespace Operation

/-- An operation on the token stream of a parser.  The range since a checkpoint
is asked for only when a token has been consumed since. -/
def perform (marks : List Checkpoint) :
    Operation → Parser (Answer × List Checkpoint)
  | consume mode => do return (.token (← Parser.consumeIn mode) true, marks)
  | peek mode => do return (.token (← Parser.peekIn mode) false, marks)
  | peekAhead modes => do return (.tokens (← Parser.peekAhead modes), marks)
  | consumeIf mode condition => do
      let token ← Parser.forward mode condition
      return (.token token (condition token), marks)
  | checkpoint => do return (.done, (← Parser.checkpoint) :: marks)
  | restore depth => do
      match marks[depth]? with
      | some mark =>
          Parser.restore mark
          return (.done, marks.drop (depth + 1))
      | none => return (.done, marks)
  | lastEnd => do return (.offset (← get).lastEnd, marks)
  | spanSince depth => do
      let stream ← get
      let span := marks[depth]?.bind fun mark =>
        if mark.consumed < stream.consumed then some (stream.spanSince mark)
        else none
      return (.span span, marks)

/-- The same operation without a buffer. -/
def reread (marks : List Checkpoint) (reader : Unbuffered) :
    Operation → Answer × List Checkpoint × Unbuffered
  | consume mode =>
      (.token (reader.next mode) true, marks, reader.push [reader.next mode])
  | peek mode => (.token (reader.next mode) false, marks, reader)
  | peekAhead modes => (.tokens (reader.ahead modes), marks, reader)
  | consumeIf mode condition =>
      if condition (reader.next mode) then
        (.token (reader.next mode) true, marks, reader.push [reader.next mode])
      else (.token (reader.next mode) false, marks, reader)
  | checkpoint => (.done, ⟨reader.tokens.length⟩ :: marks, reader)
  | restore depth =>
      match marks[depth]? with
      | some mark => (.done, marks.drop (depth + 1), reader.restore mark)
      | none => (.done, marks, reader)
  | lastEnd => (.offset reader.lastEnd, marks, reader)
  | spanSince depth =>
      (.span (marks[depth]?.bind reader.spanSince?), marks, reader)

/-- The answers to a sequence of operations. -/
def performAll : List Operation → List Checkpoint → Parser (List Answer)
  | [], _ => return []
  | operation :: operations, marks => do
      let (answer, marks) ← operation.perform marks
      return answer :: (← performAll operations marks)

/-- The same answers without a buffer. -/
def rereadAll :
    List Operation → List Checkpoint → Unbuffered → List Answer
  | [], _, _ => []
  | operation :: operations, marks, reader =>
      let (answer, marks, reader) := operation.reread marks reader
      answer :: rereadAll operations marks reader

end Operation

/-! ### Side by side -/

/-- A stream has consumed the tokens that a reader has, of the same source, and
the checkpoints are places that it has passed, the newest one last. -/
structure Mirrors (marks : List Checkpoint) (reader : Unbuffered)
    (stream : TokenStream) : Prop where
  reads : stream.Reads reader.source
  length_eq : reader.tokens.length = stream.consumed
  token_eq : ∀ index < stream.consumed,
    reader.tokens[index]? = stream.buffer[index]?.map (·.token)
  passed : ∀ mark ∈ marks, mark.consumed ≤ stream.consumed
  nested : marks.Pairwise
    fun later earlier => earlier.consumed ≤ later.consumed

namespace Mirrors

open TokenStream

variable {marks : List Checkpoint} {reader : Unbuffered}
  {stream : TokenStream}

theorem lastEnd_eq (h : Mirrors marks reader stream) :
    reader.lastEnd = stream.lastEnd := by
  rw [Unbuffered.lastEnd, TokenStream.lastEnd, List.getLast?_eq_getElem?,
    h.length_eq]
  by_cases hconsumed : stream.consumed = 0
  · have hempty : reader.tokens = [] :=
      List.eq_nil_of_length_eq_zero (h.length_eq.trans hconsumed)
    rw [if_pos hconsumed, hempty]
    rfl
  · rw [if_neg hconsumed, h.token_eq _ (by omega), Option.map_map]
    rfl

/-- The token that the stream has in front of it is the one found by lexing
anew. -/
theorem next_eq (h : Mirrors marks reader stream) (mode : LexMode) :
    (stream.prepare mode).upcoming = reader.next mode := by
  rw [h.reads.lexes.upcoming_prepare mode, h.reads.cursorAt_consumed,
    Unbuffered.next, h.lastEnd_eq]

theorem prepare (h : Mirrors marks reader stream) (mode : LexMode) :
    Mirrors marks reader (stream.prepare mode) where
  reads := ⟨h.reads.lexes.prepare mode,
    (origin_prepare mode stream).trans h.reads.origin_eq,
    (size_prepare mode stream).trans h.reads.size_eq⟩
  length_eq := by rw [consumed_prepare, h.length_eq]
  token_eq := by
    intro index hindex
    rw [consumed_prepare] at hindex
    rw [h.token_eq index hindex, h.reads.lexes.getElem?_prepare mode hindex]
  passed := by
    rw [consumed_prepare]
    exact h.passed
  nested := h.nested

theorem advance (h : Mirrors marks reader stream) (mode : LexMode) :
    Mirrors marks (reader.push [reader.next mode])
      (stream.prepare mode).advance := by
  have hprepared := h.prepare mode
  refine ⟨⟨h.reads.lexes.advance_prepare mode, hprepared.reads.origin_eq,
    hprepared.reads.size_eq⟩, ?_, ?_, ?_, h.nested⟩
  · rw [Unbuffered.push, List.length_append, hprepared.length_eq]
    rfl
  · intro index hindex
    rw [Unbuffered.push]
    rcases Nat.lt_succ_iff_lt_or_eq.mp hindex with hlt | rfl
    · rw [List.getElem?_append_left (by rw [hprepared.length_eq]; exact hlt)]
      exact hprepared.token_eq index hlt
    · have hnext := h.reads.lexes.getElem?_prepare_consumed mode
      rw [← consumed_prepare mode stream] at hnext
      rw [List.getElem?_append_right (Nat.le_of_eq hprepared.length_eq),
        hprepared.length_eq, Nat.sub_self, ← h.next_eq mode, upcoming]
      change _ = (stream.prepare mode).buffer[_]?.map _
      rw [hnext]
      rfl
  · exact fun mark hmark => Nat.le_succ_of_le (hprepared.passed mark hmark)

/-- A new checkpoint is the newest one. -/
theorem checkpoint (h : Mirrors marks reader stream) :
    Mirrors (stream.checkpoint :: marks) reader stream where
  reads := h.reads
  length_eq := h.length_eq
  token_eq := h.token_eq
  passed := List.forall_mem_cons.mpr ⟨Nat.le_refl _, h.passed⟩
  nested := List.pairwise_cons.mpr ⟨h.passed, h.nested⟩

/-- Going back to a checkpoint leaves the older ones. -/
theorem restore {mark : Checkpoint} (newer : List Checkpoint)
    (h : Mirrors (newer ++ mark :: marks) reader stream) :
    Mirrors marks (reader.restore mark) (stream.restore mark) := by
  have hle : mark.consumed ≤ stream.consumed :=
    h.passed mark (List.mem_append_right newer List.mem_cons_self)
  have hlexes := h.reads.lexes
  have hnested := List.pairwise_cons.mp (List.pairwise_append.mp h.nested).2.1
  refine ⟨⟨⟨Nat.zero_le _, Nat.le_trans hle hlexes.consumed_le,
    hlexes.cursor_eq, hlexes.lexed⟩, h.reads.origin_eq, h.reads.size_eq⟩,
    ?_, ?_, hnested.1, hnested.2⟩
  · rw [Unbuffered.restore, List.length_take, h.length_eq,
      Nat.min_eq_left hle]
    rfl
  · intro index hindex
    have hlt : index < mark.consumed := hindex
    rw [Unbuffered.restore, List.getElem?_take_of_lt hlt]
    exact h.token_eq index (Nat.lt_of_lt_of_le hlt hle)

/-- Looking at the next token, which is consumed if it is to be kept. -/
theorem forward (h : Mirrors marks reader stream) (mode : LexMode)
    (keep : Token → Bool) :
    ∃ later, Parser.forward mode keep stream =
        .ok (reader.next mode) later ∧
      Mirrors marks (if keep (reader.next mode) then
        reader.push [reader.next mode] else reader) later := by
  have hnext := h.next_eq mode
  refine ⟨(stream.forward mode keep).2, ?_, ?_⟩
  · rw [Parser.forward_eq, ← hnext]
    rfl
  · rw [TokenStream.forward, hnext]
    dsimp only
    split
    · exact h.advance mode
    · exact h.prepare mode

theorem consumeIn (h : Mirrors marks reader stream) (mode : LexMode) :
    ∃ later, Parser.consumeIn mode stream = .ok (reader.next mode) later ∧
      Mirrors marks (reader.push [reader.next mode]) later :=
  h.forward mode fun _ => true

theorem mapM_consumeIn (h : Mirrors marks reader stream)
    (modes : List LexMode) :
    ∃ later, modes.mapM Parser.consumeIn stream =
        .ok (reader.ahead modes) later ∧
      Mirrors marks (reader.push (reader.ahead modes)) later := by
  induction modes generalizing reader stream with
  | nil =>
      refine ⟨stream, rfl, ?_⟩
      rw [Unbuffered.ahead, Unbuffered.push, List.append_nil]
      exact h
  | cons mode modes ih =>
      obtain ⟨between, hfirst, hpushed⟩ := h.consumeIn mode
      obtain ⟨later, hrest, hlater⟩ := ih hpushed
      refine ⟨later, ?_, ?_⟩
      · rw [List.mapM_cons, Outcome.bind_of_ok hfirst,
          Outcome.bind_of_ok hrest]
        rfl
      · rw [Unbuffered.push_push] at hlater
        exact hlater

theorem peekAhead (h : Mirrors marks reader stream) (modes : List LexMode) :
    ∃ later, Parser.peekAhead modes stream = .ok (reader.ahead modes) later ∧
      Mirrors marks reader later := by
  obtain ⟨later, hrun, hlater⟩ := h.checkpoint.mapM_consumeIn modes
  refine ⟨later.restore stream.checkpoint, ?_, ?_⟩
  · rw [Parser.peekAhead_eq, Parser.rewinding_of_ok hrun, if_pos rfl]
    rfl
  · have hback := Mirrors.restore [] hlater
    rw [TokenStream.checkpoint, ← h.length_eq] at hback ⊢
    rwa [Unbuffered.restore_push] at hback

/-- The range since a checkpoint, once there is something in it. -/
theorem spanSince_eq (h : Mirrors marks reader stream) {mark : Checkpoint} :
    reader.spanSince? mark =
      if mark.consumed < stream.consumed then some (stream.spanSince mark)
      else none := by
  rw [Unbuffered.spanSince?]
  split
  · rename_i hnone
    rw [List.drop_eq_nil_iff, h.length_eq] at hnone
    rw [if_neg (Nat.not_lt_of_le hnone)]
  · rename_i first rest hfirst
    have htoken : reader.tokens[mark.consumed]? = some first := by
      rw [← List.head?_drop, hfirst]
      rfl
    have hlt : mark.consumed < stream.consumed := by
      rw [← h.length_eq]
      exact (List.getElem?_eq_some_iff.mp htoken).1
    rw [h.token_eq _ hlt, Option.map_eq_some_iff] at htoken
    obtain ⟨next, hnext, rfl⟩ := htoken
    rw [if_pos hlt, spanSince, if_neg (Nat.not_le_of_lt hlt), hnext,
      h.lastEnd_eq]
    rfl

/-- Each operation gives the same answer with and without a buffer. -/
theorem perform (h : Mirrors marks reader stream) (operation : Operation) :
    ∃ later, operation.perform marks stream =
        .ok ((operation.reread marks reader).1,
          (operation.reread marks reader).2.1) later ∧
      Mirrors (operation.reread marks reader).2.1
        (operation.reread marks reader).2.2 later := by
  cases operation with
  | consume mode =>
      obtain ⟨later, hrun, hlater⟩ := h.consumeIn mode
      refine ⟨later, ?_, hlater⟩
      rw [Operation.perform, Outcome.bind_of_ok hrun]
      rfl
  | peek mode =>
      obtain ⟨later, hrun, hlater⟩ := h.forward mode fun _ => false
      refine ⟨later, ?_, hlater⟩
      rw [Operation.perform, Parser.peekIn, Outcome.bind_of_ok hrun]
      rfl
  | peekAhead modes =>
      obtain ⟨later, hrun, hlater⟩ := h.peekAhead modes
      refine ⟨later, ?_, hlater⟩
      rw [Operation.perform, Outcome.bind_of_ok hrun]
      rfl
  | consumeIf mode condition =>
      obtain ⟨later, hrun, hlater⟩ := h.forward mode condition
      refine ⟨later, ?_, ?_⟩
      · rw [Operation.perform, Outcome.bind_of_ok hrun, Operation.reread]
        cases condition (reader.next mode) <;> rfl
      · rw [Operation.reread]
        cases hkeep : condition (reader.next mode) with
        | false => simpa [hkeep] using hlater
        | true => simpa [hkeep] using hlater
  | checkpoint =>
      refine ⟨stream, ?_, ?_⟩
      · rw [Operation.perform, Outcome.bind_of_ok (Parser.checkpoint_eq stream),
          Operation.reread, h.length_eq]
        rfl
      · rw [Operation.reread, h.length_eq]
        exact h.checkpoint
  | restore depth =>
      rw [Operation.perform, Operation.reread]
      cases hmark : marks[depth]? with
      | none => exact ⟨stream, rfl, h⟩
      | some mark =>
          refine ⟨stream.restore mark, rfl, ?_⟩
          obtain ⟨hdepth, hget⟩ := List.getElem?_eq_some_iff.mp hmark
          apply Mirrors.restore (marks.take depth)
          rwa [← hget, ← List.drop_eq_getElem_cons hdepth,
            List.take_append_drop]
  | lastEnd =>
      refine ⟨stream, ?_, h⟩
      rw [Operation.reread, h.lastEnd_eq]
      rfl
  | spanSince depth =>
      refine ⟨stream, ?_, h⟩
      have hspan : reader.spanSince? = fun mark =>
          if mark.consumed < stream.consumed then some (stream.spanSince mark)
          else none := funext fun _ => h.spanSince_eq
      rw [Operation.reread, hspan]
      rfl

theorem performAll (h : Mirrors marks reader stream)
    (operations : List Operation) :
    ∃ later, Operation.performAll operations marks stream =
      .ok (Operation.rereadAll operations marks reader) later := by
  induction operations generalizing marks reader stream with
  | nil => exact ⟨stream, rfl⟩
  | cons operation operations ih =>
      obtain ⟨between, hfirst, hbetween⟩ := h.perform operation
      obtain ⟨later, hrest⟩ := ih hbetween
      refine ⟨later, ?_⟩
      rw [Operation.performAll, Outcome.bind_of_ok hfirst]
      dsimp only
      rw [Outcome.bind_of_ok hrest]
      rfl

end Mirrors

/-- Whatever a parser does with the token stream of a source, it learns what it
would learn by lexing anew each token it asks for. -/
theorem performAll_eq_rereadAll (source : List Char)
    (operations : List Operation) :
    ∃ stream,
      Operation.performAll operations [] (TokenStream.ofSource source) =
        .ok (Operation.rereadAll operations [] ⟨source, []⟩) stream := by
  apply Mirrors.performAll
  refine ⟨⟨TokenStream.lexes_ofSource source, rfl, rfl⟩, rfl, ?_, ?_, .nil⟩
  · exact fun index hindex => absurd hindex (Nat.not_lt_zero index)
  · exact fun mark hmark => absurd hmark List.not_mem_nil

end Bundler
