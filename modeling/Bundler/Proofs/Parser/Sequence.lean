import Bundler.Proofs.Parser.Locality
import Bundler.Proofs.Parser.Rules
import Mathlib.Data.List.Forall2

/-!
# Sequences of statements

A statement spans the tokens that it consumes, and a source is its statements
one after the other.  Since parsers are local, a source is read as statements
at given places exactly if each of them is read on its own, from where the one
before it ends.
-/

namespace Bundler

open Bundler.Parser

namespace Parser

variable {α : Type}

/-- A parser yields nodes that span what it consumes. -/
def Spanning (parser : Parser Node) : Prop :=
  ∀ stream node after, parser stream = .ok node after →
    node.span = after.spanSince stream.checkpoint

theorem spanning_node (shape : Parser (Shape Node)) :
    Spanning (node shape) := by
  intro stream found after hrun
  rw [node] at hrun
  cases hshape : shape stream with
  | ok value between =>
      rw [Outcome.bind_of_ok (withSpan_of_ok hshape)] at hrun
      cases hrun
      rfl
  | error failure between =>
      rw [Outcome.bind_of_error (withSpan_of_error hshape)] at hrun
      cases hrun

/-- Looking ahead does not count as consuming. -/
theorem Spanning.rewinding {parser : Parser α} {next : α → Parser Node}
    (h : ∀ value, Spanning (next value)) :
    Spanning (rewinding parser (fun _ => true) next) := by
  intro stream found after hrun
  cases hparser : parser stream with
  | ok value between =>
      rw [rewinding_of_ok hparser, if_pos rfl] at hrun
      have hspan := h value _ found after hrun
      exact hspan
  | error failure between =>
      rw [rewinding_of_error hparser] at hrun
      cases hrun

end Parser

namespace Grammar

section Spanning

variable (grammar : Grammar)

theorem spanning_otherStatement (first second : Token) :
    Spanning (grammar.otherStatement first second) := by
  rw [otherStatement]
  split
  · exact spanning_node _
  · split
    · exact spanning_node _
    · exact spanning_node _

theorem spanning_forStatement : Spanning grammar.forStatement := by
  rw [forStatement_eq]
  apply Spanning.rewinding
  intro kind
  cases kind with
  | counting => exact spanning_node _
  | keys => exact spanning_node _
  | values => exact spanning_node _

theorem spanning_wordStatement (first second : Token) (word : Keyword) :
    Spanning (grammar.wordStatement first second word) := by
  unfold wordStatement
  split
  case h_8 => exact grammar.spanning_forStatement
  all_goals (try split)
  all_goals first
    | exact spanning_node _
    | exact grammar.spanning_otherStatement first second

theorem statementRule_eq :
    grammar.statementRule =
      rewinding (do return (← consume, ← consume)) (fun _ => true)
        fun (first, second) =>
          match first.kind with
          | .punctuator .braceOpen => grammar.blockStatement
          | .punctuator .semicolon => emptyStatement
          | .keyword word => grammar.wordStatement first second word
          | _ => grammar.otherStatement first second := by
  funext stream
  rfl

theorem spanning_statementRule : Spanning grammar.statementRule := by
  rw [statementRule_eq]
  apply Spanning.rewinding
  rintro ⟨first, second⟩
  dsimp only
  split
  · exact spanning_node _
  · exact spanning_node _
  · exact grammar.spanning_wordStatement first second _
  · exact grammar.spanning_otherStatement first second

theorem spanning_statement (rules : NameRules) (depth : Nat) :
    Spanning (ofDepth rules depth).statement := by
  cases depth with
  | zero =>
      intro stream node after hrun
      cases hrun
  | succ depth => exact (ofDepth rules depth).spanning_statementRule

end Spanning

end Grammar

/-! ### Collecting -/

namespace Parser

variable {α : Type} {item : Parser (Option α)} {stream after : TokenStream}

/-- Runs of a parser one after the other, up to the one that yields nothing. -/
inductive Collects (item : Parser (Option α)) :
    TokenStream → List α → TokenStream → Prop
  | done {stream after : TokenStream} :
      item stream = .ok none after → Collects item stream [] after
  | more {stream between after : TokenStream} {value : α} {others : List α} :
      item stream = .ok (some value) between →
      Collects item between others after →
      Collects item stream (value :: others) after

/-- One step of collecting. -/
def collectStep (item : Parser (Option α)) (found : List α) :
    Parser (List α ⊕ List α) := do
  match ← item with
  | some value => return .inl (value :: found)
  | none => return .inr found

section Collects

variable {between : TokenStream} {values : List α}

theorem not_collects_of_error {failure : ParseFailure}
    (h : item stream = .error failure between) :
    ¬ Collects item stream values after := by
  intro hcollects
  cases hcollects with
  | done hdone => simp [h] at hdone
  | more hmore => simp [h] at hmore

theorem collects_of_none (h : item stream = .ok none between) :
    Collects item stream values after ↔ values = [] ∧ after = between := by
  constructor
  · intro hcollects
    cases hcollects with
    | done hdone =>
        rw [h] at hdone
        cases hdone
        exact ⟨rfl, rfl⟩
    | more hmore => simp [h] at hmore
  · rintro ⟨rfl, rfl⟩
    exact .done h

theorem collects_of_some {value : α}
    (h : item stream = .ok (some value) between) :
    Collects item stream values after ↔
      ∃ others, values = value :: others ∧
        Collects item between others after := by
  constructor
  · intro hcollects
    cases hcollects with
    | done hdone => simp [h] at hdone
    | more hmore hothers =>
        rw [h] at hmore
        cases hmore
        exact ⟨_, rfl, hothers⟩
  · rintro ⟨others, rfl, hothers⟩
    exact .more h hothers

end Collects

theorem iterateWith_collectStep_iff {fuel : Nat} {found result : List α} :
    iterateWith (collectStep item) fuel found stream = .ok result after ↔
      ∃ values, Collects item stream values after ∧
        values.length < fuel ∧ result = values.reverse ++ found := by
  induction fuel generalizing found stream with
  | zero =>
      constructor
      · intro hrun
        cases hrun
      · rintro ⟨values, _, hlength, _⟩
        exact absurd hlength (Nat.not_lt_zero _)
  | succ fuel ih =>
      rw [iterateWith]
      cases hitem : item stream with
      | error failure between =>
          have hstep : collectStep item found stream =
              .error failure between := Outcome.bind_of_error hitem
          rw [Outcome.bind_of_error hstep]
          constructor
          · intro hrun
            cases hrun
          · rintro ⟨values, hcollects, _⟩
            exact absurd hcollects (not_collects_of_error hitem)
      | ok next between =>
          cases next with
          | none =>
              have hstep : collectStep item found stream =
                  .ok (.inr found) between := Outcome.bind_of_ok hitem
              rw [Outcome.bind_of_ok hstep]
              simp only [collects_of_none hitem]
              constructor
              · intro hrun
                cases hrun
                exact ⟨[], ⟨rfl, rfl⟩, Nat.succ_pos fuel, rfl⟩
              · rintro ⟨values, ⟨rfl, rfl⟩, _, rfl⟩
                rfl
          | some value =>
              have hstep : collectStep item found stream =
                  .ok (.inl (value :: found)) between :=
                Outcome.bind_of_ok hitem
              rw [Outcome.bind_of_ok hstep]
              apply ih.trans
              simp only [collects_of_some hitem]
              constructor
              · rintro ⟨others, hothers, hlength, rfl⟩
                exact ⟨_, ⟨others, rfl, hothers⟩, Nat.succ_lt_succ hlength,
                  by simp⟩
              · rintro ⟨values, ⟨others, rfl, hothers⟩, hlength, rfl⟩
                exact ⟨others, hothers, Nat.lt_of_succ_lt_succ hlength,
                  by simp⟩

theorem collect_eq_ok_iff {values : List α} :
    collect item stream = .ok values after ↔
      Collects item stream values after ∧
        values.length < stream.unread + 2 := by
  have hcollect : collect item stream =
      (iterateWith (collectStep item) (stream.unread + 2) [] >>=
        fun found => pure found.reverse) stream := rfl
  rw [hcollect, Outcome.bind_eq_ok_iff]
  constructor
  · rintro ⟨found, between, hrun, hpure⟩
    obtain ⟨rfl, rfl⟩ := Outcome.pure_eq_ok_iff.mp hpure
    obtain ⟨values, hcollects, hlength, rfl⟩ :=
      iterateWith_collectStep_iff.mp hrun
    rw [List.append_nil, List.reverse_reverse]
    exact ⟨hcollects, hlength⟩
  · rintro ⟨hcollects, hlength⟩
    refine ⟨values.reverse, after, ?_, ?_⟩
    · apply iterateWith_collectStep_iff.mpr
      exact ⟨values, hcollects, hlength, (List.append_nil _).symm⟩
    · rw [List.reverse_reverse]
      rfl

end Parser

/-! ### Statements at places -/

/-- A node spans a range that is not empty. -/
def Node.Fills (node : Node) (place : Span) : Prop :=
  node.span = place ∧ place.start < place.stop

namespace Grammar

open TokenStream

variable (grammar : Grammar) {text : List Char} {places : List Span}
  {stream after : TokenStream}

/-- The next statement, unless the source ends. -/
def nextStatement : Parser (Option Node) := do
  if [TokenKind.endOfInput].contains (← peekKind) then return none
  else return some (← grammar.statement)

/-- Each place is filled by the statement that is read where the place before it
ends, the first one from an offset on, and behind the last place the source
ends. -/
def ReadsApart (text : List Char) (start : Nat) (places : List Span) : Prop :=
  ∀ (index stop : Nat),
    (start :: places.map (·.stop))[index]? = some stop →
      ∃ found, readBehind grammar.nextStatement text stop = some found ∧
        Option.Rel Node.Fills found places[index]?

theorem readsApart_nil {start : Nat} :
    grammar.ReadsApart text start [] ↔
      readBehind grammar.nextStatement text start = some none := by
  constructor
  · intro h
    obtain ⟨found, hread, hrel⟩ := h 0 start rfl
    cases hrel
    exact hread
  · intro hread index stop hstop
    cases index with
    | zero =>
        cases hstop
        exact ⟨none, hread, .none⟩
    | succ index => cases hstop

theorem readsApart_cons {start : Nat} {place : Span} :
    grammar.ReadsApart text start (place :: places) ↔
      (∃ node, readBehind grammar.nextStatement text start =
          some (some node) ∧ node.Fills place) ∧
        grammar.ReadsApart text place.stop places := by
  constructor
  · intro h
    constructor
    · obtain ⟨found, hread, hrel⟩ := h 0 start rfl
      cases hrel with
      | some hfills => exact ⟨_, hread, hfills⟩
    · exact fun index stop hstop => h (index + 1) stop hstop
  · rintro ⟨⟨node, hread, hfills⟩, hothers⟩ index stop hstop
    cases index with
    | zero =>
        cases hstop
        exact ⟨some node, hread, .some hfills⟩
    | succ index => exact hothers index stop hstop

theorem disciplined_nextStatement [grammar.IsDisciplined] :
    Disciplined false grammar.nextStatement := by
  rw [nextStatement]
  infer_instance

theorem peekKind_eq (stream : TokenStream) :
    peekKind stream = .ok (stream.prepare .standard).upcoming.kind
      (stream.prepare .standard) := rfl

/-- A statement that follows is read on its own. -/
theorem statement_of_nextStatement {node : Node}
    (hrun : grammar.nextStatement stream = .ok (some node) after) :
    grammar.statement (stream.prepare .standard) = .ok node after := by
  rw [nextStatement, Outcome.bind_of_ok (peekKind_eq stream)] at hrun
  split at hrun
  · cases hrun
  · obtain ⟨found, between, hstatement, hpure⟩ :=
      Outcome.bind_eq_ok_iff.mp hrun
    cases hpure
    exact hstatement

/-- Behind a statement that fills a place, reading goes on where the place
ends. -/
theorem lastEnd_of_fills (hspanning : Spanning grammar.statement)
    {node : Node} {place : Span}
    (hrun : grammar.nextStatement stream = .ok (some node) after)
    (hfills : node.Fills place) : after.lastEnd = place.stop := by
  have hspan := hspanning _ _ _ (grammar.statement_of_nextStatement hrun)
  obtain ⟨rfl, hlt⟩ := hfills
  rw [hspan, spanSince] at hlt ⊢
  split at hlt
  · exact absurd hlt (Nat.lt_irrefl _)
  · rename_i hconsumed
    rw [if_neg hconsumed]

/-- Statements are collected at places just if each is read on its own. -/
theorem collects_iff_readsApart [grammar.IsDisciplined]
    (hspanning : Spanning grammar.statement) (hstream : stream.Reads text) :
    (∃ nodes after, Collects grammar.nextStatement stream nodes after ∧
      List.Forall₂ Node.Fills nodes places) ↔
        grammar.ReadsApart text stream.lastEnd places := by
  have hnext := grammar.disciplined_nextStatement
  induction places generalizing stream with
  | nil =>
      rw [readsApart_nil, hnext.readBehind_eq_some_iff hstream]
      constructor
      · rintro ⟨nodes, after, hcollects, hfills⟩
        cases hfills
        cases hcollects with
        | done hdone => exact ⟨after, hdone⟩
      · rintro ⟨after, hdone⟩
        exact ⟨[], after, .done hdone, .nil⟩
  | cons place places ih =>
      rw [readsApart_cons]
      constructor
      · rintro ⟨nodes, after, hcollects, hfills⟩
        obtain _ | ⟨hfills, hothers⟩ := hfills
        obtain _ | ⟨hrun, hcollects⟩ := hcollects
        have hread := (hnext.readBehind_eq_some_iff hstream).mpr ⟨_, hrun⟩
        have hstop := grammar.lastEnd_of_fills hspanning hrun hfills
        refine ⟨⟨_, hread, hfills⟩, ?_⟩
        rw [← hstop]
        exact (ih (hnext.reads hstream hrun)).mp
          ⟨_, after, hcollects, hothers⟩
      · rintro ⟨⟨node, hread, hfills⟩, hothers⟩
        obtain ⟨between, hrun⟩ :=
          (hnext.readBehind_eq_some_iff hstream).mp hread
        rw [← grammar.lastEnd_of_fills hspanning hrun hfills] at hothers
        obtain ⟨nodes, after, hcollects, hnodes⟩ :=
          (ih (hnext.reads hstream hrun)).mpr hothers
        exact ⟨node :: nodes, after, .more hrun hcollects,
          .cons hfills hnodes⟩

/-- Where no statement follows, the end of the source is found again. -/
theorem require_endOfInput (hstream : stream.Reads text)
    (hrun : grammar.nextStatement stream = .ok none after) :
    ∃ token last, require .endOfInput after = .ok token last := by
  rw [nextStatement, Outcome.bind_of_ok (peekKind_eq stream)] at hrun
  split at hrun
  · rename_i hkind
    cases hrun
    have hcursor : (stream.prepare .standard).cursorAt stream.consumed =
        stream.cursorAt stream.consumed :=
      cursorAt_congr (origin_prepare .standard stream) fun index hindex =>
        hstream.lexes.getElem?_prepare .standard hindex
    have hupcoming :
        ((stream.prepare .standard).prepare .standard).upcoming =
          (stream.prepare .standard).upcoming := by
      rw [(hstream.lexes.prepare .standard).upcoming_prepare,
        consumed_prepare, hcursor, hstream.lexes.upcoming_prepare]
    have hend : ((stream.prepare .standard).prepare .standard).upcoming.kind =
        .endOfInput := by
      rw [hupcoming]
      simpa using hkind
    rw [require, requireIn, consumeIn, Outcome.bind_of_ok (forward_eq _ _ _)]
    exact ⟨_, _, congrFun (if_pos hend) _⟩
  · obtain ⟨found, between, _, hpure⟩ := Outcome.bind_eq_ok_iff.mp hrun
    cases hpure

theorem require_of_collects [grammar.IsDisciplined] {nodes : List Node}
    (hstream : stream.Reads text)
    (hcollects : Collects grammar.nextStatement stream nodes after) :
    ∃ token last, require .endOfInput after = .ok token last := by
  have hnext := grammar.disciplined_nextStatement
  induction hcollects with
  | done hrun => exact grammar.require_endOfInput hstream hrun
  | more hrun _ ih => exact ih (hnext.reads hstream hrun)

/-- Collected statements are read on their own, each from some place of the
text. -/
theorem exists_run_of_collects [grammar.IsDisciplined] {nodes : List Node}
    (hstream : stream.Reads text)
    (hcollects : Collects grammar.nextStatement stream nodes after) :
    ∀ node ∈ nodes, ∃ start stop, start.Reads text ∧
      grammar.statement start = .ok node stop := by
  have hnext := grammar.disciplined_nextStatement
  induction hcollects with
  | done _ => exact fun _ hmem => absurd hmem List.not_mem_nil
  | @more stream between after value others hrun _ ih =>
      refine List.forall_mem_cons.mpr ⟨?_, ih (hnext.reads hstream hrun)⟩
      have hprepared : (stream.prepare .standard).Reads text :=
        (inferInstance : Disciplined true peekKind).reads hstream
          (peekKind_eq stream)
      exact ⟨_, between, hprepared, grammar.statement_of_nextStatement hrun⟩

end Grammar

namespace Program

open TokenStream

variable {source : String} {places : List Span}

theorem run_eq_ok_iff {α : Type} {parser : Parser α} {value : α}
    {after : TokenStream} :
    parser.run source = .ok (value, after) ↔
      parser (ofSource source.toList) = .ok value after := by
  rw [Parser.run]
  cases hrun : parser (ofSource source.toList) with
  | ok found last => simp
  | error failure last => cases failure <;> simp

theorem reads_ofSource (text : List Char) : (ofSource text).Reads text :=
  ⟨lexes_ofSource text, rfl, rfl⟩

/-- The statements of a source, behind which it ends. -/
def wholeSource (source : String) : Parser (List Node) := do
  let statements ← (Grammar.forSource .module source).statements
  let _ ← require .endOfInput
  return statements

theorem parse_eq :
    parse source = do
      let (statements, stream) ← (wholeSource source).run source
      return ⟨⟨0, source.utf8ByteSize⟩, statements,
        stream.comments.reverse⟩ := rfl

/-- A program is its statements: once they are read, the source has come to its
end. -/
theorem parse_eq_ok_iff {nodes : List Node} :
    (∃ program, parse source = .ok program ∧ program.statements = nodes) ↔
      ∃ after, (Grammar.forSource .module source).statements
        (ofSource source.toList) = .ok nodes after := by
  rw [parse_eq]
  constructor
  · rintro ⟨program, hprogram, rfl⟩
    obtain ⟨⟨found, last⟩, hrun, hpure⟩ := Except.bind_eq_ok_iff.mp hprogram
    obtain rfl := Except.ok.inj hpure
    obtain ⟨nodes, between, hstatements, hrest⟩ :=
      Outcome.bind_eq_ok_iff.mp (run_eq_ok_iff.mp hrun)
    obtain ⟨token, ending, _, hpure⟩ := Outcome.bind_eq_ok_iff.mp hrest
    obtain ⟨rfl, _⟩ := Outcome.pure_eq_ok_iff.mp hpure
    exact ⟨between, hstatements⟩
  · rintro ⟨after, hstatements⟩
    obtain ⟨token, last, hrequire⟩ := Grammar.require_of_collects _
      (reads_ofSource source.toList) (collect_eq_ok_iff.mp hstatements).1
    have hwhole : wholeSource source (ofSource source.toList) =
        .ok nodes last := by
      calc wholeSource source (ofSource source.toList)
          = (require .endOfInput >>= fun _ => pure nodes) after :=
            Outcome.bind_of_ok hstatements
        _ = (pure nodes : Parser (List Node)) last :=
            Outcome.bind_of_ok hrequire
    rw [run_eq_ok_iff.mpr hwhole]
    exact ⟨_, rfl, rfl⟩

/-- The statements of a program are read on their own, each from some place of its
source. -/
theorem exists_run_of_parse {program : Program}
    (hparse : parse source = .ok program) :
    ∀ statement ∈ program.statements, ∃ start stop,
      start.Reads source.toList ∧
        (Grammar.forSource .module source).statement start =
          .ok statement stop := by
  obtain ⟨last, hrun⟩ := parse_eq_ok_iff.mp ⟨program, hparse, rfl⟩
  exact Grammar.exists_run_of_collects _ (reads_ofSource source.toList)
    (collect_eq_ok_iff.mp hrun).1

/-- A source is read as statements at given places exactly if each of them is
read on its own. -/
theorem fills_iff_readsApart
    (hlength : places.length ≤ Text.byteLength source.toList + 1) :
    (∃ program, parse source = .ok program ∧
      List.Forall₂ Node.Fills program.statements places) ↔
        (Grammar.forSource .module source).ReadsApart source.toList 0
          places := by
  have hspanning :
      Spanning (Grammar.forSource .module source).statement :=
    Grammar.spanning_statement .module _
  apply Iff.trans _ (Grammar.collects_iff_readsApart _ hspanning
    (reads_ofSource source.toList))
  constructor
  · rintro ⟨program, hparse, hfills⟩
    obtain ⟨after, hstatements⟩ :=
      parse_eq_ok_iff.mp ⟨program, hparse, rfl⟩
    exact ⟨_, after, (collect_eq_ok_iff.mp hstatements).1, hfills⟩
  · rintro ⟨nodes, after, hcollects, hfills⟩
    have hfuel : nodes.length < (ofSource source.toList).unread + 2 := by
      rw [hfills.length_eq]
      exact Nat.lt_succ_of_le hlength
    obtain ⟨program, hparse, rfl⟩ :=
      parse_eq_ok_iff.mpr ⟨after, collect_eq_ok_iff.mpr ⟨hcollects, hfuel⟩⟩
    exact ⟨program, hparse, hfills⟩

end Program

end Bundler
