import Bundler.Proofs.Lexer.Margins
import Bundler.Proofs.Parser.Sequence
import Bundler.Proofs.Parser.StatementPlaces

/-!
# Locations

What is reported of a source is placed in it.  The nodes of a program span
ranges on character boundaries, each within the range of the node it is a part
of, and an error names such a range as well.  The statements of a program stand
one behind the other, and around them there is nothing but white space, line
terminators and comments, so every token belongs to one of them.
-/

namespace Bundler

open Bundler.Parser TokenStream

variable {text : List Char} {stream after : TokenStream}

/-- From an offset on, a text is nodes one behind the other, and around them
nothing but gaps. -/
def LaidOut (text : List Char) (start : Nat) : List Node → Prop
  | [] => ∃ comments, IsGap text start (Text.byteLength text) comments
  | node :: others =>
      (∃ comments, IsGap text start node.span.start comments) ∧
        LaidOut text node.span.stop others

theorem IsGap.le {start stop : Nat} {comments : List Comment}
    (h : IsGap text start stop comments) : start ≤ stop := by
  obtain ⟨_, _, _, _, _, rfl, _⟩ := h
  exact Nat.le_add_right _ _

/-- Nodes that are laid out stand behind the place where they start. -/
theorem LaidOut.le_start {start : Nat} {nodes : List Node}
    (h : LaidOut text start nodes)
    (hnodes : ∀ node ∈ nodes, node.span.start ≤ node.span.stop) :
    ∀ node ∈ nodes, start ≤ node.span.start := by
  induction nodes generalizing start with
  | nil => exact fun _ hmem => absurd hmem List.not_mem_nil
  | cons node others ih =>
      obtain ⟨⟨_, hgap⟩, hrest⟩ := h
      obtain ⟨hnode, hothers⟩ := List.forall_mem_cons.mp hnodes
      exact List.forall_mem_cons.mpr ⟨hgap.le, fun other hother =>
        Nat.le_trans hgap.le (Nat.le_trans hnode
          (ih hrest hothers other hother))⟩

/-- Nodes that are laid out do not overlap. -/
theorem LaidOut.pairwise {start : Nat} {nodes : List Node}
    (h : LaidOut text start nodes)
    (hnodes : ∀ node ∈ nodes, node.span.start ≤ node.span.stop) :
    nodes.Pairwise fun first second =>
      first.span.stop ≤ second.span.start := by
  induction nodes generalizing start with
  | nil => exact .nil
  | cons node others ih =>
      have hothers := (List.forall_mem_cons.mp hnodes).2
      exact .cons (h.2.le_start hothers) (ih h.2 hothers)

namespace TokenStream

/-- The range of some tokens stands behind a gap, and ends where the last one of
them ends. -/
theorem Reads.gap_spanSince (h : stream.Reads text) {first : Nat}
    (hlt : first < stream.consumed) :
    let span := stream.spanSince ⟨first⟩
    (∃ comments, IsGap text (stream.cursorAt first).offset span.start
      comments) ∧ span.stop = stream.lastEnd := by
  obtain ⟨next, hnext⟩ := h.lexes.exists_consumed hlt
  have hsize := Nat.lt_of_lt_of_le hlt h.lexes.consumed_le
  have hgap := (h.cursorAt_isIn (Nat.le_of_lt hsize)).1.gap next.mode
  have htoken := h.lexes.lexed first next (Nat.zero_le _) hnext
  dsimp only
  rw [spanSince_of_lt hlt hnext, htoken]
  exact ⟨⟨_, hgap⟩, rfl⟩

end TokenStream

namespace Grammar

variable (grammar : Grammar)

/-- Where no statement follows, there is nothing but a gap up to the end. -/
theorem gap_of_nextStatement (hstream : stream.Reads text)
    (hrun : grammar.nextStatement stream = .ok none after) :
    ∃ comments,
      IsGap text stream.lastEnd (Text.byteLength text) comments := by
  have hcursor := (hstream.cursorAt_isIn hstream.lexes.consumed_le).1
  rw [nextStatement, Outcome.bind_of_ok (peekKind_eq stream)] at hrun
  split at hrun
  · rename_i hkind
    rw [hstream.lexes.upcoming_prepare] at hkind
    have hgap := hcursor.gap .standard
    rw [hcursor.span_endOfInput (by simpa using hkind),
      ← hstream.lastEnd_eq_offset] at hgap
    exact ⟨_, hgap⟩
  · obtain ⟨_, _, _, hpure⟩ := Outcome.bind_eq_ok_iff.mp hrun
    cases hpure

variable [grammar.IsDisciplined] [grammar.IsAdvancing]

/-- A statement that follows stands behind a gap. -/
theorem gap_of_statement (hspanning : Spanning grammar.statement)
    (hstream : stream.Reads text) {node : Node}
    (hrun : grammar.nextStatement stream = .ok (some node) after) :
    (∃ comments, IsGap text stream.lastEnd node.span.start comments) ∧
      node.span.stop = after.lastEnd := by
  have hnext := grammar.disciplined_nextStatement
  have hafter := hnext.reads hstream hrun
  have hleads := (hnext.leads hstream.lexes hrun).2
  have hstatement := grammar.statement_of_nextStatement hrun
  have hadvances : Advances grammar.statement := inferInstance
  have hlt := hadvances.lt hstatement
  rw [consumed_prepare] at hlt
  have hspan : node.span = after.spanSince ⟨stream.consumed⟩ := by
    rw [hspanning _ _ _ hstatement, TokenStream.checkpoint,
      consumed_prepare]
  obtain ⟨hgap, hstop⟩ := hafter.gap_spanSince hlt
  rw [hleads.cursorAt_eq hstream hafter, ← hstream.lastEnd_eq_offset,
    ← hspan] at hgap
  rw [← hspan] at hstop
  exact ⟨hgap, hstop⟩

/-- Statements that are collected are laid out up to the end of the text. -/
theorem laidOut_of_collects (hspanning : Spanning grammar.statement)
    (hstream : stream.Reads text) {nodes : List Node}
    (hcollects : Collects grammar.nextStatement stream nodes after) :
    LaidOut text stream.lastEnd nodes := by
  have hnext := grammar.disciplined_nextStatement
  induction hcollects with
  | done hrun => exact grammar.gap_of_nextStatement hstream hrun
  | more hrun _ ih =>
      obtain ⟨hgap, hstop⟩ := grammar.gap_of_statement hspanning hstream hrun
      have hothers := ih (hnext.reads hstream hrun)
      rw [← hstop] at hothers
      exact ⟨hgap, hothers⟩

/-- A statement starts in front of the end of the text. -/
theorem start_lt_of_statement (hspanning : Spanning grammar.statement)
    (hstream : stream.Reads text) {node : Node}
    (hrun : grammar.nextStatement stream = .ok (some node) after) :
    node.span.start < Text.byteLength text := by
  obtain ⟨⟨comments, hgap⟩, -⟩ :=
    grammar.gap_of_statement hspanning hstream hrun
  refine Nat.lt_of_le_of_ne hgap.stop_le fun hend => ?_
  have hcursor := (hstream.cursorAt_isIn hstream.lexes.consumed_le).1
  rw [hend, hstream.lastEnd_eq_offset] at hgap
  have hkind := hcursor.kind_of_gap hgap
  rw [nextStatement, Outcome.bind_of_ok (peekKind_eq stream),
    hstream.lexes.upcoming_prepare, hkind] at hrun
  cases hrun

theorem start_lt_of_collects (hspanning : Spanning grammar.statement)
    (hstream : stream.Reads text) {nodes : List Node}
    (hcollects : Collects grammar.nextStatement stream nodes after) :
    ∀ node ∈ nodes, node.span.start < Text.byteLength text := by
  have hnext := grammar.disciplined_nextStatement
  induction hcollects with
  | done => exact fun _ hnode => absurd hnode List.not_mem_nil
  | more hrun _ ih =>
      exact List.forall_mem_cons.mpr
        ⟨grammar.start_lt_of_statement hspanning hstream hrun,
          ih (hnext.reads hstream hrun)⟩

end Grammar

/-! ### Sources -/

namespace Program

section Whole

variable {source : String} {passage : Passage}

instance : Disciplined false (wholeSource source) := by
  rw [wholeSource, Grammar.statements]
  infer_instance

instance : Sound passage (wholeSource source) := by
  rw [wholeSource, Grammar.statements]
  infer_instance

/-- A passage that starts with a text. -/
def passageOf (text : List Char) : Passage where
  text := text
  first := 0
  last := ofSource text
  reads := reads_ofSource text
  Kept _ := True
  kept_forward _ _ _ _ _ := trivial
  kept_restore _ _ := trivial

theorem enters_passageOf (text : List Char) :
    (passageOf text).Enters (ofSource text) :=
  ⟨reads_ofSource text, Nat.zero_le _, trivial⟩

/-- The range of a whole text contains every range in it. -/
theorem contains_whole {span : Span} (h : span.IsIn text) :
    (⟨0, Text.byteLength text⟩ : Span).contains span = true :=
  Span.contains_iff.mpr ⟨Nat.zero_le _, h.2.1.le⟩

theorem reads_of_run {nodes : List Node}
    (hrun : wholeSource source (ofSource source.toList) = .ok nodes after) :
    after.Reads source.toList :=
  (inferInstance : Disciplined false (wholeSource source)).reads
    (reads_ofSource source.toList) hrun

theorem located_statements {nodes : List Node}
    (hrun : wholeSource source (ofSource source.toList) = .ok nodes after) :
    ∀ node ∈ nodes,
      node.Located source.toList ⟨0, Text.byteLength source.toList⟩ := by
  intro node hnode
  have hnodes := (Sound.of_ok inferInstance
    (enters_passageOf source.toList) hrun (reads_of_run hrun)).2
  have hlocated : node.Located source.toList _ := hnodes.placed node hnode
  cases hlocated with
  | mk hspan _ hparts => exact .mk hspan (contains_whole hspan) hparts

theorem laidOut_statements {nodes : List Node}
    (hrun : wholeSource source (ofSource source.toList) = .ok nodes after) :
    LaidOut source.toList 0 nodes := by
  obtain ⟨found, between, hstatements, hrest⟩ :=
    Outcome.bind_eq_ok_iff.mp hrun
  obtain ⟨_, _, _, hpure⟩ := Outcome.bind_eq_ok_iff.mp hrest
  obtain ⟨rfl, _⟩ := Outcome.pure_eq_ok_iff.mp hpure
  exact Grammar.laidOut_of_collects _
    (Grammar.spanning_statement .module _) (reads_ofSource source.toList)
    (collect_eq_ok_iff.mp hstatements).1

theorem start_lt_of_run {nodes : List Node}
    (hrun : wholeSource source (ofSource source.toList) = .ok nodes after) :
    ∀ node ∈ nodes, node.span.start < Text.byteLength source.toList := by
  obtain ⟨found, between, hstatements, hrest⟩ :=
    Outcome.bind_eq_ok_iff.mp hrun
  obtain ⟨_, _, _, hpure⟩ := Outcome.bind_eq_ok_iff.mp hrest
  obtain ⟨rfl, _⟩ := Outcome.pure_eq_ok_iff.mp hpure
  exact Grammar.start_lt_of_collects _
    (Grammar.spanning_statement .module _) (reads_ofSource source.toList)
    (collect_eq_ok_iff.mp hstatements).1

/-- An error is placed in the source, and so is the place behind what has been
consumed. -/
theorem isIn_of_error {error : SyntaxError}
    (hrun : (wholeSource source).run source = .error error) :
    error.span.IsIn source.toList := by
  rw [Parser.run] at hrun
  cases houtcome : wholeSource source (ofSource source.toList) with
  | ok nodes after =>
      rw [houtcome] at hrun
      cases hrun
  | error failure after =>
      have hreads : after.Reads source.toList := by
        have hleaves :=
          (inferInstance : Disciplined false (wholeSource source)).reads_leaves
            (reads_ofSource source.toList)
        rwa [leaves_of_error houtcome] at hleaves
      rw [houtcome] at hrun
      cases failure with
      | refused found =>
          cases hrun
          exact (Sound.of_error inferInstance
            (enters_passageOf source.toList) houtcome hreads).2.placed _ rfl
      | exhausted =>
          cases hrun
          exact Span.isIn_point hreads.isBoundary_lastEnd

end Whole

/-- All that is reported of a source is placed in it: the nodes of a program,
each within the range of the node it is a part of, its statements one behind the
other with nothing but gaps around them, and an error. -/
theorem locations_sound (source : String) :
    match parse source with
    | .ok program =>
        program.span = ⟨0, Text.byteLength source.toList⟩ ∧
        (∀ statement ∈ program.statements,
          statement.Located source.toList program.span) ∧
        (program.statements.Pairwise fun first second =>
          first.span.stop ≤ second.span.start) ∧
        LaidOut source.toList 0 program.statements
    | .error error => error.span.IsIn source.toList := by
  rw [parse_eq]
  cases hrun : (wholeSource source).run source with
  | error error => exact isIn_of_error hrun
  | ok outcome =>
      obtain ⟨nodes, after⟩ := outcome
      have hwhole := run_eq_ok_iff.mp hrun
      have hlocated := located_statements hwhole
      have hlaidOut := laidOut_statements hwhole
      refine ⟨by rw [Text.utf8ByteSize_eq], ?_,
        hlaidOut.pairwise fun node hnode => (hlocated node hnode).isIn.2.2,
        hlaidOut⟩
      rw [Text.utf8ByteSize_eq]
      exact hlocated

section Parse

variable {source : String} {program : Program}

/-- The statements of a program stand one behind the other. -/
theorem laidOut_of_parse (hparse : parse source = .ok program) :
    LaidOut source.toList 0 program.statements := by
  rw [parse_eq] at hparse
  obtain ⟨⟨nodes, last⟩, hrun, hpure⟩ := Except.bind_eq_ok_iff.mp hparse
  obtain rfl := Except.ok.inj hpure
  exact laidOut_statements (run_eq_ok_iff.mp hrun)

/-- The statements of a program are placed in its source. -/
theorem located_of_parse (hparse : parse source = .ok program) :
    ∀ node ∈ program.statements,
      node.Located source.toList ⟨0, Text.byteLength source.toList⟩ := by
  rw [parse_eq] at hparse
  obtain ⟨⟨nodes, last⟩, hrun, hpure⟩ := Except.bind_eq_ok_iff.mp hparse
  obtain rfl := Except.ok.inj hpure
  exact located_statements (run_eq_ok_iff.mp hrun)

/-- The range of a statement is one of its source. -/
theorem isIn_of_parse (hparse : parse source = .ok program) :
    ∀ node ∈ program.statements, node.span.IsIn source.toList :=
  fun node hnode => (located_of_parse hparse node hnode).isIn

end Parse

/-- The statements of a program start in front of its end. -/
theorem start_lt {source : String} {program : Program}
    (hparse : parse source = .ok program) :
    ∀ node ∈ program.statements,
      node.span.start < Text.byteLength source.toList := by
  rw [parse_eq] at hparse
  obtain ⟨⟨nodes, last⟩, hrun, hpure⟩ := Except.bind_eq_ok_iff.mp hparse
  obtain rfl := Except.ok.inj hpure
  exact start_lt_of_run (run_eq_ok_iff.mp hrun)

end Program

end Bundler
