import Bundler.Proofs.Parser.Locations

/-!
# Statements that name sources

Only statements that start with the key word of an import or an export name a
source, so each of them takes up some of the text.  As statements do not overlap,
a program names no more sources than its text has bytes.
-/

set_option synthInstance.maxSize 1000

namespace Bundler

open Bundler.Parser TokenStream

/-- The source that a statement of this shape names. -/
def Shape.source? {α : Type} : Shape α → Option String
  | .importFrom _ _ source | .exportAll _ source => some source
  | .exportItems _ source => source
  | _ => none

/-- The source that a statement names. -/
def Node.source? (statement : Node) : Option String :=
  statement.shape.source?

namespace Parser

variable {α : Type}

/-- A parser of shapes that name no source. -/
def Sourceless (parser : Parser (Shape Node)) : Prop :=
  ∀ stream shape after, parser stream = .ok shape after → shape.source? = none

namespace Sourceless

theorem pure {shape : Shape Node} (hshape : shape.source? = none) :
    Sourceless (pure shape) := by
  intro stream found after hrun
  obtain ⟨rfl, _⟩ := Outcome.pure_eq_ok_iff.mp hrun
  exact hshape

theorem bind {first : Parser α} {next : α → Parser (Shape Node)}
    (hnext : ∀ value, Sourceless (next value)) :
    Sourceless (first >>= next) := by
  intro stream shape after hrun
  obtain ⟨value, between, _, hrest⟩ := Outcome.bind_eq_ok_iff.mp hrun
  exact hnext value between shape after hrest

end Sourceless

/-- A parser whose statements take up text if they name a source. -/
def SourcedFill (parser : Parser Node) : Prop :=
  ∀ text stream node after, TokenStream.Reads text stream →
    parser stream = .ok node after → node.source?.isSome = true →
    node.span.start < node.span.stop

namespace SourcedFill

theorem of_sourceless {shape : Parser (Shape Node)}
    (hshape : Sourceless shape) : SourcedFill (node shape) := by
  intro text stream found after _ hrun hsource
  rw [node] at hrun
  cases hfound : shape stream with
  | ok value between =>
      rw [Outcome.bind_of_ok (withSpan_of_ok hfound)] at hrun
      cases hrun
      rw [Node.source?, Node.shape, hshape _ _ _ hfound] at hsource
      cases hsource
  | error failure between =>
      rw [Outcome.bind_of_error (withSpan_of_error hfound)] at hrun
      cases hrun

/-- A node that starts with a key word takes up text. -/
theorem node_requireWord (word : Keyword) {rest : Token → Parser (Shape Node)}
    (hrest : ∀ token, Disciplined false (rest token)) :
    SourcedFill (node (requireWord word >>= rest)) := by
  intro text stream found after hstream hrun _
  have hspan := spanning_node _ stream found after hrun
  rw [node] at hrun
  cases hfound : (requireWord word >>= rest) stream with
  | error failure between =>
      rw [Outcome.bind_of_error (withSpan_of_error hfound)] at hrun
      cases hrun
  | ok value last =>
      rw [Outcome.bind_of_ok (withSpan_of_ok hfound)] at hrun
      obtain ⟨_, rfl⟩ := Outcome.pure_eq_ok_iff.mp hrun
      obtain ⟨token, between, hword, hvalue⟩ :=
        Outcome.bind_eq_ok_iff.mp hfound
      obtain ⟨hconsume, hkind⟩ := consume_of_require hword
      have hbetween := (inferInstance : Disciplined false
        (requireWord word)).reads hstream hword
      have hlast := (hrest token).reads hbetween hvalue
      have htoken : Consumes stream.consumed last token :=
        (consumes_of_consume hstream.lexes hconsume).leads (Nat.zero_le _)
          ((hrest token).leads hbetween.lexes hvalue).2
      have hlt : stream.consumed < last.consumed := by
        obtain ⟨index, _, hle, hlt, _⟩ := htoken
        exact Nat.lt_of_le_of_lt hle hlt
      have hencloses := (hlast.lexes.above (Nat.zero_le _)
        (Nat.le_of_lt hlt)).spanSince_encloses htoken
      rw [hspan]
      exact Nat.lt_of_le_of_lt hencloses.1 (Nat.lt_of_lt_of_le
        (hlast.start_lt_stop htoken (by simp [hkind]) (by simp [hkind]))
        hencloses.2)

/-- Looking ahead does not count. -/
theorem rewinding {parser : Parser α} {next : α → Parser Node}
    [hparser : Disciplined false parser] (h : ∀ value, SourcedFill (next value)) :
    SourcedFill (rewinding parser (fun _ => true) next) := by
  intro text stream found after hstream hrun
  cases hfound : parser stream with
  | ok value between =>
      have hstart := (hparser.rewinding (fun _ => true) fun value =>
        .pure value).reads hstream (rewinding_of_ok hfound)
      rw [rewinding_of_ok hfound] at hrun
      exact h value text _ found after hstart hrun
  | error failure between =>
      rw [rewinding_of_error hfound] at hrun
      cases hrun

end SourcedFill

end Parser

namespace Grammar

variable (grammar : Grammar)

theorem sourcedFill_otherStatement (first second : Token) :
    SourcedFill (grammar.otherStatement first second) := by
  rw [otherStatement]
  split
  · exact .of_sourceless (.bind fun _ => .bind fun _ => .pure rfl)
  · split
    · exact .of_sourceless
        (.bind fun _ => .bind fun _ => .bind fun _ => .pure rfl)
    · exact .of_sourceless (.bind fun _ => .pure rfl)

theorem sourcedFill_functionDeclaration :
    SourcedFill grammar.functionDeclaration :=
  .of_sourceless (.bind fun _ => .bind fun _ => .bind fun _ => .bind fun _ =>
    .bind fun _ => .pure rfl)

variable [grammar.IsDisciplined]

theorem sourcedFill_forStatement : SourcedFill grammar.forStatement := by
  rw [forStatement_eq]
  apply SourcedFill.rewinding
  intro kind
  cases kind with
  | counting => exact .node_requireWord _ inferInstance
  | keys => exact .node_requireWord _ inferInstance
  | values => exact .node_requireWord _ inferInstance

theorem sourcedFill_exportStatement : SourcedFill grammar.exportStatement := by
  rw [exportStatement]
  apply SourcedFill.node_requireWord
  intro _
  refine .bind inferInstance ?_
  rintro ⟨first, second⟩
  dsimp only
  split <;> infer_instance

theorem sourcedFill_wordStatement (first second : Token) (word : Keyword) :
    SourcedFill (grammar.wordStatement first second word) := by
  unfold wordStatement
  split
  case h_1 =>
    split
    · exact grammar.sourcedFill_functionDeclaration
    · exact grammar.sourcedFill_otherStatement first second
  case h_8 => exact grammar.sourcedFill_forStatement
  case h_9 => exact grammar.sourcedFill_functionDeclaration
  case h_11 =>
    split
    · exact .of_sourceless (.bind fun _ => .pure rfl)
    · exact .node_requireWord .importWord inferInstance
  case h_18 => exact grammar.sourcedFill_otherStatement first second
  case h_7 => exact grammar.sourcedFill_exportStatement
  all_goals exact .node_requireWord _ inferInstance

theorem sourcedFill_statementRule : SourcedFill grammar.statementRule := by
  rw [statementRule_eq]
  apply SourcedFill.rewinding
  rintro ⟨first, second⟩
  dsimp only
  split
  · exact .of_sourceless (.bind fun _ => .pure rfl)
  · exact .of_sourceless (.bind fun _ => .pure rfl)
  · exact grammar.sourcedFill_wordStatement first second _
  · exact grammar.sourcedFill_otherStatement first second

omit [grammar.IsDisciplined] in
theorem sourcedFill_statement (rules : NameRules) (depth : Nat) :
    SourcedFill (ofDepth rules depth).statement := by
  cases depth with
  | zero =>
      intro text stream node after _ hrun
      cases hrun
  | succ depth => exact (ofDepth rules depth).sourcedFill_statementRule

end Grammar

/-- Of statements that are laid out, no more name a source than bytes are left. -/
theorem LaidOut.length_sources_le {text : List Char} {start : Nat}
    {nodes : List Node} (h : LaidOut text start nodes)
    (hnodes : ∀ node ∈ nodes, node.span.start ≤ node.span.stop)
    (hsourced : ∀ node ∈ nodes, node.source?.isSome = true →
      node.span.start < node.span.stop) :
    start + (nodes.filterMap Node.source?).length ≤ Text.byteLength text := by
  induction nodes generalizing start with
  | nil =>
      obtain ⟨_, hgap⟩ := h
      exact hgap.le
  | cons node others ih =>
      obtain ⟨⟨_, hgap⟩, hrest⟩ := h
      obtain ⟨hnode, hothers⟩ := List.forall_mem_cons.mp hnodes
      obtain ⟨hfills, hrestFills⟩ := List.forall_mem_cons.mp hsourced
      have hle := ih hrest hothers hrestFills
      have hstart := hgap.le
      rw [List.filterMap_cons]
      split
      · omega
      · rename_i source hsource
        have hlt := hfills (by rw [hsource]; rfl)
        rw [List.length_cons]
        omega

/-- A program names no more sources than its text has bytes. -/
theorem Program.length_sources_le {source : String} {program : Program}
    (hparse : parse source = .ok program) :
    (program.statements.filterMap Node.source?).length ≤
      source.utf8ByteSize := by
  have hle := (laidOut_of_parse hparse).length_sources_le
    (fun node hnode => (isIn_of_parse hparse node hnode).2.2) fun node hnode => by
      obtain ⟨start, stop, hstart, hrun⟩ :=
        exists_run_of_parse hparse node hnode
      exact Grammar.sourcedFill_statement .module _ _ _ _ _ hstart hrun
  rwa [Nat.zero_add, ← Text.utf8ByteSize_eq] at hle

end Bundler
