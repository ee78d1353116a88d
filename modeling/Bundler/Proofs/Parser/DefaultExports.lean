import Bundler.Proofs.Parser.FirstTokens

/-!
# Default exports

Only what starts with the key words `export` and `default` is read as the default
export of a value.  The value starts where the token behind them does, or behind it if
that is an opening parenthesis.
-/

namespace Bundler

open TokenStream

/-- A node that is no default export of a value. -/
def Node.ExportsNoValue : Node → Prop
  | .mk _ (.exportDefault _) => False
  | _ => True

namespace Grammar

open Bundler.Parser

variable (grammar : Grammar)

/-! ### Other statements -/

section Others

theorem noValue_functionDeclaration :
    Ensures grammar.functionDeclaration Node.ExportsNoValue :=
  .anywhere (.skip fun _ => .skip fun _ => .skip fun _ => .skip fun _ => .skip fun _ =>
    .pure fun _ => trivial)

theorem noValue_classDeclaration :
    Ensures grammar.classDeclaration Node.ExportsNoValue :=
  .anywhere (.skip fun _ => .skip fun _ => .skip fun _ => .skip fun _ =>
    .pure fun _ => trivial)

theorem noValue_otherStatement {first second : Token} :
    Ensures (grammar.otherStatement first second) Node.ExportsNoValue :=
  .ite (.anywhere (.skip fun _ => .skip fun _ => .pure fun _ => trivial)) (.ite
    (.anywhere (.skip fun _ => .skip fun _ => .skip fun _ => .pure fun _ => trivial))
    (.anywhere (.skip fun _ => .pure fun _ => trivial)))

theorem noValue_forStatement : Ensures grammar.forStatement Node.ExportsNoValue := by
  refine .skip fun _ => .skip fun kind => .skip fun _ => ?_
  cases kind
  all_goals
    refine .anywhere ?_
    repeat refine .skip fun _ => ?_
    exact .pure fun _ => trivial

theorem noValue_importStatement :
    Ensures grammar.importStatement Node.ExportsNoValue :=
  .anywhere (.skip fun _ => .skip fun _ => .ite
    (.skip fun _ => .skip fun _ => .pure fun _ => trivial)
    (.skip fun _ => .skip fun _ => .skip fun _ => .skip fun _ =>
      .pure fun _ => trivial))

theorem noValue_wordStatement {first second : Token} {word : Keyword}
    (hword : word ≠ .exportWord) :
    Ensures (grammar.wordStatement first second word) Node.ExportsNoValue := by
  unfold wordStatement
  split
  case h_1 =>
    exact .ite grammar.noValue_functionDeclaration grammar.noValue_otherStatement
  case h_3 => exact grammar.noValue_classDeclaration
  case h_7 => exact absurd rfl hword
  case h_8 => exact grammar.noValue_forStatement
  case h_9 => exact grammar.noValue_functionDeclaration
  case h_11 =>
    exact .ite (.anywhere (.skip fun _ => .pure fun _ => trivial))
      grammar.noValue_importStatement
  case h_18 => exact grammar.noValue_otherStatement
  all_goals
    refine .anywhere ?_
    repeat' first
      | exact .pure fun _ => trivial
      | refine .skip fun _ => ?_
      | refine .ite ?_ ?_

theorem noValue_exportItems : Ensures exportItems fun shape =>
    ∀ span, (Node.mk span shape).ExportsNoValue := by
  refine .skip fun items => .skip fun source => ?_
  have hend : Ensures (do statementEnd; return Shape.exportItems items source)
      fun shape => ∀ span, (Node.mk span shape).ExportsNoValue :=
    .skip fun _ => .pure fun _ => trivial
  refine .ite ?_ hend
  split
  · exact .skip fun _ => hend
  · exact hend

theorem noValue_exportAll : Ensures exportAll fun shape =>
    ∀ span, (Node.mk span shape).ExportsNoValue :=
  .skip fun _ => .skip fun _ => .skip fun _ => .skip fun _ => .pure fun _ => trivial

theorem noValue_exportDeclaration {declaration : Parser Node} {isDefault : Bool} :
    Ensures (do return Shape.exportDeclaration isDefault (← declaration)) fun shape =>
      ∀ span, (Node.mk span shape).ExportsNoValue :=
  .skip fun _ => .pure fun _ => trivial

end Others

/-! ### Runs -/

section Runs

variable {grammar : Grammar} [grammar.IsDisciplined] {text : List Char}
  {start stop : Nat} {value : Node} {span : Span}

/-- A node that starts with a key word. -/
theorem runs_of_node_requireWord {word : Keyword} {next : Token → Parser (Shape Node)}
    {shape : Shape Node}
    (hrun : Runs text (node (requireWord word >>= next)) start (.mk span shape) stop)
    (hnext : ∀ token, Disciplined false (next token)) :
    (tokenAt text .standard start).kind = .keyword word ∧
      span.start = (tokenAt text .standard start).span.start ∧
      Runs text (next (tokenAt text .standard start))
        (tokenAt text .standard start).span.stop shape stop := by
  have hshape : Disciplined true (requireWord word >>= next) :=
    .bindLooking inferInstance hnext
  have hopens : Opens (requireWord word >>= next) := by
    rw [requireWord]
    exact .bind inferInstance inferInstance hnext
  obtain ⟨_, hrun, hnode⟩ := runs_node.mp hrun
  cases hnode
  obtain ⟨_, _, hword, hrun⟩ := runs_bind.mp hrun
  obtain ⟨_, rfl, hkind, rfl⟩ := runs_require.mp hword
  exact ⟨hkind, rfl, hrun⟩

theorem runs_exportStatement
    (hrun : Runs text grammar.statementRule start (.mk span (.exportDefault value))
      stop) :
    Runs text grammar.exportStatement start (.mk span (.exportDefault value)) stop := by
  have hnot {parser : Parser Node}
      (hrun : Runs text parser start (.mk span (.exportDefault value)) stop)
      (h : Ensures parser Node.ExportsNoValue) : False := by
    obtain ⟨_, _, _, _, _, _, hrun⟩ := hrun
    exact h _ _ _ hrun
  rw [statementRule_eq] at hrun
  obtain ⟨_, _, _, hrun⟩ := (Disciplined.runs_rewinding inferInstance
    fun tokens => by cases tokens; dsimp only; split <;> infer_instance).mp hrun
  rw [if_pos rfl] at hrun
  dsimp only at hrun
  split at hrun
  · exact (hnot hrun (.anywhere (.skip fun _ => .pure fun _ => trivial))).elim
  · exact (hnot hrun (.anywhere (.skip fun _ => .pure fun _ => trivial))).elim
  · rename_i word _
    by_cases hword : word = .exportWord
    · subst hword
      exact hrun
    · exact (hnot hrun (grammar.noValue_wordStatement hword)).elim
  · exact (hnot hrun grammar.noValue_otherStatement).elim

/-- The key words of a default export. -/
theorem runs_defaultExport
    (hrun : Runs text grammar.exportStatement start (.mk span (.exportDefault value))
      stop) :
    ∃ place, place = (tokenAt text .standard start).span.stop ∧
      span.start = (tokenAt text .standard start).span.start ∧
      (tokenAt text .standard start).kind = .keyword .exportWord ∧
      (tokenAt text .standard place).kind = .keyword .defaultWord ∧
      Runs text grammar.defaultExport (tokenAt text .standard place).span.stop
        (.exportDefault value) stop := by
  rw [exportStatement] at hrun
  obtain ⟨hexport, hstart, hrun⟩ := runs_of_node_requireWord hrun fun _ =>
    .bind inferInstance fun tokens => by
      cases tokens
      dsimp only
      split <;> infer_instance
  obtain ⟨⟨first, second⟩, _, htwo, hrun⟩ := (Disciplined.runs_bind inferInstance
    fun tokens => by cases tokens; dsimp only; split <;> infer_instance).mp hrun
  obtain ⟨_, htokens, rfl⟩ := runs_peekTwo.mp htwo
  cases htokens
  refine ⟨_, rfl, hstart, hexport, ?_⟩
  have hnot {parser : Parser (Shape Node)} {start stop : Nat}
      (hrun : Runs text parser start (.exportDefault value) stop)
      (h : Ensures parser fun shape => ∀ span, (Node.mk span shape).ExportsNoValue) :
      False := by
    obtain ⟨_, _, _, _, _, _, hrun⟩ := hrun
    exact h _ _ _ hrun span
  dsimp only at hrun
  split at hrun
  · exact (hnot hrun (.skip fun _ => noValue_exportItems)).elim
  · exact (hnot hrun (.skip fun _ => noValue_exportAll)).elim
  · exact (hnot hrun noValue_exportDeclaration).elim
  · exact (hnot hrun noValue_exportDeclaration).elim
  · exact (hnot hrun noValue_exportDeclaration).elim
  · rename_i hdefault
    obtain ⟨_, _, hconsume, hrun⟩ := runs_bind.mp hrun
    obtain ⟨_, rfl, rfl⟩ := runs_consume.mp hconsume
    exact ⟨hdefault, hrun⟩
  · exact (hnot hrun (.ite noValue_exportDeclaration .fail)).elim

end Runs

/-! ### Default exports of a source -/

section Sources

variable {rules : NameRules} {source : String} {start stop : Nat} {node value : Node}

theorem runs_statement :
    Runs source.toList (forSource rules source).statement start node stop ↔
      Runs source.toList (forSource rules source).statementRule start node stop :=
  runs_of_settles settling_deepen.statement

/-- Where the value of a default export starts. -/
theorem start_of_runs_defaultExport
    (hrun : Runs source.toList (forSource rules source).defaultExport start
      (.exportDefault value) stop) :
    (tokenAt source.toList .standard start).span.start ≤ value.span.start ∧
      ((tokenAt source.toList .slashIsRegex start).kind ≠
          .punctuator .parenthesisOpen →
        value.span.start = (tokenAt source.toList .standard start).span.start) := by
  have hdeclared {parser : Parser Node}
      (hrun : Runs source.toList (do return Shape.exportDeclaration true (← parser))
        start (.exportDefault value) stop) : False := by
    obtain ⟨_, _, _, _, _, _, hrun⟩ := hrun
    obtain ⟨_, _, _, hrun⟩ := Outcome.bind_eq_ok_iff.mp hrun
    cases hrun
  have hvalue {parser : Parser Node} [hfronts : Fronts parser]
      (hrun : Runs source.toList (exportDefaultOf parser) start (.exportDefault value)
        stop) :
      (tokenAt source.toList .standard start).span.start ≤ value.span.start ∧
        ((tokenAt source.toList .slashIsRegex start).kind ≠
            .punctuator .parenthesisOpen →
          value.span.start = (tokenAt source.toList .standard start).span.start) := by
    obtain ⟨stream, _, hstream, _, rfl, _, hrun⟩ := hrun
    obtain ⟨found, _, hfirst, hrun⟩ := Outcome.bind_eq_ok_iff.mp hrun
    obtain ⟨_, _, _, hrun⟩ := Outcome.bind_eq_ok_iff.mp hrun
    obtain ⟨hfound, _⟩ := Outcome.pure_eq_ok_iff.mp hrun
    cases hfound
    have hstart := hfronts.start_eq hstream hfirst
    exact ⟨Nat.le_of_eq hstart.symm, fun _ => hstart⟩
  rw [defaultExport] at hrun
  obtain ⟨_, _, htwo, hrun⟩ := runs_bind.mp hrun
  obtain ⟨_, rfl, hplace⟩ := runs_peekTwo.mp htwo
  rw [hplace] at hrun
  dsimp only at hrun
  split at hrun
  · obtain ⟨isNamed, _, hnamed, hrun⟩ := runs_bind.mp hrun
    rw [nextFunctionIsNamed] at hnamed
    obtain ⟨_, _, hpeek, hnamed⟩ := runs_bind.mp hnamed
    rw [peekAhead_eq] at hpeek
    obtain ⟨_, _, _, hpeek⟩ := runs_rewinding.mp hpeek
    obtain ⟨_, _, hpeek⟩ := runs_pure.mp hpeek
    obtain ⟨_, _, hnamed⟩ := runs_pure.mp hnamed
    rw [hnamed, hpeek, if_pos rfl] at hrun
    split at hrun
    · exact (hdeclared hrun).elim
    · exact hvalue hrun
  · split at hrun
    · split at hrun
      · exact (hdeclared hrun).elim
      · exact hvalue hrun
    · obtain ⟨_, _, hfirst, hrun⟩ := runs_bind.mp hrun
      obtain ⟨_, _, _, hrun⟩ := runs_bind.mp hrun
      obtain ⟨_, hfound, _⟩ := runs_pure.mp hrun
      cases hfound
      exact start_of_runs_expression hfirst

end Sources

end Grammar

end Bundler
