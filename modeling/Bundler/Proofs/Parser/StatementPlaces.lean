import Bundler.Proofs.Parser.Operations

/-!
# Rules of statements place what they yield

With these the rules of every grammar for a source are known to place what they
yield.
-/

set_option synthInstance.maxSize 4000

namespace Bundler

open Bundler.Parser TokenStream

variable {passage : Passage}

namespace Grammar

variable (grammar : Grammar) [hdisciplined : grammar.IsDisciplined]
  [hadvancing : grammar.IsAdvancing]
  [hgrammar : ∀ passage, grammar.IsSound passage]

/-! ### Declarations -/

instance {ends : List TokenKind} {lineEnds : Bool} :
    Sound passage (grammar.declarator ends lineEnds) := by
  rw [declarator]
  infer_instance

instance : Sound passage grammar.variableDeclaration :=
  .node rfl inferInstance inferInstance inferInstance

instance : Sound passage grammar.headerVariables :=
  .node rfl inferInstance inferInstance inferInstance

instance : Sound passage grammar.functionDeclaration :=
  .node rfl inferInstance inferInstance inferInstance

instance : Sound passage grammar.classDeclaration :=
  .node rfl inferInstance inferInstance inferInstance

/-! ### Loops -/

instance : Sound passage grammar.forKind := by
  have hdisciplined : ∀ outcome : Except SyntaxError Node,
      Disciplined false (match outcome with
        | .ok _ => forKindBehindStart
        | .error _ => return .counting) := by
    intro outcome
    cases outcome <;> infer_instance
  have hsound : ∀ outcome : Except SyntaxError Node,
      Sound passage (match outcome with
        | .ok _ => forKindBehindStart
        | .error _ => return .counting) := by
    intro outcome
    cases outcome <;> infer_instance
  rw [forKind]
  infer_instance

instance : Sound passage grammar.forBody :=
  .node rfl inferInstance inferInstance inferInstance

instance : Sound passage grammar.forTarget := by
  rw [forTarget]
  refine .bind inferInstance inferInstance (fun (first, second) => ?_)
    fun (first, second) _ => ?_
  · dsimp only
    split
    · infer_instance
    · refine .bind inferInstance fun target => ?_
      split <;> infer_instance
  · dsimp only
    split
    · infer_instance
    · refine .bind inferInstance inferInstance (fun target => ?_)
        fun target htarget => ?_
      · split <;> infer_instance
      · have houtcome := Node.placed_toPattern htarget
        split
        · rename_i pattern hpattern
          rw [hpattern] at houtcome
          have hpattern : Placed passage.bounds pattern := ⟨houtcome.placed⟩
          infer_instance
        · rename_i error herror
          rw [herror] at houtcome
          have herror : Placed passage.bounds error := ⟨houtcome.placed⟩
          infer_instance

instance : Sound passage grammar.forRest := by
  rw [forRest]
  infer_instance

instance : Sound passage grammar.keysLoop :=
  .node rfl inferInstance inferInstance inferInstance

instance : Sound passage grammar.valuesLoop :=
  .node rfl inferInstance inferInstance inferInstance

instance : Sound passage grammar.forStart := by
  rw [forStart]
  infer_instance

instance {close : Punctuator} : Sound passage (grammar.forPart close) := by
  rw [forPart]
  infer_instance

instance : Sound passage grammar.countingLoop :=
  .node rfl inferInstance inferInstance inferInstance

instance {kind : ForKind} : Sound passage (grammar.loopOf kind) := by
  cases kind with
  | counting => exact inferInstanceAs (Sound passage grammar.countingLoop)
  | keys => exact inferInstanceAs (Sound passage grammar.keysLoop)
  | values => exact inferInstanceAs (Sound passage grammar.valuesLoop)

instance : Sound passage grammar.forStatement := by
  rw [forStatement_eq]
  exact .rewinding inferInstance inferInstance inferInstance
    fun kind _ _ _ => inferInstance

/-! ### Exports -/

instance : Sound passage grammar.defaultExport := by
  rw [defaultExport]
  infer_instance

instance : Sound passage grammar.exportStatement := by
  refine .node rfl inferInstance inferInstance fun passage =>
    .bind inferInstance inferInstance
      (fun word => .bind inferInstance fun (first, second) => ?_)
      fun word _ => .bind inferInstance inferInstance
        (fun (first, second) => ?_) fun (first, second) hpair => ?_
  · dsimp only
    split <;> infer_instance
  · dsimp only
    split <;> infer_instance
  · obtain ⟨_, _⟩ := hpair.pair
    dsimp only
    split <;> infer_instance

/-! ### Statements -/

instance : Sound passage grammar.blockStatement :=
  .node rfl inferInstance inferInstance inferInstance

instance : Sound passage grammar.lastExpression := by
  rw [lastExpression]
  infer_instance

instance : Sound passage grammar.expressionStatement :=
  .node rfl inferInstance inferInstance inferInstance

instance : Sound passage grammar.labelledStatement :=
  .node rfl inferInstance inferInstance inferInstance

instance : Sound passage grammar.parenthesized := by
  rw [parenthesized]
  infer_instance

instance : Sound passage grammar.ifStatement :=
  .node rfl inferInstance inferInstance inferInstance

instance : Sound passage grammar.returnStatement :=
  .node rfl inferInstance inferInstance inferInstance

instance : Sound passage grammar.throwStatement :=
  .node rfl inferInstance inferInstance inferInstance

instance : Sound passage grammar.catchClause :=
  .node rfl inferInstance inferInstance inferInstance

instance : Sound passage grammar.tryStatement :=
  .node rfl inferInstance inferInstance inferInstance

instance : Sound passage grammar.whileStatement :=
  .node rfl inferInstance inferInstance inferInstance

instance : Sound passage grammar.withStatement :=
  .node rfl inferInstance inferInstance inferInstance

instance : Sound passage grammar.doWhileStatement :=
  .node rfl inferInstance inferInstance inferInstance

instance : Sound passage grammar.switchCase :=
  .node rfl inferInstance inferInstance inferInstance

instance : Sound passage grammar.switchStatement :=
  .node rfl inferInstance inferInstance inferInstance

instance {first second : Token} :
    Sound passage (grammar.otherStatement first second) := by
  rw [otherStatement]
  infer_instance

instance {first second : Token} {word : Keyword} :
    Sound passage (grammar.wordStatement first second word) := by
  unfold wordStatement
  split <;> infer_instance

theorem sound_statementRule : Sound passage grammar.statementRule := by
  rw [statementRule]
  refine .bind inferInstance inferInstance (fun (first, second) => ?_)
    fun (first, second) _ => ?_
  all_goals
    dsimp only
    split <;> infer_instance

/-! ### The whole grammar -/

instance : grammar.deepen.IsSound passage where
  expressionFrom := grammar.sound_expressionRule
  pattern := grammar.sound_patternRule
  statement := grammar.sound_statementRule

omit hdisciplined hadvancing hgrammar in
theorem isSound_ofDepth (rules : NameRules) (depth : Nat)
    (passage : Passage) : (ofDepth rules depth).IsSound passage := by
  induction depth generalizing passage with
  | zero =>
      exact ⟨fun _ _ _ => inferInstanceAs (Sound passage exhausted),
        inferInstanceAs (Sound passage exhausted),
        inferInstanceAs (Sound passage exhausted)⟩
  | succ depth ih => exact inferInstanceAs ((deepen _).IsSound passage)

omit hdisciplined hadvancing hgrammar in
instance {rules : NameRules} {source : String} {passage : Passage} :
    (forSource rules source).IsSound passage :=
  isSound_ofDepth rules _ passage

end Grammar

end Bundler
