import Bundler.Proofs.Parser.Runs

/-!
# Refusals

A disciplined parser that fails does so wherever it meets the same place of a
text, and for the same reason.  Here is where the failures of composed parsers
come from, and how a failure deep in the grammar gets to the whole source: what
one parser hands over to another at a place is refused if the other one refuses
it there, unless an attempt at an arrow function lies between the two.
-/

set_option synthInstance.maxSize 1000

namespace Bundler

open TokenStream

namespace Parser

variable {α β : Type} {text : List Char} {parser : Parser α}
  {next : α → Parser β} {looks : Bool} {start stop : Nat} {value : α}
  {error : SyntaxError} {stream after : TokenStream}

/-- From a place of a text a parser fails for an error. -/
def Fails (text : List Char) (parser : Parser α) (start : Nat)
    (error : SyntaxError) : Prop :=
  ∃ stream after : TokenStream, stream.Reads text ∧ stream.lastEnd = start ∧
    parser stream = .error (.refused error) after

theorem Fails.of_eq (hstream : stream.Reads text)
    (hrun : parser stream = .error (.refused error) after) :
    Fails text parser stream.lastEnd error :=
  ⟨stream, after, hstream, rfl, hrun⟩

/-- Whether a parser is refused at a stream for an error. -/
def refuses (parser : Parser α) (stream : TokenStream) (error : SyntaxError) :
    Bool :=
  match parser stream with
  | .error (.refused found) _ => found = error
  | _ => false

theorem Fails.of_refuses (hstream : stream.Reads text)
    (h : refuses parser stream error = true) :
    Fails text parser stream.lastEnd error := by
  rw [refuses] at h
  split at h
  · rename_i hrun
    rw [of_decide_eq_true h] at hrun
    exact .of_eq hstream hrun
  · cases h

theorem Fails.reaches (h : Fails text parser start error) :
    Reaches text start := by
  obtain ⟨stream, _, hstream, hstart, _⟩ := h
  exact ⟨stream, hstream, hstart⟩

/-- A failure at a place is one from every stream at this place. -/
theorem Disciplined.exists_failure (h : Disciplined looks parser)
    (hfails : Fails text parser start error) (hstream : stream.Reads text)
    (hstart : stream.lastEnd = start) :
    ∃ after, parser stream = .error (.refused error) after := by
  obtain ⟨other, last, hother, hplace, hrun⟩ := hfails
  have hagree := h.agree (hother.alike hstream (hplace.trans hstart.symm))
  rw [hrun] at hagree
  generalize hresult : parser stream = result at hagree
  cases hagree with
  | error _ _ _ _ => exact ⟨_, rfl⟩

/-- A run has one outcome. -/
theorem Disciplined.runs_unique (h : Disciplined looks parser) {other : α}
    {place : Nat} (hrun : Runs text parser start value stop)
    (hother : Runs text parser start other place) :
    value = other ∧ stop = place := by
  obtain ⟨stream, after, hstream, hafter, hstart, hstop, hrun⟩ := hrun
  obtain ⟨last, hsame, hlast, hplace⟩ := h.exists_run hother hstream hstart
  rw [hrun] at hsame
  cases hsame
  exact ⟨rfl, hstop.symm.trans hplace⟩

theorem Disciplined.runs_iff (h : Disciplined looks parser) {other : α}
    {place : Nat} (hrun : Runs text parser start value stop) :
    Runs text parser start other place ↔ other = value ∧ place = stop := by
  constructor
  · exact fun hother => h.runs_unique hother hrun
  · rintro ⟨rfl, rfl⟩
    exact hrun

/-! ### Composition -/

section Composition

@[simp]
theorem not_fails_pure : ¬ Fails text (pure value) start error := by
  rintro ⟨_, _, _, _, hrun⟩
  cases hrun

@[simp]
theorem not_fails_consumeIn {mode : LexMode} :
    ¬ Fails text (consumeIn mode) start error := by
  rintro ⟨_, _, _, _, hrun⟩
  rw [consumeIn, forward_eq] at hrun
  cases hrun

@[simp]
theorem not_fails_consume : ¬ Fails text consume start error :=
  not_fails_consumeIn

@[simp]
theorem fails_fail {found : SyntaxError} :
    Fails text (fail found : Parser α) start error ↔
      Reaches text start ∧ found = error := by
  constructor
  · intro h
    obtain ⟨stream, after, _, _, hrun⟩ := id h
    cases hrun
    exact ⟨h.reaches, rfl⟩
  · rintro ⟨⟨stream, hstream, hstart⟩, rfl⟩
    exact ⟨stream, stream, hstream, hstart, rfl⟩

theorem Fails.first (h : Fails text parser start error) :
    Fails text (parser >>= next) start error := by
  obtain ⟨stream, after, hstream, hstart, hrun⟩ := h
  exact ⟨stream, after, hstream, hstart, Outcome.bind_of_error hrun⟩

/-- The second part fails where the first one has come to. -/
theorem Runs.fails [hnext : Disciplined false (next value)] {between : Nat}
    (hfirst : Runs text parser start value between)
    (hfails : Fails text (next value) between error) :
    Fails text (parser >>= next) start error := by
  obtain ⟨stream, middle, hstream, hmiddle, hstart, hplace, hrun⟩ := hfirst
  obtain ⟨after, hfailed⟩ := hnext.exists_failure hfails hmiddle hplace
  exact ⟨stream, after, hstream, hstart,
    (Outcome.bind_of_ok hrun).trans hfailed⟩

theorem fails_bind [hparser : Disciplined false parser]
    [hnext : ∀ value, Disciplined false (next value)] :
    Fails text (parser >>= next) start error ↔
      Fails text parser start error ∨
        ∃ value between, Runs text parser start value between ∧
          Fails text (next value) between error := by
  constructor
  · rintro ⟨stream, after, hstream, rfl, hrun⟩
    rcases Outcome.bind_eq_error_iff.mp hrun with hfirst | ⟨value, between,
      hfirst, hsecond⟩
    · exact .inl (.of_eq hstream hfirst)
    · exact .inr ⟨value, between.lastEnd, hparser.runs hstream hfirst,
        .of_eq (hparser.reads hstream hfirst) hsecond⟩
  · rintro (hfirst | ⟨value, between, hfirst, hsecond⟩)
    · exact hfirst.first
    · exact hfirst.fails hsecond

theorem Fails.withSpan (h : Fails text parser start error) :
    Fails text (withSpan parser) start error := by
  obtain ⟨stream, after, hstream, hstart, hrun⟩ := h
  exact ⟨stream, after, hstream, hstart, withSpan_of_error hrun⟩

theorem Fails.node {shape : Parser (Shape Node)}
    (h : Fails text shape start error) :
    Fails text (Parser.node shape) start error :=
  h.withSpan.first

theorem Disciplined.fails_rewinding {back : α → Bool}
    (hparser : Disciplined false parser)
    (hnext : ∀ value, Disciplined false (next value)) :
    Fails text (Parser.rewinding parser back next) start error ↔
      Fails text parser start error ∨
        ∃ value between, Runs text parser start value between ∧
          Fails text (next value) (if back value then start else between)
            error := by
  have hrest : ∀ {stream : TokenStream} {value between}, stream.Reads text →
      parser stream = .ok value between →
      (if back value then between.restore stream.checkpoint
        else between).Reads text ∧
      (if back value then between.restore stream.checkpoint
        else between).lastEnd =
          if back value then stream.lastEnd else between.lastEnd := by
    intro stream value between hstream hrun
    split
    · exact ⟨hparser.reads_restore hstream hrun,
        lastEnd_restore (hparser.leads hstream.lexes hrun).2⟩
    · exact ⟨hparser.reads hstream hrun, rfl⟩
  constructor
  · rintro ⟨stream, after, hstream, rfl, hrun⟩
    cases hfirst : parser stream with
    | error failure between =>
        rw [rewinding_of_error hfirst] at hrun
        cases hrun
        exact .inl (.of_eq hstream hfirst)
    | ok value between =>
        rw [rewinding_of_ok hfirst] at hrun
        obtain ⟨hreads, hplace⟩ := hrest hstream hfirst
        refine .inr ⟨value, between.lastEnd, hparser.runs hstream hfirst, ?_⟩
        rw [← hplace]
        exact .of_eq hreads hrun
  · rintro (⟨stream, after, hstream, hstart, hrun⟩ | ⟨value, place,
      ⟨stream, between, hstream, hbetween, rfl, rfl, hfirst⟩, hfails⟩)
    · exact ⟨stream, after, hstream, hstart, rewinding_of_error hrun⟩
    · obtain ⟨hreads, hplace⟩ := hrest hstream hfirst
      obtain ⟨after, hrun⟩ := (hnext value).exists_failure hfails hreads hplace
      exact ⟨stream, after, hstream, rfl, by rw [rewinding_of_ok hfirst, hrun]⟩

end Composition

/-! ### Repetition -/

section Repetition

variable {step : β → Parser (β ⊕ α)} {state last : β} {place : Nat}

/-- Steps of a loop one after the other from a place on, none of which ends
it. -/
inductive Steps (text : List Char) (step : β → Parser (β ⊕ α)) :
    β → Nat → β → Nat → Prop
  | here (state : β) {place : Nat} : Steps text step state place state place
  | more {state later last : β} {start between place : Nat} :
      Runs text (step state) start (.inl later) between →
      Steps text step later between last place →
      Steps text step state start last place

theorem Steps.reaches (h : Steps text step state start last place)
    (hstart : Reaches text start) : Reaches text place := by
  induction h with
  | here state => exact hstart
  | more hmore _ ih => exact ih hmore.reaches_stop

theorem Steps.repeats (h : Steps text step state start last place)
    (hrest : Repeats text step last place value stop) :
    Repeats text step state start value stop := by
  induction h with
  | here state => exact hrest
  | more hmore _ ih => exact .more hmore (ih hrest)

/-- A loop is its steps up to the one that ends it. -/
theorem Repeats.exists_steps (h : Repeats text step state start value stop) :
    ∃ last place, Steps text step state start last place ∧
      Runs text (step last) place (.inr value) stop := by
  induction h with
  | done hdone => exact ⟨_, _, .here _, hdone⟩
  | more hmore _ ih =>
      obtain ⟨last, place, hsteps, hdone⟩ := ih
      exact ⟨last, place, .more hmore hsteps, hdone⟩

theorem Steps.fails_iterateWith
    (hdisciplined : ∀ state, Disciplined false (step state))
    (hgoes : ∀ state, GoesOnIf Sum.isLeft (step state))
    (h : Steps text step state start last place)
    (hfails : Fails text (step last) place error) {fuel : Nat}
    (hstream : stream.Reads text) (hstart : stream.lastEnd = start)
    (hfuel : stream.unread < fuel) :
    ∃ after, Parser.iterateWith step fuel state stream =
      .error (.refused error) after := by
  induction h generalizing stream fuel with
  | here state =>
      obtain ⟨after, hrun⟩ :=
        (hdisciplined state).exists_failure hfails hstream hstart
      cases fuel with
      | zero => exact absurd hfuel (Nat.not_lt_zero _)
      | succ fuel =>
          rw [Parser.iterateWith, Outcome.bind_of_error hrun]
          exact ⟨after, rfl⟩
  | more hmore _ ih =>
      obtain ⟨between, hrun, hbetween, hplace⟩ :=
        (hdisciplined _).exists_run hmore hstream hstart
      have hlt := ((hgoes _).goesOn hrun rfl).unread_lt hstream hbetween
      cases fuel with
      | zero => exact absurd hfuel (Nat.not_lt_zero _)
      | succ fuel =>
          rw [Parser.iterateWith, Outcome.bind_of_ok hrun]
          exact ih hfails hbetween hplace
            (Nat.lt_of_lt_of_le hlt (Nat.le_of_lt_succ hfuel))

/-- A loop fails where one of its steps does. -/
theorem Steps.fails_iterate
    [hdisciplined : ∀ state, Disciplined false (step state)]
    [hgoes : ∀ state, GoesOnIf Sum.isLeft (step state)]
    (h : Steps text step state start last place)
    (hfails : Fails text (step last) place error) :
    Fails text (iterate step state) start error := by
  have hstart : Reaches text start := by
    cases h with
    | here state => exact hfails.reaches
    | more hmore => exact hmore.reaches_start
  obtain ⟨stream, hstream, rfl⟩ := hstart
  obtain ⟨after, hrun⟩ := h.fails_iterateWith hdisciplined hgoes hfails hstream
    rfl (Nat.lt_add_of_pos_right Nat.two_pos)
  exact ⟨stream, after, hstream, rfl, hrun⟩

end Repetition

/-! ### Attempts -/

section Attempts

variable {grammar : Grammar} {ends : List TokenKind} {other : Parser Node}
  {node : Node} {found : SyntaxError}

/-- An attempt at an arrow function does not swallow a misplaced line
terminator. -/
theorem Fails.arrowFunctionOr
    (h : Fails text (grammar.arrowFunction ends) start error)
    (hfault : error.fault = .lineBreakBeforeArrow) :
    Fails text (grammar.arrowFunctionOr ends other) start error := by
  obtain ⟨stream, after, hstream, hstart, hrun⟩ := h
  have hrefused : attempt (grammar.arrowFunction ends) stream =
      .ok (.error error) after := by
    rw [attempt, hrun]
  have hfails : ∃ last, grammar.arrowFunctionOr ends other stream =
      .error (.refused error) last := by
    rw [Grammar.arrowFunctionOr_eq, rewinding_of_ok hrefused]
    simp only [hfault, if_true]
    exact ⟨_, rfl⟩
  obtain ⟨last, hrun⟩ := hfails
  exact ⟨stream, last, hstream, hstart, hrun⟩

/-- Other attempts that fail are given up: what is read from their start on is
something else. -/
theorem exists_arrowFunctionOr_eq [grammar.IsDisciplined]
    (other : Parser Node)
    (h : Fails text (grammar.arrowFunction ends) start error)
    (hfault : error.fault ≠ .lineBreakBeforeArrow) (hstream : stream.Reads text)
    (hstart : stream.lastEnd = start) :
    ∃ again : TokenStream, again.Reads text ∧ again.lastEnd = start ∧
      grammar.arrowFunctionOr ends other stream = other again := by
  have hfunction : Disciplined false (grammar.arrowFunction ends) :=
    inferInstance
  have hattempt : Disciplined false (attempt (grammar.arrowFunction ends)) :=
    inferInstance
  obtain ⟨after, hrun⟩ := hfunction.exists_failure h hstream hstart
  have hrefused : attempt (grammar.arrowFunction ends) stream =
      .ok (.error error) after := by
    rw [attempt, hrun]
  refine ⟨after.restore stream.checkpoint,
    hattempt.reads_restore hstream hrefused,
    (lastEnd_restore (hattempt.leads hstream.lexes hrefused).2).trans hstart,
    ?_⟩
  rw [Grammar.arrowFunctionOr_eq, rewinding_of_ok hrefused]
  simp only [hfault, if_false, decide_true, ne_eq, not_false_eq_true, if_true]

theorem Fails.runs_arrowFunctionOr [grammar.IsDisciplined]
    [hother : Disciplined false other]
    (h : Fails text (grammar.arrowFunction ends) start error)
    (hfault : error.fault ≠ .lineBreakBeforeArrow) :
    Runs text (grammar.arrowFunctionOr ends other) start node stop ↔
      Runs text other start node stop := by
  constructor
  · rintro ⟨stream, after, hstream, hafter, hstart, hstop, hrun⟩
    obtain ⟨again, hagain, hplace, hsame⟩ :=
      exists_arrowFunctionOr_eq other h hfault hstream hstart
    exact ⟨again, after, hagain, hafter, hplace, hstop, hsame ▸ hrun⟩
  · intro hruns
    obtain ⟨stream, hstream, hstart⟩ := h.reaches
    obtain ⟨again, hagain, hplace, hsame⟩ :=
      exists_arrowFunctionOr_eq other h hfault hstream hstart
    obtain ⟨after, hrun, hafter, hstop⟩ :=
      hother.exists_run hruns hagain hplace
    exact ⟨stream, after, hstream, hafter, hstart, hstop, hsame.trans hrun⟩

theorem Fails.fails_arrowFunctionOr [grammar.IsDisciplined]
    [hother : Disciplined false other]
    (h : Fails text (grammar.arrowFunction ends) start error)
    (hfault : error.fault ≠ .lineBreakBeforeArrow) :
    Fails text (grammar.arrowFunctionOr ends other) start found ↔
      Fails text other start found := by
  constructor
  · rintro ⟨stream, after, hstream, hstart, hrun⟩
    obtain ⟨again, hagain, hplace, hsame⟩ :=
      exists_arrowFunctionOr_eq other h hfault hstream hstart
    exact ⟨again, after, hagain, hplace, hsame ▸ hrun⟩
  · intro hfails
    obtain ⟨stream, hstream, hstart⟩ := h.reaches
    obtain ⟨again, hagain, hplace, hsame⟩ :=
      exists_arrowFunctionOr_eq other h hfault hstream hstart
    obtain ⟨after, hrun⟩ := hother.exists_failure hfails hagain hplace
    exact ⟨stream, after, hstream, hstart, hsame.trans hrun⟩

end Attempts

/-! ### Handing over -/

section HandingOver

/-- In a run from a place a parser hands over to another one at a place: its
outcome is a failure if that of the other one is.  If an arrow function was
`attempted` on the way, this holds only of errors that end an attempt. -/
inductive HandsOver (text : List Char) :
    (attempted : Bool) → {α β : Type} → Parser α → Nat → Parser β → Nat → Prop
  | here {α : Type} (parser : Parser α) (place : Nat) :
      HandsOver text false parser place parser place
  | first {α β γ : Type} {attempted : Bool} {parser : Parser α}
      {next : α → Parser β} {inner : Parser γ} {start place : Nat} :
      HandsOver text attempted parser start inner place →
      HandsOver text attempted (parser >>= next) start inner place
  | next {α β γ : Type} {attempted : Bool} {parser : Parser α}
      {next : α → Parser β} {inner : Parser γ} {value : α}
      {start between place : Nat} [Disciplined false (next value)] :
      Runs text parser start value between →
      HandsOver text attempted (next value) between inner place →
      HandsOver text attempted (parser >>= next) start inner place
  | withSpan {α γ : Type} {attempted : Bool} {parser : Parser α}
      {inner : Parser γ} {start place : Nat} :
      HandsOver text attempted parser start inner place →
      HandsOver text attempted (withSpan parser) start inner place
  | rewinding {α β γ : Type} {attempted : Bool} {parser : Parser α}
      {next : α → Parser β} {inner : Parser γ} {value : α}
      {start between place : Nat} (back : α → Bool) [Disciplined false parser]
      [∀ value, Disciplined false (next value)] :
      Runs text parser start value between →
      HandsOver text attempted (next value) (if back value then start
        else between) inner place →
      HandsOver text attempted (rewinding parser back next) start inner place
  | iterate {α β γ : Type} {attempted : Bool} {step : β → Parser (β ⊕ α)}
      {inner : Parser γ} {state later : β} {start between place : Nat}
      [∀ state, Disciplined false (step state)]
      [∀ state, GoesOnIf Sum.isLeft (step state)] :
      Steps text step state start later between →
      HandsOver text attempted (step later) between inner place →
      HandsOver text attempted (iterate step state) start inner place
  | attempted {γ : Type} {attempted : Bool} {inner : Parser γ}
      (grammar : Grammar) (ends : List TokenKind) (other : Parser Node)
      {start place : Nat} :
      HandsOver text attempted (grammar.arrowFunction ends) start inner place →
      HandsOver text true (grammar.arrowFunctionOr ends other) start inner place
  | agreeing {α γ : Type} {attempted : Bool} {parser parser' : Parser α}
      {inner : Parser γ} {start place : Nat} :
      (∀ stream, stream.Reads text → parser stream = parser' stream) →
      HandsOver text attempted parser' start inner place →
      HandsOver text attempted parser start inner place

/-- What is handed over to decides: where it fails, all of the parser does. -/
theorem HandsOver.fails {attempted : Bool} {inner : Parser β} {place : Nat}
    (h : HandsOver text attempted parser start inner place)
    (hfails : Fails text inner place error)
    (hends : attempted = false ∨ error.fault = .lineBreakBeforeArrow) :
    Fails text parser start error := by
  induction h with
  | here parser place => exact hfails
  | first _ ih => exact (ih hfails hends).first
  | next hfirst _ ih => exact hfirst.fails (ih hfails hends)
  | withSpan _ ih => exact (ih hfails hends).withSpan
  | rewinding back hfirst _ ih =>
      rw [Disciplined.fails_rewinding inferInstance inferInstance]
      exact .inr ⟨_, _, hfirst, ih hfails hends⟩
  | iterate hsteps _ ih => exact hsteps.fails_iterate (ih hfails hends)
  | attempted grammar ends other _ ih =>
      have hfault := hends.resolve_left Bool.noConfusion
      exact (ih hfails (.inr hfault)).arrowFunctionOr hfault
  | agreeing hsame _ ih =>
      obtain ⟨stream, after, hstream, hstart, hrun⟩ := ih hfails hends
      exact ⟨stream, after, hstream, hstart, (hsame stream hstream).trans hrun⟩

theorem HandsOver.trans {γ : Type} {attempted later : Bool}
    {middle : Parser β} {inner : Parser γ} {between place : Nat}
    (h : HandsOver text attempted parser start middle between)
    (hlater : HandsOver text later middle between inner place) :
    HandsOver text (attempted || later) parser start inner place := by
  induction h with
  | here parser place => exact hlater
  | first _ ih => exact .first (ih hlater)
  | next hfirst _ ih => exact .next hfirst (ih hlater)
  | withSpan _ ih => exact .withSpan (ih hlater)
  | rewinding back hfirst _ ih => exact .rewinding back hfirst (ih hlater)
  | iterate hsteps _ ih => exact .iterate hsteps (ih hlater)
  | attempted grammar ends other _ ih =>
      exact .attempted grammar ends other (ih hlater)
  | agreeing hsame _ ih => exact .agreeing hsame (ih hlater)

instance {item : Parser (Option α)} [h : Disciplined false item]
    (found : List α) : Disciplined false (collectStep item found) := by
  rw [collectStep]
  refine .bind h fun outcome => ?_
  cases outcome with
  | none => infer_instance
  | some value => infer_instance

instance {item : Parser (Option α)} [hgoes : GoesOnIf Option.isSome item]
    (found : List α) : GoesOnIf Sum.isLeft (collectStep item found) := by
  constructor
  intro stream result after hrun hleft
  obtain ⟨outcome, between, hitem, hpure⟩ := Outcome.bind_eq_ok_iff.mp hrun
  cases outcome with
  | none =>
      cases hpure
      cases hleft
  | some value =>
      cases hpure
      exact hgoes.goesOn hitem rfl

/-- Where a collection fails, what is collected there does. -/
theorem HandsOver.collect {attempted : Bool} {item : Parser (Option α)}
    [Disciplined false item] [GoesOnIf Option.isSome item] {inner : Parser β}
    {found : List α} {between place : Nat}
    (hsteps : Steps text (collectStep item) [] start found between)
    (h : HandsOver text attempted item between inner place) :
    HandsOver text attempted (Parser.collect item) start inner place := by
  change HandsOver text attempted (Parser.iterate (collectStep item) [] >>=
    fun found => pure found.reverse) start inner place
  exact .first (.iterate hsteps (.first h))

end HandingOver

end Parser

/-! ### Statements -/

namespace Grammar

open Bundler.Parser

variable {rules : NameRules} {source : String} {place : Nat}

instance {grammar : Grammar} [grammar.IsDisciplined] :
    Disciplined false grammar.nextStatement :=
  grammar.disciplined_nextStatement

instance {grammar : Grammar} [grammar.IsDisciplined] [grammar.IsAdvancing] :
    GoesOnIf Option.isSome grammar.nextStatement := by
  rw [nextStatement]
  infer_instance

theorem fails_of_settles {α : Type} {parser parser' : Parser α}
    {error : SyntaxError}
    (h : Settles source.toList (source.utf8ByteSize + 2) parser parser') :
    Fails source.toList parser place error ↔
      Fails source.toList parser' place error := by
  have hagrees : ∀ {stream : TokenStream}, stream.Reads source.toList →
      parser stream = parser' stream :=
    fun hstream => h.agrees hstream (unread_lt hstream)
  constructor
  · rintro ⟨stream, after, hstream, hstart, hrun⟩
    exact ⟨stream, after, hstream, hstart, (hagrees hstream).symm.trans hrun⟩
  · rintro ⟨stream, after, hstream, hstart, hrun⟩
    exact ⟨stream, after, hstream, hstart, (hagrees hstream).trans hrun⟩

/-- Behind the statements that have been read a source goes on with the next
one. -/
theorem handsOver_statement {found : List Node}
    (hsteps : Steps source.toList
      (collectStep (forSource .module source).nextStatement) [] 0 found place)
    (hplace : Reaches source.toList place)
    (hmore : (tokenAt source.toList .standard place).kind ≠ .endOfInput) :
    HandsOver source.toList false (Program.wholeSource source) 0
      (forSource .module source).statement place := by
  have hnext : HandsOver source.toList false
      (forSource .module source).nextStatement place
      (forSource .module source).statement place := by
    rw [nextStatement]
    refine .next (runs_peekKind.mpr ⟨hplace, rfl, rfl⟩) ?_
    rw [if_neg (by simpa using hmore)]
    exact .first (.here _ _)
  exact .first (.collect hsteps hnext)

/-- What starts with a parenthesis is an expression as a statement. -/
theorem handsOver_expression
    (hplace : Reaches source.toList place)
    (hopen : (tokenAt source.toList .standard place).kind =
      .punctuator .parenthesisOpen) :
    HandsOver source.toList false (forSource rules source).statement place
      ((forSource rules source).expressionOrLine [.punctuator .semicolon])
      place := by
  refine .agreeing (fun stream hstream => settling_deepen.statement.agrees
    hstream (unread_lt hstream)) ?_
  change HandsOver source.toList false (forSource rules source).statementRule _
    _ _
  have hexpression : HandsOver source.toList false
      (forSource rules source).expressionStatement place
      ((forSource rules source).expressionOrLine [.punctuator .semicolon])
      place := by
    rw [expressionStatement, lastExpression]
    exact .first (.withSpan (.first (.first (.here _ _))))
  rw [statementRule]
  have hother : (forSource rules source).otherStatement
      (tokenAt source.toList .standard place) (tokenAt source.toList .standard
        (tokenAt source.toList .standard place).span.stop) =
      (forSource rules source).expressionStatement := by
    simp [hopen, otherStatement, startsVariables, NameRules.allows]
  refine @HandsOver.next _ _ _ _ _ _ _ _ _ _ _ _ ?_
    (runs_peekTwo.mpr ⟨hplace, rfl, rfl⟩) ?_
  · simp only [hopen, hother]
    infer_instance
  · simp only [hopen, hother]
    exact hexpression

end Grammar

end Bundler
