import Bundler.Proofs.Parser.Located
import Bundler.Proofs.Parser.Locality
import Bundler.Proofs.Parser.Progress
import Bundler.Proofs.Parser.Tokens

/-!
# Parsers that place what they yield

A node spans the tokens that it is read from, so it lies where these tokens lie,
and that is known when it is known which tokens are consumed in the end.  A
passage is what is known of that.  A parser is sound if what it yields within
any passage is placed within the tokens of the passage, and if an error that it
reports is placed in the text.

Something may be kept on the way, whatever is looked at and however often.  Text
inside of a template is lexed only behind a part of a template, which is what
keeping it may rely on.
-/

set_option synthInstance.maxSize 1000

namespace Bundler

/-! ### Passages -/

open TokenStream

/-- The tokens that are consumed in the end, from the first one of some part of
the text on, and something that is kept whatever is looked at. -/
structure Passage where
  text : List Char
  first : Nat
  last : TokenStream
  reads : last.Reads text
  Kept : TokenStream → Prop
  kept_forward : ∀ {stream} mode keep, stream.Reads text → Kept stream →
    (mode = .templateContinue → stream.HasPart) →
    Kept (stream.forward mode keep).2
  kept_restore : ∀ {stream count}, count ≤ stream.consumed → Kept stream →
    Kept (stream.restore ⟨count⟩)

/-- A failure is placed where its error is. -/
instance : HasPlaces ParseFailure :=
  ⟨fun bounds failure => ∀ error, failure = .refused error →
    HasPlaces.IsPlaced bounds error⟩

theorem placed_exhausted {bounds : Bounds} :
    Placed bounds ParseFailure.exhausted :=
  ⟨fun _ hrefused => nomatch hrefused⟩

namespace Passage

variable (passage : Passage) {α β : Type} {stream after : TokenStream}

/-- The text of a passage and the range of its tokens. -/
def bounds : Bounds :=
  ⟨passage.text, passage.last.spanSince ⟨passage.first⟩⟩

/-- A stream is somewhere in a passage. -/
structure Enters (stream : TokenStream) : Prop where
  reads : stream.Reads passage.text
  first_le : passage.first ≤ stream.consumed
  kept : passage.Kept stream

/-- A run has come out well, if what it has consumed is consumed in the end. -/
def Leaves (Post : α → TokenStream → Prop) :
    EStateM.Result ParseFailure TokenStream α → Prop
  | .ok value after => Leads 0 after passage.last →
      passage.Kept after ∧ Post value after
  | .error failure after => Leads 0 after passage.last →
      passage.Kept after ∧ Placed passage.bounds failure

variable {passage} {Post Goal : α → TokenStream → Prop}

theorem Leaves.mono {outcome : EStateM.Result ParseFailure TokenStream α}
    (h : passage.Leaves Post outcome)
    (hgoal : ∀ value after, outcome = .ok value after →
      Leads 0 after passage.last → Post value after → Goal value after) :
    passage.Leaves Goal outcome := by
  cases outcome with
  | ok value after =>
      intro hlast
      obtain ⟨hkept, hpost⟩ := h hlast
      exact ⟨hkept, hgoal value after rfl hlast hpost⟩
  | error failure after => exact h

theorem leaves_pure {value : α} (henters : passage.Enters stream)
    (hpost : Leads 0 stream passage.last → Post value stream) :
    passage.Leaves Post ((pure value : Parser α) stream) :=
  fun hlast => ⟨henters.kept, hpost hlast⟩

theorem leaves_fail {error : SyntaxError} (henters : passage.Enters stream)
    (herror : Leads 0 stream passage.last → error.span.IsIn passage.text) :
    passage.Leaves Post ((Parser.fail error : Parser α) stream) := by
  refine fun hlast => ⟨henters.kept, ⟨?_⟩⟩
  rintro _ ⟨⟩
  exact herror hlast

variable {parser : Parser α}

/-- That a run comes out well may be shown from what it has consumed being
consumed in the end. -/
theorem leaves_of_leads
    (h : Leads 0 (Parser.leaves parser stream) passage.last →
      passage.Leaves Post (parser stream)) :
    passage.Leaves Post (parser stream) := by
  rw [Parser.leaves] at h
  cases hrun : parser stream with
  | ok value after =>
      rw [hrun] at h
      exact fun hlast => h hlast hlast
  | error failure after =>
      rw [hrun] at h
      exact fun hlast => h hlast hlast

/-- What the rest of a sequence consumes comes on top of what its first part
does, so both are consumed in the end. -/
theorem leaves_bind {next : α → Parser β} {Goal : β → TokenStream → Prop}
    (henters : passage.Enters stream)
    (hparser : Parser.Disciplined false parser)
    (hrest : ∀ value, Parser.Disciplined false (next value))
    (hfirst : passage.Leaves Post (parser stream))
    (hnext : ∀ value between, parser stream = .ok value between →
      Leads 0 stream between → passage.Enters between →
      Leads 0 between passage.last → Post value between →
      passage.Leaves Goal (next value between)) :
    passage.Leaves Goal ((parser >>= next) stream) := by
  cases hrun : parser stream with
  | error failure between =>
      rw [Outcome.bind_of_error hrun]
      rw [hrun] at hfirst
      exact hfirst
  | ok value between =>
      rw [Outcome.bind_of_ok hrun]
      rw [hrun] at hfirst
      have hreads := hparser.reads henters.reads hrun
      have hleads := ((hrest value).leads_leaves hreads.lexes).2
      refine leaves_of_leads fun hlast => ?_
      have hbetween := hleads.trans hlast
      obtain ⟨hkept, hpost⟩ := hfirst hbetween
      exact hnext value between hrun
        (hparser.leads henters.reads.lexes hrun).2
        ⟨hreads, Nat.le_trans henters.first_le
          (hparser.consumed_le_of_ok hrun), hkept⟩ hbetween hpost

/-- Consumed tokens of a passage are within its bounds. -/
theorem covers_of_consumes {token : Token}
    (htoken : Consumes passage.first passage.last token) :
    passage.bounds.Covers token.span := by
  have hfirst : passage.first ≤ passage.last.consumed := by
    obtain ⟨index, next, hindex, hlt, _, _⟩ := htoken
    exact Nat.le_of_lt (Nat.lt_of_le_of_lt hindex hlt)
  have hlexes := passage.reads.lexes.above (Nat.zero_le _) hfirst
  exact ⟨(passage.reads.isIn_of_consumes htoken).span,
    Span.contains_iff.mpr (hlexes.spanSince_encloses htoken)⟩

/-- What is consumed somewhere in a passage is within its bounds. -/
theorem covers_token (henters : passage.Enters stream) {token : Token}
    (htoken : Consumes stream.consumed after token)
    (hlast : Leads 0 after passage.last) :
    passage.bounds.Covers token.span :=
  covers_of_consumes
    ((htoken.leads (Nat.zero_le _) hlast).mono henters.first_le)

/-- The range of what is consumed in a passage is within its bounds. -/
theorem covers_spanSince (henters : passage.Enters stream)
    (hafter : after.Reads passage.text)
    (hlt : stream.consumed < after.consumed)
    (hlast : Leads 0 after passage.last) :
    passage.bounds.Covers (after.spanSince stream.checkpoint) := by
  have hlexes := hafter.lexes.above (Nat.zero_le _) (Nat.le_of_lt hlt)
  obtain ⟨head, tail, hhead, htail, hspan, _⟩ := hlexes.exists_spanSince hlt
  have hstart := Span.contains_iff.mp (covers_token henters hhead hlast).2
  have hstop := Span.contains_iff.mp (covers_token henters htail hlast).2
  refine ⟨hafter.isIn_spanSince hlt, Span.contains_iff.mpr ?_⟩
  have hspan : after.spanSince stream.checkpoint = _ := hspan
  rw [hspan]
  exact ⟨hstart.1, hstop.2⟩

/-- The place behind what has been consumed of a passage is within its
bounds. -/
theorem covers_lastEnd (hreads : stream.Reads passage.text)
    (hlt : passage.first < stream.consumed)
    (hlast : Leads 0 stream passage.last) :
    passage.bounds.Covers (.point stream.lastEnd) := by
  have hlexes := hreads.lexes.above (Nat.zero_le _) (Nat.le_of_lt hlt)
  obtain ⟨_, tail, _, htail, _, hstop⟩ := hlexes.exists_spanSince hlt
  obtain ⟨hin, hcontains⟩ :=
    covers_of_consumes (htail.leads (Nat.zero_le _) hlast)
  rw [Span.contains_iff] at hcontains
  rw [← hstop]
  exact ⟨Span.isIn_point hin.2.1, Span.contains_iff.mpr
    ⟨Nat.le_trans hcontains.1 hin.2.2, hcontains.2⟩⟩

end Passage

namespace Parser

/-- Parsers that place what they yield within any stream of a passage. -/
class Sound {α : Type} [HasPlaces α] (passage : Passage) (parser : Parser α) :
    Prop where
  sound : ∀ {stream}, passage.Enters stream →
    passage.Leaves (fun value _ => Placed passage.bounds value)
      (parser stream)

section Composition

variable {passage : Passage} {α β : Type} [HasPlaces α] [HasPlaces β]
  {parser : Parser α} {next : α → Parser β} {stream after : TokenStream}

theorem Sound.run (h : Sound passage parser)
    (henters : passage.Enters stream) :
    passage.Leaves (fun value _ => Placed passage.bounds value)
      (parser stream) := h.sound henters

instance {value : α} [h : Placed passage.bounds value] :
    Sound passage (pure value : Parser α) :=
  ⟨fun henters => Passage.leaves_pure henters fun _ => h⟩

instance {error : SyntaxError} [h : Placed passage.bounds error] :
    Sound passage (fail error : Parser α) :=
  ⟨fun henters => Passage.leaves_fail henters fun _ => h.placed⟩

instance : Sound passage (exhausted : Parser α) :=
  ⟨fun henters _ => ⟨henters.kept, placed_exhausted⟩⟩

/-- What is consumed by a run comes on top of what had been consumed. -/
theorem Sound.runs (h : Sound passage parser)
    (hparser : Disciplined false parser) (henters : passage.Enters stream) :
    passage.Leaves
      (fun value after => Placed passage.bounds value ∧
        Leads 0 stream after) (parser stream) :=
  (h.sound henters).mono fun _ _ hrun _ hvalue =>
    ⟨hvalue, (hparser.leads henters.reads.lexes hrun).2⟩

theorem Sound.bind (hparser : Disciplined false parser)
    (h : Sound passage parser)
    (hrest : ∀ value, Disciplined false (next value))
    (hnext : ∀ value, Placed passage.bounds value →
      Sound passage (next value)) : Sound passage (parser >>= next) :=
  ⟨fun henters => Passage.leaves_bind henters hparser hrest (h.sound henters)
    fun value _ _ _ hbetween _ hvalue => (hnext value hvalue).sound hbetween⟩

instance [hparser : Disciplined false parser] [h : Sound passage parser]
    [hrest : ∀ value, Disciplined false (next value)]
    [hnext : ∀ found : PlacedValue passage.bounds α,
      Sound passage (next found.value)] : Sound passage (parser >>= next) :=
  .bind hparser h hrest fun value hvalue => hnext ⟨value, hvalue⟩

instance {condition : Prop} [Decidable condition] {other : Parser α}
    [h : Sound passage parser] [hother : Sound passage other] :
    Sound passage (if condition then parser else other) := by
  split
  · exact h
  · exact hother

instance {error : SyntaxError} [Placed passage.bounds error] :
    Sound passage (fail error >>= next) := by
  rw [fail_bind]
  infer_instance

/-! ### Passages of their own -/

/-- A run that succeeds is a passage of its own. -/
theorem Sound.of_ok (h : ∀ passage, Sound passage parser)
    (henters : passage.Enters stream) {value : α}
    (hrun : parser stream = .ok value after)
    (hafter : after.Reads passage.text) :
    passage.Kept after ∧
      Placed ⟨passage.text, after.spanSince stream.checkpoint⟩ value := by
  let own : Passage :=
    { passage with first := stream.consumed, last := after, reads := hafter }
  have hown : own.Enters stream :=
    ⟨henters.reads, Nat.le_refl _, henters.kept⟩
  have hleaves := (h own).sound hown
  rw [hrun] at hleaves
  exact hleaves (.refl after)

/-- What a run yields lies behind what had been consumed before it, up to what
has been consumed by it. -/
theorem Sound.placed_spanSince (h : ∀ passage, Sound passage parser)
    (hparser : Disciplined false parser) (hadvances : Advances parser)
    (henters : passage.Enters stream) {value : α}
    (hrun : parser stream = .ok value after) :
    let span := after.spanSince stream.checkpoint
    Placed ⟨passage.text, span⟩ value ∧ stream.lastEnd ≤ span.start ∧
      span.stop = after.lastEnd ∧
      (Leads 0 after passage.last → passage.bounds.Covers span) := by
  have hlt := hadvances.lt hrun
  have hafter := hparser.reads henters.reads hrun
  have hleads := (hparser.leads henters.reads.lexes hrun).2
  have hlexes := hafter.lexes.above (Nat.zero_le _) (Nat.le_of_lt hlt)
  obtain ⟨head, tail, hhead, _, hspan, hstop⟩ := hlexes.exists_spanSince hlt
  have hspan : after.spanSince stream.checkpoint = _ := hspan
  refine ⟨(Sound.of_ok h henters hrun hafter).2, ?_, ?_,
    Passage.covers_spanSince henters hafter hlt⟩
  · rw [hspan]
    exact henters.reads.lastEnd_le_start hafter hleads hhead
  · rw [hspan]
    exact hstop

theorem Sound.of_error (h : ∀ passage, Sound passage parser)
    (henters : passage.Enters stream) {failure : ParseFailure}
    (hrun : parser stream = .error failure after)
    (hafter : after.Reads passage.text) :
    passage.Kept after ∧ Placed passage.bounds failure := by
  let own : Passage :=
    { passage with first := stream.consumed, last := after, reads := hafter }
  have hown : own.Enters stream :=
    ⟨henters.reads, Nat.le_refl _, henters.kept⟩
  have hleaves := (h own).sound hown
  rw [hrun] at hleaves
  obtain ⟨hkept, hfailure⟩ := hleaves (.refl after)
  exact ⟨hkept, ⟨hfailure.placed⟩⟩

instance [hparser : Disciplined false parser]
    [h : ∀ passage, Sound passage parser] :
    Sound passage (attempt parser) := by
  constructor
  intro stream henters
  have hleaves := (h passage).sound henters
  have hafter := hparser.reads_leaves henters.reads
  rw [attempt]
  cases hrun : parser stream with
  | ok value after =>
      rw [hrun] at hleaves
      intro hlast
      obtain ⟨hkept, hvalue⟩ := hleaves hlast
      exact ⟨hkept, ⟨hvalue.placed⟩⟩
  | error failure after =>
      rw [leaves_of_error hrun] at hafter
      obtain ⟨hkept, hfailure⟩ := Sound.of_error h henters hrun hafter
      cases failure with
      | refused error => exact fun _ => ⟨hkept, ⟨hfailure.placed error rfl⟩⟩
      | exhausted => exact fun _ => ⟨hkept, hfailure⟩

omit [HasPlaces β] in
/-- Of a value that is gone back from, it is known only that it is placed in the
text. -/
theorem leaves_rewinding {back : α → Bool} {Goal : β → TokenStream → Prop}
    (henters : passage.Enters stream)
    (hparser : Disciplined false parser) (h : ∀ passage, Sound passage parser)
    (hrest : ∀ value, Disciplined false (next value))
    (hnext : ∀ value between span, parser stream = .ok value between →
      Placed ⟨passage.text, span⟩ value →
      (back value = false → Leads 0 between passage.last →
        Placed passage.bounds value) →
      let start :=
        if back value then between.restore stream.checkpoint else between
      passage.Enters start → Leads 0 stream start →
      Leads 0 start passage.last → passage.Leaves Goal (next value start)) :
    passage.Leaves Goal (rewinding parser back next stream) := by
  have hleaves := hparser.reads_leaves henters.reads
  cases hrun : parser stream with
  | error failure between =>
      rw [leaves_of_error hrun] at hleaves
      rw [rewinding_of_error hrun]
      exact fun _ => Sound.of_error h henters hrun hleaves
  | ok value between =>
      rw [leaves_of_ok hrun] at hleaves
      obtain ⟨hkept, hplaced⟩ := Sound.of_ok h henters hrun hleaves
      -- Going back is part of a disciplined parser, so it goes on as well.
      have hback := hparser.rewinding back fun value => .pure value
      have hpure : rewinding parser back (pure : α → Parser α) stream =
          .ok value (if back value then between.restore stream.checkpoint
            else between) := rewinding_of_ok hrun
      have hstart : passage.Enters
          (if back value then between.restore stream.checkpoint
            else between) := by
        refine ⟨hback.reads henters.reads hpure,
          Nat.le_trans henters.first_le (hback.consumed_le_of_ok hpure), ?_⟩
        split
        · exact passage.kept_restore (hparser.consumed_le_of_ok hrun) hkept
        · exact hkept
      rw [rewinding_of_ok hrun]
      have hleads := ((hrest value).leads_leaves hstart.reads.lexes).2
      refine Passage.leaves_of_leads fun hlast => ?_
      refine hnext value between _ hrun hplaced (fun _ hbetween => ?_) hstart
        (hback.leads henters.reads.lexes hpure).2 (hleads.trans hlast)
      have hvalue := (h passage).sound henters
      rw [hrun] at hvalue
      exact (hvalue hbetween).2

theorem Sound.rewinding {back : α → Bool}
    (hparser : Disciplined false parser) (h : ∀ passage, Sound passage parser)
    (hrest : ∀ value, Disciplined false (next value))
    (hnext : ∀ value span, Placed ⟨passage.text, span⟩ value →
      (back value = false → Placed passage.bounds value) →
      Sound passage (next value)) :
    Sound passage (rewinding parser back next) := by
  refine ⟨fun henters => leaves_rewinding henters hparser h hrest
    fun value between span _ hplaced hvalue hstart _ hlast => ?_⟩
  refine (hnext value span hplaced fun hgoes => ?_).sound hstart
  rw [hgoes, if_neg Bool.false_ne_true] at hlast
  exact hvalue hgoes hlast

/-! ### Nodes -/

/-- What a node is made of lies within its range, and the range within the
passage. -/
theorem Sound.node {nodes : Parser Node} {shape : Parser (Shape Node)}
    (heq : nodes = node shape) (hnodes : Disciplined false nodes)
    (hadvances : Advances nodes) (h : ∀ passage, Sound passage shape) :
    Sound passage nodes := by
  constructor
  intro stream henters
  have hleaves := hnodes.reads_leaves henters.reads
  cases hrun : shape stream with
  | error failure after =>
      have hnode : nodes stream = .error failure after := by
        rw [heq, Parser.node, Outcome.bind_of_error (withSpan_of_error hrun)]
      rw [leaves_of_error hnode] at hleaves
      rw [hnode]
      exact fun _ => Sound.of_error h henters hrun hleaves
  | ok found after =>
      have hnode : nodes stream =
          .ok (.mk (after.spanSince stream.checkpoint) found) after := by
        rw [heq, Parser.node, Outcome.bind_of_ok (withSpan_of_ok hrun)]
        rfl
      rw [leaves_of_ok hnode] at hleaves
      rw [hnode]
      obtain ⟨hkept, hfound⟩ := Sound.of_ok h henters hrun hleaves
      intro hlast
      obtain ⟨hin, hcontains⟩ :=
        Passage.covers_spanSince henters hleaves (hadvances.lt hnode) hlast
      exact ⟨hkept, ⟨.mk hin hcontains hfound.placed⟩⟩

instance {shape : Parser (Shape Node)} [hshape : Disciplined true shape]
    [hadvances : Advances shape] [h : ∀ passage, Sound passage shape] :
    Sound passage (Parser.node shape) :=
  .node rfl (.node hshape) (.node hadvances) h

end Composition

/-! ### Tokens -/

section Tokens

variable {passage : Passage} {α : Type} [HasPlaces α] {parser : Parser α}

/-- Looking at a token keeps what is kept whatever is looked at. -/
theorem leaves_forward {stream : TokenStream}
    (henters : passage.Enters stream) {mode : LexMode} (keep : Token → Bool)
    (hmode : mode = .templateContinue → stream.HasPart) :
    passage.Leaves (fun token _ => Placed passage.bounds token)
      (forward mode keep stream) :=
  fun _ => ⟨passage.kept_forward mode keep henters.reads henters.kept hmode,
    ⟨henters.reads.isIn_upcoming mode⟩⟩

theorem Sound.forward {mode : LexMode} (hmode : mode ≠ .templateContinue)
    (keep : Token → Bool) : Sound passage (forward mode keep) :=
  ⟨fun henters => leaves_forward henters keep fun h => absurd h hmode⟩

instance {keep : Token → Bool} : Sound passage (forward .standard keep) :=
  .forward LexMode.noConfusion keep

instance : Sound passage (consumeIn .slashIsRegex) :=
  .forward LexMode.noConfusion _

instance : Sound passage consume := .forward LexMode.noConfusion _

instance : Sound passage (peekIn .slashIsRegex) :=
  .forward LexMode.noConfusion _

instance : Sound passage peek := .forward LexMode.noConfusion _

instance : Sound passage peekKind := by
  rw [peekKind]
  infer_instance

theorem Sound.mapM_consumeIn {modes : List LexMode}
    (hmodes : ∀ mode ∈ modes, mode ≠ .templateContinue) :
    Sound passage (modes.mapM consumeIn) := by
  induction modes with
  | nil =>
      rw [List.mapM_nil]
      infer_instance
  | cons mode modes ih =>
      obtain ⟨hmode, hmodes⟩ := List.forall_mem_cons.mp hmodes
      have hfirst : Sound passage (consumeIn mode) := .forward hmode _
      have hothers := ih hmodes
      rw [List.mapM_cons]
      infer_instance

theorem Sound.peekAhead {modes : List LexMode}
    (hmodes : ∀ mode ∈ modes, mode ≠ .templateContinue) :
    Sound passage (peekAhead modes) := by
  rw [peekAhead_eq]
  refine .rewinding inferInstance (fun _ => .mapM_consumeIn hmodes)
    inferInstance fun tokens span htokens _ => ?_
  have htokens : Placed passage.bounds tokens := ⟨htokens.placed⟩
  infer_instance

instance : Sound passage peekTwo := by
  rw [peekTwo_eq]
  refine .rewinding inferInstance inferInstance inferInstance
    fun tokens span htokens _ => ?_
  have htokens : Placed passage.bounds tokens := ⟨htokens.placed⟩
  infer_instance

instance {condition : Token → Bool} :
    Sound passage (consumeWhen condition) := by
  rw [consumeWhen]
  infer_instance

instance {kind : TokenKind} : Sound passage (accept kind) := by
  rw [accept]
  infer_instance

instance {kind : TokenKind} :
    Sound passage (requireIn .slashIsRegex kind) := by
  rw [requireIn]
  infer_instance

instance {kind : TokenKind} : Sound passage (require kind) := by
  have hconsume : Sound passage (consumeIn .standard) :=
    inferInstanceAs (Sound passage consume)
  rw [require, requireIn]
  infer_instance

instance {mark : Punctuator} : Sound passage (acceptMark mark) := by
  rw [acceptMark]
  infer_instance

instance {word : Keyword} : Sound passage (acceptWord word) := by
  rw [acceptWord]
  infer_instance

instance {mark : Punctuator} : Sound passage (requireMark mark) := by
  rw [requireMark]
  infer_instance

instance {word : Keyword} : Sound passage (requireWord word) := by
  rw [requireWord]
  infer_instance

instance {mark : Punctuator} [Disciplined false parser]
    [Sound passage parser] : Sound passage (afterMark mark parser) := by
  rw [afterMark]
  infer_instance

instance {word : Keyword} [Disciplined false parser]
    [Sound passage parser] : Sound passage (afterWord word parser) := by
  rw [afterWord]
  infer_instance

end Tokens

/-! ### Repetition -/

section Repetition

variable {passage : Passage} {α β : Type} [HasPlaces α] [HasPlaces β]
  {step : β → Parser (β ⊕ α)}

omit [HasPlaces β] in
/-- A repetition comes out well if each step does, from what the steps before it
have brought about. -/
theorem leaves_iterate (Holds : β → TokenStream → Prop)
    (hstep : ∀ state, Disciplined false (step state))
    (h : ∀ {state stream}, passage.Enters stream → Holds state stream →
      passage.Leaves (fun outcome after => match outcome with
        | .inl state => Holds state after
        | .inr result => Placed passage.bounds result) (step state stream))
    {state : β} {stream : TokenStream} (henters : passage.Enters stream)
    (hstate : Holds state stream) :
    passage.Leaves (fun result _ => Placed passage.bounds result)
      (iterate step state stream) := by
  have hsteps : ∀ fuel {state stream}, passage.Enters stream →
      Holds state stream →
      passage.Leaves (fun result _ => Placed passage.bounds result)
        (iterateWith step fuel state stream) := by
    intro fuel
    induction fuel with
    | zero => exact fun henters _ _ => ⟨henters.kept, placed_exhausted⟩
    | succ fuel ih =>
        intro state stream henters hstate
        rw [iterateWith]
        refine Passage.leaves_bind henters (hstep state) (fun outcome => ?_)
          (h henters hstate) fun outcome between _ _ hbetween _ houtcome => ?_
        · cases outcome with
          | inl state => exact .iterateWith hstep fuel state
          | inr result => exact .pure result
        · cases outcome with
          | inl state => exact ih hbetween houtcome
          | inr result =>
              exact Passage.leaves_pure hbetween fun _ => houtcome
  exact hsteps (stream.unread + 2) henters hstate

theorem Sound.iterate (hstep : ∀ state, Disciplined false (step state))
    (h : ∀ state, Placed passage.bounds state → Sound passage (step state))
    {state : β} (hstate : Placed passage.bounds state) :
    Sound passage (iterate step state) := by
  constructor
  intro stream henters
  refine leaves_iterate
    (fun state _ => Placed passage.bounds state) hstep
    (fun {state stream} henters hstate => ?_) henters hstate
  refine ((h state hstate).sound henters).mono
    fun outcome after _ _ houtcome => ?_
  cases outcome with
  | inl state => exact ⟨houtcome.placed⟩
  | inr result => exact ⟨houtcome.placed⟩

instance [hstep : ∀ state, Disciplined false (step state)]
    [h : ∀ found : PlacedValue passage.bounds β,
      Sound passage (step found.value)]
    {state : β} [hstate : Placed passage.bounds state] :
    Sound passage (Parser.iterate step state) :=
  .iterate hstep (fun value hvalue => h ⟨value, hvalue⟩) hstate

instance {item : Parser (Option α)} [hitem : Disciplined false item]
    [h : Sound passage item] : Sound passage (collect item) := by
  rw [collect]
  refine .bind (.iterate fun found => .bind hitem fun value => ?_)
    (.iterate (fun found => .bind hitem fun value => ?_)
      (fun found hfound => .bind hitem h (fun value => ?_)
        fun value hvalue => ?_) inferInstance)
    inferInstance fun values hvalues => inferInstance
  · cases value <;> infer_instance
  · cases value <;> infer_instance
  · cases value <;> infer_instance
  · cases value with
    | none => infer_instance
    | some value =>
        have hvalue := hvalue.of_some
        infer_instance

instance {ends : List TokenKind} {parser : Parser α}
    [Disciplined false parser] [Sound passage parser] :
    Sound passage (untilKind ends parser) := by
  rw [untilKind]
  infer_instance

instance {close : Punctuator} {item : Parser α} [Disciplined false item]
    [Sound passage item] : Sound passage (commaList close item) := by
  rw [commaList]
  infer_instance

end Repetition

end Parser

end Bundler
