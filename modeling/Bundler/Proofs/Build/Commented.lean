import Bundler.Proofs.Analysis.Plain
import Bundler.Proofs.Build.Emission
import Bundler.Proofs.Build.ReadBack
import Bundler.Proofs.Lexer.Margins
import Bundler.Proofs.Parser.Comments
import Bundler.Proofs.Parser.Locations
import Mathlib.Data.List.TakeDrop
import Mathlib.Data.List.TakeWhile

/-!
# Bundles with and without comments

Whether comments are kept changes nothing but the comments: the same bundle is
built, the same statements are written, and between two of them stands a margin,
which holds a line break and is passed over in front of every token.  With
comments this holds as long as no module ends in one that is never closed.
-/

namespace Bundler

namespace Chunk

/-- A chunk without its comments. -/
def bare (chunk : Chunk) : Chunk :=
  { chunk with leading := [], trailing := [] }

end Chunk

/-! ### Building -/

/-- Operations whose values differ by a change come out alike. -/
theorem Work.shakingWith_map {α β : Type} (change : α → β)
    (operation : Loader → Shaking α) (times : Nat) (session : Session) :
    shakingWith (fun loader => change <$> operation loader) times session =
      (change <$> shakingWith operation times) session := by
  have hchange : ∀ {ε σ : Type} (operation : EStateM ε σ α) (before : σ),
      (change <$> operation) before = EStateM.map change operation before :=
    fun _ _ => rfl
  induction times generalizing session with
  | zero =>
      rw [hchange, EStateM.map, shakingWith, shakingWith, hchange, EStateM.map]
      cases operation session.loader session.shaker with
      | ok value shaker => rfl
      | error failure shaker => cases failure <;> rfl
  | succ times ih =>
      rw [hchange, EStateM.map, shakingWith, shakingWith, hchange, EStateM.map]
      cases operation session.loader session.shaker with
      | ok value shaker => rfl
      | error failure shaker =>
          cases failure with
          | refused error => rfl
          | unloaded path => exact ih (request path session)

def BundleOptions.withComments (options : BundleOptions) (comments : Bool) :
    BundleOptions :=
  { options with comments := comments }

namespace Bundle

/-- A bundle that is written with or without comments. -/
def withComments (comments : Bool) (bundle : Bundle) : Bundle :=
  { bundle with options := bundle.options.withComments comments }

section Build

variable {files : Files} {resolver : Resolver} {path : Path}
  (options : BundleOptions)

theorem assemble_withComments (comments : Bool) (entry : Module)
    (loader : Loader) :
    assemble (options.withComments comments) entry loader =
      withComments comments <$> assemble options entry loader := by
  simp only [assemble, map_bind, map_pure]
  rfl

/-- With and without comments the same bundle is built, or building fails in the
same way. -/
theorem build_withComments (comments : Bool) :
    build files resolver (options.withComments comments) path =
      (build files resolver options path).map (withComments comments) := by
  have hprepare : prepare (options.withComments comments) path =
      withComments comments <$> prepare options path := by
    rw [prepare, prepare, map_bind]
    refine bind_congr fun module => funext fun session => ?_
    rw [Work.shaking, funext (assemble_withComments options comments module)]
    exact Work.shakingWith_map _ _ _ session
  rw [build, build, hprepare]
  cases hrun : prepare options path (.ofFiles files resolver) with
  | ok bundle session => rw [Outcome.map_of_ok _ hrun]; rfl
  | error error session => rw [Outcome.map_of_error _ hrun]; rfl

end Build

/-! ### Chunks -/

variable (bundle : Bundle)

theorem replacements_withComments (comments : Bool) (module : Module)
    (start stop : Nat) (references : List Reference) :
    (bundle.withComments comments).replacements module start stop references =
      bundle.replacements module start stop references := by
  induction references generalizing start with
  | nil => rfl
  | cons reference others ih =>
      simp only [replacements, ih]
      rfl

theorem statementText_withComments (comments : Bool) (module : Module)
    (statement : Statement) :
    (bundle.withComments comments).statementText module statement =
      bundle.statementText module statement := by
  rw [statementText, statementText]
  simp only [replacements_withComments]
  rfl

/-- Without comments the same statement is written, or cannot be written. -/
theorem statementChunk_withoutComments (module : Module)
    (statement : Statement) :
    (bundle.withComments false).statementChunk module statement =
      (bundle.statementChunk module statement).map Chunk.bare := by
  rw [statementChunk, statementChunk, statementText_withComments]
  cases bundle.statementText module statement with
  | error error => rfl
  | ok text => rfl

theorem moduleChunks_withoutComments (module : Module) :
    (bundle.withComments false).moduleChunks module =
      (bundle.moduleChunks module).map (List.map Chunk.bare) := by
  rw [moduleChunks_eq, moduleChunks_eq,
    funext (statementChunk_withoutComments bundle module), Except.mapM_map]
  change Except.map _ (Except.map _
    ((((keptIn bundle.statements module).filterMap
      (module.statements[·]?)).filter (!·.kind.isModuleSyntax)).mapM
        (bundle.statementChunk module))) = _
  cases (((keptIn bundle.statements module).filterMap
      (module.statements[·]?)).filter (!·.kind.isModuleSyntax)).mapM
        (bundle.statementChunk module) with
  | error error => rfl
  | ok statements =>
      refine congrArg Except.ok ?_
      rw [List.map_append, List.map_map]
      rfl

/-- Without comments the same statements are written. -/
theorem chunks_withoutComments :
    (bundle.withComments false).chunks =
      bundle.chunks.map (List.map Chunk.bare) := by
  have hmodules : (bundle.withComments false).modules.mapM
      (bundle.withComments false).moduleChunks =
        (bundle.modules.mapM bundle.moduleChunks).map
          (List.map (List.map Chunk.bare)) := by
    rw [funext (moduleChunks_withoutComments bundle), Except.mapM_map]
    rfl
  rw [chunks, chunks, hmodules]
  cases bundle.modules.mapM bundle.moduleChunks with
  | error error => rfl
  | ok parts => exact congrArg Except.ok List.map_flatten.symm

/-- The output of a bundle in terms of its chunks. -/
theorem generate_eq :
    bundle.generate = bundle.chunks.map fun chunks =>
      let code := bundle.join chunks
      { code := String.ofList (code ++ if code.isEmpty then [] else ['\n'])
        externals := bundle.externalInfos
        exports := bundle.exports.map
          (Prod.map id bundle.names.expression) } := by
  rw [generate, chunks]
  cases bundle.modules.mapM bundle.moduleChunks with
  | error error => rfl
  | ok parts =>
      refine congrArg Except.ok ?_
      dsimp only
      split <;> simp

end Bundle

/-! ### Comments of statements -/

namespace Layout

/-- All comments of a statement. -/
def comments (layout : Layout) : List Comment :=
  layout.leading ++ layout.trailing.toList

theorem splitComments_sublist (span : Span) (found : List Comment) :
    ((splitComments span found).1 ++ (splitComments span found).2).Sublist found := by
  rw [splitComments, List.span_eq_takeWhile_dropWhile, List.takeWhile_append_dropWhile]
  exact List.dropWhile_sublist _

theorem splitTrailing_append (text : List Char) (stop : Nat)
    (found : List Comment) :
    (splitTrailing text stop found).1.toList ++
      (splitTrailing text stop found).2 = found := by
  cases found with
  | nil => rfl
  | cons first others =>
      rw [splitTrailing]
      split <;> rfl

/-- The comments of a gap are those found in it. -/
theorem gap_append (text : List Char) (isFirst : Bool) (span : Span)
    (found : List Comment) :
    (gap text isFirst span found).trailing.toList ++
      (gap text isFirst span found).leading = found := by
  cases isFirst with
  | true => rfl
  | false => exact splitTrailing_append text span.start found

theorem gaps_sublist (text : List Char) (isFirst : Bool) (previous : Nat)
    (spans : List Span) (found : List Comment) :
    ((gaps text isFirst previous spans found).1.flatMap
        (fun gap => gap.trailing.toList ++ gap.leading) ++
      (gaps text isFirst previous spans found).2).Sublist found := by
  induction spans generalizing isFirst previous found with
  | nil => exact List.dropWhile_sublist _
  | cons statement others ih =>
      rw [gaps, List.flatMap_cons, gap_append, List.append_assoc]
      exact ((ih false statement.stop _).append_left _).trans
        (splitComments_sublist _ _)

/-- From the gaps the same comments are handed out in the same order, but for a
comment behind the statement in front of the first one. -/
theorem comments_ofGaps (last : Option Comment) (before : Gap) (others : List Gap) :
    before.trailing.toList ++
        (ofGaps last (before :: others)).flatMap Layout.comments =
      (before :: others).flatMap (fun gap => gap.trailing.toList ++ gap.leading) ++
        last.toList := by
  induction others generalizing before with
  | nil => simp [ofGaps, Layout.comments]
  | cons after others ih =>
      rw [ofGaps, List.flatMap_cons, List.flatMap_cons, List.append_assoc, ← ih after]
      simp [Layout.comments]

/-- All comments of statements are handed out in the order of the source. -/
theorem comments_ofStatements (text : List Char) (spans : List Span)
    (found : List Comment) :
    ((ofStatements text spans found).flatMap Layout.comments).Sublist found := by
  have hsublist := gaps_sublist text true 0 spans found
  rw [ofStatements]
  generalize gaps text true 0 spans found = handed at hsublist
  obtain ⟨handed, left⟩ := handed
  dsimp only at hsublist ⊢
  generalize (spans.getLast?.map (·.stop)).getD 0 = stop
  cases handed with
  | nil => exact List.nil_sublist _
  | cons before others =>
      refine List.Sublist.trans ?_ hsublist
      refine (List.sublist_append_right before.trailing.toList _).trans ?_
      rw [comments_ofGaps]
      refine List.Sublist.append_left ?_ _
      conv => rhs; rw [← splitTrailing_append text stop left]
      exact List.sublist_append_left _ _

/-- The comments of statements are comments of their source. -/
theorem ofStatements_subset (text : List Char) (statements : List Span)
    (found : List Comment) :
    ∀ layout ∈ ofStatements text statements found,
      layout.comments ⊆ found :=
  fun _ hlayout _ hcomment => (comments_ofStatements text statements found).subset
    (List.mem_flatMap.mpr ⟨_, hlayout, hcomment⟩)

section Ends

variable {limit : Nat}

theorem stop_le_of_splitComments (span : Span) (found : List Comment) :
    ∀ comment ∈ (splitComments span found).1,
      comment.span.stop ≤ span.stop := by
  intro comment hcomment
  rw [splitComments, List.span_eq_takeWhile_dropWhile] at hcomment
  simpa using List.mem_takeWhile_imp hcomment

/-- The comments of a gap end in front of the statement behind it. -/
theorem gaps_stop_lt (text : List Char) (isFirst : Bool) (previous : Nat)
    {statements : List Span} (found : List Comment)
    (hstatements : ∀ statement ∈ statements, statement.start < limit) :
    ∀ gap ∈ (gaps text isFirst previous statements found).1,
      ∀ comment ∈ gap.leading ++ gap.trailing.toList,
        comment.span.stop < limit := by
  induction statements generalizing isFirst previous found with
  | nil => exact fun _ hgap => absurd hgap List.not_mem_nil
  | cons statement others ih =>
      obtain ⟨hstatement, hothers⟩ := List.forall_mem_cons.mp hstatements
      rw [gaps]
      refine List.forall_mem_cons.mpr ⟨fun comment hcomment => ?_,
        ih false statement.stop _ hothers⟩
      rw [List.mem_append, or_comm, ← List.mem_append, gap_append] at hcomment
      exact Nat.lt_of_le_of_lt (stop_le_of_splitComments _ _ _ hcomment)
        hstatement

/-- A comment that does not end in front of a statement stands behind the last
one. -/
theorem ofGaps_stop_lt {last : Option Comment} {gaps : List Gap}
    (hgaps : ∀ gap ∈ gaps, ∀ comment ∈ gap.leading ++ gap.trailing.toList,
      comment.span.stop < limit) :
    ∀ layout ∈ ofGaps last gaps, ∀ comment ∈ layout.comments,
      comment.span.stop < limit ∨
        layout ∈ (ofGaps last gaps).getLast? ∧ comment ∈ layout.trailing := by
  induction gaps with
  | nil => exact fun _ hlayout => absurd hlayout List.not_mem_nil
  | cons before others ih =>
      obtain ⟨hbefore, hothers⟩ := List.forall_mem_cons.mp hgaps
      rw [List.forall_mem_append] at hbefore
      cases others with
      | nil =>
          refine List.forall_mem_singleton.mpr fun comment hcomment => ?_
          rcases List.mem_append.mp hcomment with hleading | htrailing
          · exact .inl (hbefore.1 comment hleading)
          · exact .inr ⟨rfl, Option.mem_toList.mp htrailing⟩
      | cons after others =>
          have hnext := (List.forall_mem_append.mp
            (hothers after List.mem_cons_self)).2
          refine List.forall_mem_cons.mpr ⟨fun comment hcomment => .inl ?_,
            fun layout hlayout comment hcomment => ?_⟩
          · rcases List.mem_append.mp hcomment with hleading | htrailing
            · exact hbefore.1 comment hleading
            · exact hnext comment htrailing
          · refine (ih hothers layout hlayout comment hcomment).imp_right ?_
            rintro ⟨hlast, htrailing⟩
            refine ⟨?_, htrailing⟩
            rw [Option.mem_def] at hlast ⊢
            rw [ofGaps, List.getLast?_cons, hlast]
            rfl

/-- A comment of a statement ends in front of a statement, or is the one behind
the last statement. -/
theorem ofStatements_stop_lt (text : List Char) {statements : List Span}
    (found : List Comment)
    (hstatements : ∀ statement ∈ statements, statement.start < limit) :
    ∀ layout ∈ ofStatements text statements found,
      ∀ comment ∈ layout.comments, comment.span.stop < limit ∨
        layout ∈ (ofStatements text statements found).getLast? ∧
          comment ∈ layout.trailing :=
  ofGaps_stop_lt (gaps_stop_lt text true 0 found hstatements)

end Ends

end Layout

/-- A listed comment is a line comment, or it is closed, or it runs to the end
of its text. -/
theorem IsGap.slice_cases {text : List Char} {comment : Comment}
    (h : IsGap text comment.span.start comment.span.stop [comment]) :
    let written := Text.slice text comment.span
    (∃ body, written = '/' :: '/' :: body ∧
        ∀ c ∈ body, CharClass.isLineTerminator c = false) ∨
      (∃ body, written = '/' :: '*' :: (body ++ ['*', '/']) ∧
        ¬ ['*', '/'] <:+: body) ∨
      (IsUnclosed written ∧ comment.span.stop = Text.byteLength text) := by
  obtain ⟨front, written, behind, htext, hstart, hstop, hspacing⟩ := h
  have hplace : comment.span = ⟨Text.byteLength front,
      Text.byteLength front + Text.byteLength written⟩ := by
    rw [← hstart, ← hstop]
  have hslice : Text.slice text comment.span = written := by
    rw [hplace, htext, ← List.append_assoc]
    exact Bundle.slice_append front written behind
  dsimp only
  rw [hslice]
  refine (hspacing.comment_cases (by rw [← hstop])).imp_right
    (Or.imp_right ?_)
  rintro ⟨hunclosed, rfl⟩
  refine ⟨hunclosed, ?_⟩
  rw [hplace, htext, List.append_nil, Text.byteLength_append]

/-- A comment that is closed is a margin with a line break behind it. -/
theorem isMargin_comment {text : List Char} {comment : Comment}
    {gap : List Char}
    (hgap : IsGap text comment.span.start comment.span.stop [comment])
    (hclosed : ¬ IsUnclosed (Text.slice text comment.span))
    (h : IsMargin gap) :
    IsMargin (Text.slice text comment.span ++ '\n' :: gap) := by
  have hline : CharClass.isLineTerminator '\n' = true := rfl
  have hrest : IsMargin ('\n' :: gap) := h.space (.inr hline)
  rcases hgap.slice_cases with ⟨body, hwritten, hbody⟩ |
    ⟨body, hwritten, hbody⟩ | ⟨hunclosed, -⟩
  · rw [hwritten]
    exact hrest.line hbody hline
  · rw [hwritten]
    have hblock := hrest.block hbody
    simpa using hblock
  · exact absurd hunclosed hclosed

/-- A comment that ends in front of the end of its text is closed. -/
theorem not_isUnclosed {text : List Char} {comment : Comment}
    (hgap : IsGap text comment.span.start comment.span.stop [comment])
    (hlt : comment.span.stop < Text.byteLength text) :
    ¬ IsUnclosed (Text.slice text comment.span) := by
  rintro ⟨body, hopening, hbody⟩
  rcases hgap.slice_cases with ⟨others, hwritten, -⟩ |
    ⟨others, hwritten, -⟩ | ⟨-, hstop⟩
  · rw [hwritten] at hopening
    cases hopening
  · rw [hwritten] at hopening
    simp only [List.cons.injEq, true_and] at hopening
    exact hbody (hopening ▸ List.infix_append' others ['*', '/'] [])
  · exact absurd hstop (Nat.ne_of_lt hlt)

/-! ### Texts of statements and margins -/

/-- A text that consists of pieces, with text that is passed over between and
behind them.  Any two pieces are separated by a line break. -/
inductive Woven : List (List Char) → List Char → Prop
  | nil : Woven [] []
  | last {piece back : List Char} (hback : IsPassedOver back) :
      Woven [piece] (piece ++ back)
  | cons {piece gap next rest : List Char} {pieces : List (List Char)}
      (hgap : IsPassedOver gap)
      (hline : gap.any CharClass.isLineTerminator = true)
      (hrest : Woven (next :: pieces) rest) :
      Woven (piece :: next :: pieces) (piece ++ (gap ++ rest))

theorem IsMargin.lineFeeds {gap : List Char} (h : IsMargin gap) (count : Nat) :
    IsMargin (List.replicate count '\n' ++ gap) := by
  induction count with
  | zero => exact h
  | succ count ih =>
      have hline : CharClass.isLineTerminator '\n' = true := rfl
      rw [List.replicate_succ, List.cons_append]
      exact ih.space (.inr hline)

namespace Chunk

/-- The comments of a chunk are margins, the one behind the statement with a
line break behind it. -/
structure IsTidy (chunk : Chunk) : Prop where
  leading : IsMargin chunk.leading
  trailing : ∀ gap, IsMargin gap → IsMargin (chunk.trailing ++ '\n' :: gap)

theorem isTidy_of_bare {chunk : Chunk} (hleading : chunk.leading = [])
    (htrailing : chunk.trailing = []) : chunk.IsTidy where
  leading := hleading ▸ .nil
  trailing _ hgap := htrailing ▸ hgap.lineFeeds 1

end Chunk

namespace Bundle

variable {bundle : Bundle} {module : Module}

/-- A statement without unclosed comments is written with margins around it. -/
theorem isTidy_statementChunk {statement : Statement} {chunk : Chunk}
    (hwritten : ∀ comment ∈ statement.layout.comments,
      IsGap module.source.toList comment.span.start comment.span.stop [comment])
    (hclosed : ∀ comment ∈ statement.layout.comments,
      ¬ IsUnclosed (commentText module comment))
    (hchunk : bundle.statementChunk module statement = .ok chunk) :
    chunk.IsTidy := by
  have hmargin : ∀ comment ∈ statement.layout.comments, ∀ gap, IsMargin gap →
      IsMargin (commentText module comment ++ '\n' :: gap) :=
    fun comment hcomment gap hgap => isMargin_comment
      (hwritten comment hcomment) (hclosed comment hcomment) hgap
  have hleading : ∀ comments ⊆ statement.layout.comments,
      IsMargin (comments.flatMap fun comment =>
        commentText module comment ++ ['\n']) := by
    intro comments hcomments
    induction comments with
    | nil => exact .nil
    | cons comment others ih =>
        obtain ⟨hcomment, hothers⟩ := List.cons_subset.mp hcomments
        have hgap := hmargin comment hcomment _ (ih hothers)
        simpa using hgap
  have htrailing : ∀ comments ⊆ statement.layout.comments,
      comments.length ≤ 1 → ∀ gap, IsMargin gap →
        IsMargin ((comments.flatMap fun comment =>
          ' ' :: commentText module comment) ++ '\n' :: gap) := by
    intro comments hcomments hlength gap hgap
    cases comments with
    | nil => exact hgap.lineFeeds 1
    | cons comment others =>
        obtain rfl : others = [] := by
          simpa using hlength
        obtain ⟨hcomment, -⟩ := List.cons_subset.mp hcomments
        have hspace : CharClass.isWhitespace ' ' = true := by decide
        simpa using (hmargin comment hcomment gap hgap).space (.inl hspace)
  rw [statementChunk] at hchunk
  obtain ⟨text, -, hchunk⟩ := Except.bind_eq_ok_iff.mp hchunk
  cases hcomments : bundle.options.comments with
  | true =>
      rw [hcomments] at hchunk
      obtain rfl := Except.ok.inj hchunk
      exact ⟨hleading _ (List.subset_append_left _ _),
        htrailing _ (List.subset_append_right _ _)
          Option.length_toList_le⟩
  | false =>
      rw [hcomments] at hchunk
      obtain rfl := Except.ok.inj hchunk
      exact Chunk.isTidy_of_bare rfl rfl

theorem exists_lineBreaks (bundle : Bundle) (before after : Chunk) :
    ∃ count, bundle.lineBreaks before after = count + 1 := by
  rw [lineBreaks]
  split
  · exact ⟨_, rfl⟩
  · exact ⟨0, rfl⟩

/-- Joined chunks are their statements with margins between them. -/
theorem exists_woven_join (bundle : Bundle) {first : Chunk}
    {others : List Chunk} (htidy : ∀ chunk ∈ first :: others, chunk.IsTidy) :
    ∃ body, bundle.join (first :: others) ++ ['\n'] = first.leading ++ body ∧
      Woven ((first :: others).map (·.statement)) body := by
  induction others generalizing first with
  | nil =>
      obtain ⟨-, htrailing⟩ := htidy first List.mem_cons_self
      refine ⟨first.statement ++ (first.trailing ++ ['\n']), ?_,
        .last (htrailing [] .nil).isPassedOver⟩
      simp [join, Chunk.text]
  | cons second others ih =>
      obtain ⟨hfirst, hothers⟩ := List.forall_mem_cons.mp htidy
      obtain ⟨body, hbody, hwoven⟩ := ih hothers
      obtain ⟨count, hcount⟩ := bundle.exists_lineBreaks first second
      have hgap := hfirst.trailing _
        ((hothers second List.mem_cons_self).leading.lineFeeds count)
      refine ⟨_, ?_, .cons hgap.isPassedOver ?_ hwoven⟩
      · rw [join, hcount, List.append_assoc, hbody, List.replicate_succ,
          Chunk.text]
        simp
      · simp [CharClass.isLineTerminator]

/-- The output of a bundle is its statements with margins between them. -/
theorem exists_woven_code (bundle : Bundle) {chunks : List Chunk}
    (htidy : ∀ chunk ∈ chunks, chunk.IsTidy) :
    let code := bundle.join chunks
    ∃ front body, code ++ (if code.isEmpty then [] else ['\n']) =
        front ++ body ∧ IsMargin front ∧
      ((∀ chunk ∈ chunks, chunk.leading = []) → front = []) ∧
      Woven (chunks.map (·.statement)) body := by
  cases chunks with
  | nil => exact ⟨[], [], rfl, .nil, fun _ => rfl, .nil⟩
  | cons first others =>
      obtain ⟨hfirst, -⟩ := List.forall_mem_cons.mp htidy
      dsimp only
      by_cases hempty : bundle.join (first :: others) = []
      · cases others with
        | nil =>
            rw [join, Chunk.text, List.append_eq_nil_iff,
              List.append_eq_nil_iff] at hempty
            obtain ⟨⟨hleading, hstatement⟩, htrailing⟩ := hempty
            refine ⟨[], [], ?_, .nil, fun _ => rfl, ?_⟩
            · simp [join, Chunk.text, hleading, hstatement, htrailing]
            · rw [List.map_singleton, hstatement]
              exact .last IsMargin.nil.isPassedOver
        | cons second others =>
            obtain ⟨count, hcount⟩ := bundle.exists_lineBreaks first second
            rw [join, hcount] at hempty
            simp at hempty
      · obtain ⟨body, hbody, hwoven⟩ := exists_woven_join bundle htidy
        rw [← List.isEmpty_iff] at hempty
        rw [if_neg hempty]
        exact ⟨first.leading, body, hbody, hfirst.leading,
          fun hleading => hleading first List.mem_cons_self, hwoven⟩

/-! ### Bundles -/

section Bundles

variable {files : Files} {resolver : Resolver} {options : BundleOptions}
  {path : Path} {chunks : List Chunk}

/-- No module of a bundle ends in a comment that is never closed and belongs to
its last statement. -/
def HasClosedComments (bundle : Bundle) : Prop :=
  ∀ module ∈ bundle.modules, ∀ statement ∈ module.statements.getLast?,
    ∀ comment ∈ statement.layout.trailing,
      ¬ IsUnclosed (commentText module comment)

/-- The comments of a statement are written where they are listed, and closed
unless they are at the end of the module. -/
theorem comment_written
    (hbuild : build files resolver options path = .ok bundle)
    (hmodule : module ∈ bundle.modules) {statement : Statement}
    (hstatement : statement ∈ module.statements) {comment : Comment}
    (hcomment : comment ∈ statement.layout.comments) :
    IsGap module.source.toList comment.span.start comment.span.stop
        [comment] ∧
      (bundle.HasClosedComments →
        ¬ IsUnclosed (commentText module comment)) := by
  obtain ⟨hreachable, -, entry, walk, shaker, hassembled⟩ :=
    build_eq_ok hbuild
  have hfaithful := hreachable.isFaithful
  obtain ⟨program, hparse, hanalysis⟩ := hfaithful.ofProgram_eq_ok
    (hassembled.module_loaded hfaithful hmodule)
  obtain ⟨-, hlayouts⟩ := Analysis.map_layout_of_ofProgram hanalysis
  have hlayout : statement.layout ∈ Layout.ofStatements module.source.toList
      (program.statements.map (·.span)) program.comments :=
    hlayouts ▸ List.mem_map_of_mem hstatement
  obtain ⟨_, hlists⟩ := Program.exists_lists_of_parse hparse
  have hgap := hlists.written comment
    (Layout.ofStatements_subset _ _ _ _ hlayout hcomment)
  refine ⟨hgap, fun hclosed => ?_⟩
  have hstarts : ∀ span ∈ program.statements.map (·.span),
      span.start < Text.byteLength module.source.toList :=
    List.forall_mem_map.mpr (Program.start_lt hparse)
  rcases Layout.ofStatements_stop_lt _ _ hstarts _ hlayout comment hcomment
    with hlt | ⟨hlast, htrailing⟩
  · exact not_isUnclosed hgap hlt
  · rw [← hlayouts, List.getLast?_map, Option.mem_def,
      Option.map_eq_some_iff] at hlast
    obtain ⟨last, hlast, hsame⟩ := hlast
    exact hclosed module hmodule last hlast comment (hsame ▸ htrailing)

theorem isTidy_of_mem_chunks
    (hbuild : build files resolver options path = .ok bundle)
    (hclosed : bundle.HasClosedComments)
    (hchunks : bundle.chunks = .ok chunks) :
    ∀ chunk ∈ chunks, chunk.IsTidy := by
  intro chunk hchunk
  rw [Bundle.chunks] at hchunks
  obtain ⟨parts, hparts, hflatten⟩ := Except.bind_eq_ok_iff.mp hchunks
  obtain rfl := Except.ok.inj hflatten
  obtain ⟨part, hpart, hchunk⟩ := List.mem_flatten.mp hchunk
  obtain ⟨module, hmodule, hrun⟩ := Except.mem_of_mapM_eq_ok hparts hpart
  rw [moduleChunks_eq] at hrun
  obtain ⟨written, hwritten, rfl⟩ := Except.map_eq_ok_iff.mp hrun
  rcases List.mem_append.mp hchunk with hown | hobject
  · obtain ⟨statement, hvisible, hrun⟩ :=
      Except.mem_of_mapM_eq_ok hwritten hown
    obtain ⟨id, -, hid⟩ :=
      List.mem_filterMap.mp (List.mem_of_mem_filter hvisible)
    have hstatement := List.mem_of_getElem? hid
    have hwritten := fun comment (hcomment : comment ∈ _) =>
      comment_written hbuild hmodule hstatement hcomment
    exact isTidy_statementChunk
      (fun comment hcomment => (hwritten comment hcomment).1)
      (fun comment hcomment => (hwritten comment hcomment).2 hclosed) hrun
  · obtain ⟨_, -, rfl⟩ := List.mem_map.mp hobject
    exact Chunk.isTidy_of_bare rfl rfl

/-- Without comments the output is the statements with margins between them. -/
theorem woven_withoutComments (bundle : Bundle)
    (hchunks : bundle.chunks = .ok chunks) :
    ∃ plain, (bundle.withComments false).generate = .ok plain ∧
      plain.externals = bundle.externalInfos ∧
      plain.exports =
        bundle.exports.map (Prod.map id bundle.names.expression) ∧
      Woven (chunks.map (·.statement)) plain.code.toList := by
  have hbare := chunks_withoutComments bundle
  rw [hchunks] at hbare
  rw [generate_eq, hbare]
  refine ⟨_, rfl, rfl, rfl, ?_⟩
  have htidy : ∀ chunk ∈ chunks.map Chunk.bare, chunk.IsTidy ∧
      chunk.leading = [] := by
    intro chunk hchunk
    obtain ⟨_, -, rfl⟩ := List.mem_map.mp hchunk
    exact ⟨Chunk.isTidy_of_bare rfl rfl, rfl⟩
  obtain ⟨front, body, hcode, -, hfront, hwoven⟩ :=
    exists_woven_code (bundle.withComments false) fun chunk hchunk =>
      (htidy chunk hchunk).1
  obtain rfl := hfront fun chunk hchunk => (htidy chunk hchunk).2
  have hstatements : (chunks.map Chunk.bare).map (·.statement) =
      chunks.map (·.statement) := by
    rw [List.map_map]
    rfl
  rw [hstatements] at hwoven
  rw [String.toList_ofList, hcode]
  exact hwoven

end Bundles

end Bundle

end Bundler
