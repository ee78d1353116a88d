import Bundler.Proofs.Build.Commented
import Bundler.Proofs.Build.RoundTrip

/-!
# Comments and statements

Comments go with the statements that they stand between.  One pass over both lists
hands them out, so each listed comment goes with one statement at most.  The pass stays
at a comment that reaches behind the gap it starts in, and what starts there behind
such a comment is left out.
-/

namespace Bundler

namespace Layout

variable {text : List Char} {comments found : List Comment} {previous place : Nat}

/-! ### Comments by their places -/

/-- The comments that do not start in front of a place. -/
def behind (comments : List Comment) (place : Nat) : List Comment :=
  comments.filter (place ≤ ·.span.start)

/-- The comments from the start of a gap on, up to the first one that reaches behind
it. -/
def within (comments : List Comment) (gap : Span) : List Comment :=
  (behind comments gap.start).takeWhile (·.span.stop ≤ gap.stop)

theorem nodup_of_inOrder (h : Block.InOrder comments) : comments.Nodup :=
  h.sorted.imp fun hlt heq => absurd (heq ▸ hlt) (Nat.lt_irrefl _)

theorem mem_behind {comment : Comment} :
    comment ∈ behind comments place ↔
      comment ∈ comments ∧ place ≤ comment.span.start := by
  rw [behind, List.mem_filter, decide_eq_true_eq]

theorem behind_behind {later : Nat} (hle : place ≤ later) :
    behind (behind comments place) later = behind comments later := by
  rw [behind, behind, List.filter_filter]
  refine List.filter_congr fun comment _ => ?_
  rw [← Bool.decide_and, decide_eq_decide]
  exact and_iff_left_of_imp (Nat.le_trans hle)

theorem dropWhile_dropWhile {α : Type} {p q : α → Bool} {list : List α}
    (h : ∀ x ∈ list, p x = true → q x = true) :
    (list.dropWhile p).dropWhile q = list.dropWhile q := by
  induction list with
  | nil => rfl
  | cons x list ih =>
      obtain ⟨hx, hlist⟩ := List.forall_mem_cons.mp h
      by_cases hp : p x = true
      · rw [List.dropWhile_cons_of_pos hp, List.dropWhile_cons_of_pos (hx hp), ih hlist]
      · rw [List.dropWhile_cons_of_neg hp]

/-- Up to the first comment that reaches behind a gap, the comments of the gap are in
it. -/
theorem mem_within {gap : Span} {comment : Comment}
    (h : comment ∈ within comments gap) :
    comment ∈ comments ∧ gap.start ≤ comment.span.start ∧
      comment.span.stop ≤ gap.stop := by
  have hbehind := mem_behind.mp ((List.takeWhile_sublist _).subset h)
  exact ⟨hbehind.1, hbehind.2, by simpa using List.mem_takeWhile_imp h⟩

/-- A comment of a gap is found unless one in front of it reaches behind the gap. -/
theorem mem_within_iff (h : Block.InOrder comments) {gap : Span}
    {comment : Comment} (hmem : comment ∈ comments)
    (hstart : gap.start ≤ comment.span.start) :
    comment ∈ within comments gap ↔
      ∀ other ∈ comments, gap.start ≤ other.span.start →
        other.span.start ≤ comment.span.start → other.span.stop ≤ gap.stop := by
  have hbehind : comment ∈ behind comments gap.start :=
    mem_behind.mpr ⟨hmem, hstart⟩
  have hall : (∀ other ∈ comments, gap.start ≤ other.span.start →
        other.span.start ≤ comment.span.start → other.span.stop ≤ gap.stop) ↔
      ∀ other ∈ behind comments gap.start,
        other.span.start ≤ comment.span.start → other.span.stop ≤ gap.stop := by
    simp only [mem_behind, and_imp]
  rw [hall, within]
  have hsorted : (behind comments gap.start).Pairwise fun first second =>
      first.span.start < second.span.start := (h.filter _).sorted
  generalize behind comments gap.start = found at hbehind hsorted
  induction found with
  | nil => cases hbehind
  | cons first others ih =>
      obtain ⟨hfirst, hothers⟩ := List.pairwise_cons.mp hsorted
      rw [List.forall_mem_cons, List.takeWhile_cons]
      rcases List.mem_cons.mp hbehind with rfl | hlater
      · have hnone : ∀ other ∈ others, other.span.start ≤ comment.span.start →
            other.span.stop ≤ gap.stop := fun other hother hle =>
          absurd (hfirst other hother) (Nat.not_lt.mpr hle)
        by_cases hstop : comment.span.stop ≤ gap.stop
        · simpa [hstop] using hnone
        · simp [hstop]
      · have hle := Nat.le_of_lt (hfirst comment hlater)
        have hne : comment ≠ first := fun heq =>
          absurd (hfirst comment hlater) (heq ▸ Nat.lt_irrefl _)
        by_cases hstop : first.span.stop ≤ gap.stop
        · simp only [hstop, decide_true, if_true, List.mem_cons, hne, false_or,
            ih hlater hothers, implies_true, true_and]
        · simp only [hstop, decide_false, Bool.false_eq_true, if_false,
            List.not_mem_nil, hle, forall_true_left, false_and]

/-! ### Gaps -/

/-- The ranges in front of statements, each from where the one before it ends. -/
def openings (previous : Nat) : List Span → List Span
  | [] => []
  | statement :: others =>
      ⟨previous, statement.start⟩ :: openings statement.stop others

/-- Ranges that stand one behind the other from a place on. -/
def AreLaidOut (previous : Nat) : List Span → Prop
  | [] => True
  | statement :: others =>
      previous ≤ statement.start ∧ statement.start ≤ statement.stop ∧
        AreLaidOut statement.stop others

/-- Where the last one of some ranges ends. -/
def lastStop (previous : Nat) (spans : List Span) : Nat :=
  (spans.getLast?.map (·.stop)).getD previous

@[simp]
theorem lastStop_cons (statement : Span) (others : List Span) :
    lastStop previous (statement :: others) =
      lastStop statement.stop others := by
  rw [lastStop, lastStop, List.getLast?_cons]
  cases others.getLast? <;> rfl

theorem length_openings (spans : List Span) :
    (openings previous spans).length = spans.length := by
  induction spans generalizing previous with
  | nil => rfl
  | cons statement others ih =>
      rw [openings, List.length_cons, List.length_cons, ih]

theorem getElem?_openings_succ {spans : List Span} {index : Nat} {span : Span}
    (h : spans[index]? = some span) :
    (openings previous spans)[index + 1]? =
      spans[index + 1]?.map fun next => ⟨span.stop, next.start⟩ := by
  induction spans generalizing previous index with
  | nil => cases h
  | cons statement others ih =>
      cases index with
      | zero =>
          obtain rfl := Option.some.inj h
          cases others <;> rfl
      | succ index => exact ih h

theorem AreLaidOut.le_lastStop {spans : List Span} (h : AreLaidOut previous spans) :
    previous ≤ lastStop previous spans := by
  induction spans generalizing previous with
  | nil => exact Nat.le_refl _
  | cons statement others ih =>
      rw [lastStop_cons]
      exact Nat.le_trans (Nat.le_trans h.1 h.2.1) (ih h.2.2)

theorem AreLaidOut.bounds {spans : List Span} (h : AreLaidOut previous spans) :
    ∀ span ∈ spans, previous ≤ span.start ∧ span.start ≤ span.stop ∧
      span.stop ≤ lastStop previous spans := by
  induction spans generalizing previous with
  | nil => exact fun span hspan => absurd hspan List.not_mem_nil
  | cons statement others ih =>
      obtain ⟨hstart, hstop, hothers⟩ := h
      rw [lastStop_cons]
      refine List.forall_mem_cons.mpr
        ⟨⟨hstart, hstop, hothers.le_lastStop⟩, fun span hspan => ?_⟩
      obtain ⟨hle, hspan⟩ := ih hothers span hspan
      exact ⟨Nat.le_trans (Nat.le_trans hstart hstop) hle, hspan⟩

theorem AreLaidOut.bounds_openings {spans : List Span}
    (h : AreLaidOut previous spans) :
    ∀ gap ∈ openings previous spans, previous ≤ gap.start ∧
      gap.stop ≤ lastStop previous spans := by
  induction spans generalizing previous with
  | nil => exact fun gap hgap => absurd hgap List.not_mem_nil
  | cons statement others ih =>
      obtain ⟨hstart, hstop, hothers⟩ := h
      rw [lastStop_cons, openings]
      refine List.forall_mem_cons.mpr ⟨⟨Nat.le_refl _,
        Nat.le_trans hstop hothers.le_lastStop⟩, fun gap hgap => ?_⟩
      obtain ⟨hle, hgap⟩ := ih hothers gap hgap
      exact ⟨Nat.le_trans (Nat.le_trans hstart hstop) hle, hgap⟩

theorem AreLaidOut.pairwise_openings {spans : List Span}
    (h : AreLaidOut previous spans) :
    (openings previous spans).Pairwise fun first second =>
      first.stop ≤ second.start := by
  induction spans generalizing previous with
  | nil => exact .nil
  | cons statement others ih =>
      refine .cons (fun gap hgap => ?_) (ih h.2.2)
      exact Nat.le_trans h.2.1 (h.2.2.bounds_openings gap hgap).1

/-- A statement and a gap do not overlap. -/
theorem AreLaidOut.disjoint {spans : List Span} (h : AreLaidOut previous spans) :
    ∀ gap ∈ openings previous spans, ∀ span ∈ spans,
      gap.stop ≤ span.start ∨ span.stop ≤ gap.start := by
  induction spans generalizing previous with
  | nil => exact fun gap hgap => absurd hgap List.not_mem_nil
  | cons statement others ih =>
      rw [openings]
      refine List.forall_mem_cons.mpr ⟨?_, fun gap hgap => ?_⟩
      · refine List.forall_mem_cons.mpr ⟨.inl (Nat.le_refl _), fun span hspan => ?_⟩
        exact .inl (Nat.le_trans h.2.1 (h.2.2.bounds span hspan).1)
      · refine List.forall_mem_cons.mpr ⟨.inr ?_, ih h.2.2 gap hgap⟩
        exact (h.2.2.bounds_openings gap hgap).1

/-! ### Handing comments out -/

/-- What is left of comments when a place is reached.  There may be comments in
front of the place among them. -/
def Leaves (comments left : List Comment) (place : Nat) : Prop :=
  ∀ later, place ≤ later →
    left.dropWhile (·.span.start < later) = behind comments later

theorem splitComments_of_leaves {gap : Span}
    (hleft : Leaves comments found gap.start) :
    splitComments gap found = (within comments gap,
      (behind comments gap.start).dropWhile (·.span.stop ≤ gap.stop)) := by
  rw [splitComments, hleft _ (Nat.le_refl _), List.span_eq_takeWhile_dropWhile]
  rfl

/-- What is left behind a gap includes all comments from there on, for what was
taken ends in the gap. -/
theorem leaves_behind (h : Block.InOrder comments) (gap : Span)
    (hle : gap.start ≤ gap.stop) :
    Leaves comments
      ((behind comments gap.start).dropWhile (·.span.stop ≤ gap.stop))
      gap.stop := by
  intro later hlater
  rw [dropWhile_dropWhile, behind, (h.filter _).dropWhile_start, ← behind, ← behind,
    behind_behind (Nat.le_trans hle hlater)]
  intro comment hmem hstop
  have hwritten := h.written comment (mem_behind.mp hmem).1
  simp only [decide_eq_true_eq] at hstop ⊢
  omega

/-- The pass over comments finds those of each gap, and those behind the last
one. -/
theorem gaps_eq (h : Block.InOrder comments) {spans : List Span}
    (hspans : AreLaidOut previous spans) (hleft : Leaves comments found previous)
    (isFirst : Bool) :
    gaps text isFirst previous spans found =
      ((openings previous spans).mapIdx fun index span =>
          gap text (isFirst && index == 0) span (within comments span),
        behind comments (lastStop previous spans)) := by
  induction spans generalizing previous found isFirst with
  | nil =>
      rw [gaps, hleft _ (Nat.le_refl _)]
      rfl
  | cons statement others ih =>
      have hbehind := leaves_behind h ⟨previous, statement.start⟩ hspans.1
      have hlater : Leaves comments _ statement.stop := fun later hlater =>
        hbehind later (Nat.le_trans hspans.2.1 hlater)
      rw [gaps, splitComments_of_leaves hleft]
      simp [ih hspans.2.2 hlater, openings]

theorem getElem?_ofGaps (last : Option Comment) (found : List Gap) (index : Nat) :
    (ofGaps last found)[index]? = found[index]?.map fun before =>
      ⟨before.leading, found[index + 1]?.elim last (·.trailing), before.blankLines,
        found[index + 1]?.elim 0 (·.blankLines)⟩ := by
  induction found using ofGaps.induct generalizing index with
  | case1 => rfl
  | case2 before => cases index <;> rfl
  | case3 before after others ih =>
      cases index with
      | zero => rfl
      | succ index =>
          rw [ofGaps, List.getElem?_cons_succ, ih]
          rfl

/-! ### Layouts -/

theorem splitTrailing_eq_some_iff {stop : Nat} {comment : Comment} :
    (splitTrailing text stop found).1 = some comment ↔
      found.head? = some comment ∧
        Text.breaksLine text ⟨stop, comment.span.start⟩ = false := by
  cases found with
  | nil => simp [splitTrailing]
  | cons first others =>
      rw [splitTrailing, List.head?_cons]
      split
      · rename_i hbreaks
        refine ⟨(absurd · (Option.some_ne_none _).symm), ?_⟩
        rintro ⟨hfirst, hstays⟩
        obtain rfl := Option.some.inj hfirst
        exact absurd hbreaks (Bool.eq_false_iff.mp hstays)
      · rename_i hstays
        refine ⟨fun hfirst => ⟨hfirst, ?_⟩, And.left⟩
        obtain rfl := Option.some.inj hfirst
        exact Bool.eq_false_iff.mpr hstays

/-- What is found in front of a statement, given by its number. -/
def gapAt (text : List Char) (comments : List Comment) (spans : List Span)
    (index : Nat) : Option Gap :=
  (openings 0 spans)[index]?.map fun span =>
    gap text (index == 0) span (within comments span)

/-- The comment behind the last one of some statements. -/
def lastTrailing (text : List Char) (comments : List Comment) (spans : List Span) :
    Option Comment :=
  (splitTrailing text (lastStop 0 spans) (behind comments (lastStop 0 spans))).1

theorem getElem?_ofStatements (h : Block.InOrder comments) {spans : List Span}
    (hspans : AreLaidOut 0 spans) (index : Nat) :
    (ofStatements text spans comments)[index]? =
      (gapAt text comments spans index).map fun before =>
        ⟨before.leading,
          (gapAt text comments spans (index + 1)).elim
            (lastTrailing text comments spans) (·.trailing),
          before.blankLines,
          (gapAt text comments spans (index + 1)).elim 0 (·.blankLines)⟩ := by
  have hleft : Leaves comments comments 0 := fun later _ => h.dropWhile_start later
  rw [ofStatements, gaps_eq h hspans hleft true, getElem?_ofGaps]
  simp only [List.getElem?_mapIdx, Bool.true_and]
  rfl

/-- The comment behind the statement in front of the one of a number. -/
def trailingBefore (layouts : List Layout) : Nat → Option Comment
  | 0 => none
  | index + 1 => layouts[index]?.bind (·.trailing)

theorem trailingBefore_ofStatements (h : Block.InOrder comments) {spans : List Span}
    (hspans : AreLaidOut 0 spans) {index : Nat} {before : Gap}
    (hbefore : gapAt text comments spans index = some before) :
    trailingBefore (ofStatements text spans comments) index = before.trailing := by
  cases index with
  | zero =>
      obtain ⟨span, _, rfl⟩ := Option.map_eq_some_iff.mp hbefore
      rfl
  | succ index =>
      obtain ⟨span, hspan, _⟩ := Option.map_eq_some_iff.mp hbefore
      obtain ⟨first, hfirst⟩ : ∃ first,
          gapAt text comments spans index = some first := by
        have hlt := (List.getElem?_eq_some_iff.mp hspan).1
        rw [gapAt, List.getElem?_eq_getElem (by omega)]
        exact ⟨_, rfl⟩
      rw [trailingBefore, getElem?_ofStatements h hspans, hfirst, hbefore]
      rfl

/-- The comments of a gap go with the statements around it. -/
theorem around_ofStatements (h : Block.InOrder comments) {spans : List Span}
    (hspans : AreLaidOut 0 spans) {index : Nat} {span : Span} {layout : Layout}
    (hspan : (openings 0 spans)[index]? = some span)
    (hlayout : (ofStatements text spans comments)[index]? = some layout) :
    (trailingBefore (ofStatements text spans comments) index).toList ++
      layout.leading = within comments span := by
  have hgap : gapAt text comments spans index =
      some (gap text (index == 0) span (within comments span)) := by
    rw [gapAt, hspan]
    rfl
  rw [getElem?_ofStatements h hspans, hgap] at hlayout
  obtain rfl := Option.some.inj hlayout
  rw [trailingBefore_ofStatements h hspans hgap]
  exact gap_append _ _ _ _

theorem head?_within_iff {span : Span} {comment : Comment} :
    (within comments span).head? = some comment ↔
      (behind comments span.start).head? = some comment ∧
        comment.span.stop ≤ span.stop := by
  rw [within]
  cases behind comments span.start with
  | nil => simp
  | cons first others =>
      rw [List.takeWhile_cons, List.head?_cons]
      split
      · rename_i hstop
        rw [List.head?_cons]
        refine ⟨fun hfirst => ⟨hfirst, ?_⟩, And.left⟩
        obtain rfl := Option.some.inj hfirst
        exact of_decide_eq_true hstop
      · rename_i hstop
        refine ⟨(absurd · (Option.some_ne_none _).symm), ?_⟩
        rintro ⟨hfirst, hle⟩
        obtain rfl := Option.some.inj hfirst
        exact absurd (decide_eq_true hle) hstop

theorem lastStop_eq {spans : List Span} {index : Nat} {span : Span}
    (hspan : spans[index]? = some span) (hlast : spans[index + 1]? = none) :
    lastStop previous spans = span.stop := by
  have hlt := (List.getElem?_eq_some_iff.mp hspan).1
  have hle := List.getElem?_eq_none_iff.mp hlast
  have hindex : spans.length - 1 = index := by omega
  rw [lastStop, List.getLast?_eq_getElem?, hindex, hspan]
  rfl

/-- A comment stands behind a statement exactly if it is the first one there, no
line feed is in front of it, and it ends in front of the next statement. -/
theorem trailing_ofStatements_iff (h : Block.InOrder comments) {spans : List Span}
    (hspans : AreLaidOut 0 spans) {index : Nat} {span : Span} {layout : Layout}
    (hspan : spans[index]? = some span)
    (hlayout : (ofStatements text spans comments)[index]? = some layout)
    {comment : Comment} :
    layout.trailing = some comment ↔
      (behind comments span.stop).head? = some comment ∧
        Text.breaksLine text ⟨span.stop, comment.span.start⟩ = false ∧
        ∀ next ∈ spans[index + 1]?, comment.span.stop ≤ next.start := by
  rw [getElem?_ofStatements h hspans] at hlayout
  obtain ⟨before, -, rfl⟩ := Option.map_eq_some_iff.mp hlayout
  dsimp only
  have hopening : (openings 0 spans)[index + 1]? = _ := getElem?_openings_succ hspan
  rw [gapAt, hopening]
  cases hnext : spans[index + 1]? with
  | none =>
      change lastTrailing text comments spans = some comment ↔ _
      rw [lastTrailing, lastStop_eq hspan hnext, splitTrailing_eq_some_iff]
      simp
  | some next =>
      change (splitTrailing text span.stop
        (within comments ⟨span.stop, next.start⟩)).1 = some comment ↔ _
      rw [splitTrailing_eq_some_iff, head?_within_iff]
      simp only [Option.mem_def, Option.some.injEq, forall_eq']
      rw [and_assoc, and_comm (a := _ ≤ _)]

theorem exists_opening {spans : List Span} {index : Nat} {layout : Layout}
    (hlayout : (ofStatements text spans comments)[index]? = some layout) :
    ∃ span, (openings 0 spans)[index]? = some span := by
  have hlt := (List.getElem?_eq_some_iff.mp hlayout).1
  have hlength : (openings 0 spans).length = spans.length := length_openings spans
  rw [length_ofStatements, ← hlength] at hlt
  exact ⟨_, List.getElem?_eq_getElem hlt⟩

/-- A comment of a statement is found in a gap or behind the last statement. -/
theorem mem_comments_ofStatements (h : Block.InOrder comments) {spans : List Span}
    (hspans : AreLaidOut 0 spans) {comment : Comment}
    (hmem : comment ∈ (ofStatements text spans comments).flatMap Layout.comments) :
    (∃ span ∈ openings 0 spans, comment ∈ within comments span) ∨
      lastStop 0 spans ≤ comment.span.start := by
  obtain ⟨layout, hlayout, hcomment⟩ := List.mem_flatMap.mp hmem
  obtain ⟨index, hindex⟩ := List.mem_iff_getElem?.mp hlayout
  rcases List.mem_append.mp hcomment with hleading | htrailing
  · obtain ⟨span, hspan⟩ := exists_opening hindex
    refine .inl ⟨span, List.mem_of_getElem? hspan, ?_⟩
    rw [← around_ofStatements h hspans hspan hindex]
    exact List.mem_append_right _ hleading
  · have hlt := (List.getElem?_eq_some_iff.mp hindex).1
    rw [length_ofStatements] at hlt
    have hspan := List.getElem?_eq_getElem hlt
    obtain ⟨hfirst, -, hnext⟩ := (trailing_ofStatements_iff h hspans hspan hindex).mp
      (Option.mem_toList.mp htrailing)
    cases hafter : spans[index + 1]? with
    | none =>
        rw [lastStop_eq hspan hafter]
        exact .inr (mem_behind.mp (List.mem_of_head? hfirst)).2
    | some next =>
        refine .inl ⟨⟨spans[index].stop, next.start⟩, ?_, ?_⟩
        · refine List.mem_of_getElem? (i := index + 1) ?_
          rw [getElem?_openings_succ hspan, hafter]
          rfl
        · exact List.mem_of_head? (head?_within_iff.mpr ⟨hfirst, hnext next hafter⟩)

/-- Gaps that share a place are the same. -/
theorem AreLaidOut.eq_of_overlap {spans : List Span} (h : AreLaidOut previous spans)
    {first second : Span} (hfirst : first ∈ openings previous spans)
    (hsecond : second ∈ openings previous spans)
    (hstart : first.start ≤ place ∧ place < first.stop)
    (hother : second.start ≤ place ∧ place < second.stop) : first = second := by
  by_contra hne
  have hsymm : Std.Symm fun first second : Span =>
      first.stop ≤ second.start ∨ second.stop ≤ first.start :=
    ⟨fun _ _ => Or.symm⟩
  have hpairwise : (openings previous spans).Pairwise fun first second =>
      first.stop ≤ second.start ∨ second.stop ≤ first.start :=
    h.pairwise_openings.imp .inl
  have hapart := hpairwise.forall hfirst hsecond hne
  omega

/-- A comment that starts in a gap goes with a statement exactly if it is found
there. -/
theorem mem_comments_iff (h : Block.InOrder comments) {spans : List Span}
    (hspans : AreLaidOut 0 spans) {span : Span} (hspan : span ∈ openings 0 spans)
    {comment : Comment} (hstart : span.start ≤ comment.span.start)
    (hstop : comment.span.start < span.stop) :
    comment ∈ (ofStatements text spans comments).flatMap Layout.comments ↔
      comment ∈ within comments span := by
  constructor
  · intro hmem
    rcases mem_comments_ofStatements h hspans hmem with
      ⟨other, hother, hfound⟩ | hlast
    · obtain ⟨hlisted, hle, hends⟩ := mem_within hfound
      have hwritten := h.written comment hlisted
      rwa [hspans.eq_of_overlap hspan hother ⟨hstart, hstop⟩ ⟨hle, by omega⟩]
    · have hbound := (hspans.bounds_openings span hspan).2
      omega
  · intro hfound
    obtain ⟨index, hindex⟩ := List.mem_iff_getElem?.mp hspan
    have hlt := (List.getElem?_eq_some_iff.mp hindex).1
    rw [length_openings, ← length_ofStatements text spans comments] at hlt
    have hlayout := List.getElem?_eq_getElem hlt
    rw [← around_ofStatements h hspans hindex hlayout] at hfound
    rcases List.mem_append.mp hfound with htrailing | hleading
    · cases index with
      | zero => cases htrailing
      | succ index =>
          obtain ⟨before, hbefore, hthis⟩ :=
            Option.bind_eq_some_iff.mp (Option.mem_toList.mp htrailing)
          refine List.mem_flatMap.mpr ⟨before, List.mem_of_getElem? hbefore, ?_⟩
          exact List.mem_append_right _ (Option.mem_toList.mpr hthis)
    · exact List.mem_flatMap.mpr
        ⟨_, List.mem_of_getElem? hlayout, List.mem_append_left _ hleading⟩

/-- Blank lines are counted between what stands behind the statement in front of a
gap and what stands in front of the statement behind it. -/
def margin (gap : Span) (trailing : Option Comment) (leading : List Comment) : Span :=
  ⟨(trailing.map (·.span.stop)).getD gap.start,
    (leading.head?.map (·.span.start)).getD gap.stop⟩

/-- Blank lines are counted in a range of the source unless the comment behind the
statement in front reaches over the next one. -/
theorem margin_isIn_iff {gap : Span} (hgap : gap.IsIn text)
    {trailing : Option Comment} {leading : List Comment}
    (hcomments : ∀ comment ∈ trailing.toList ++ leading, comment.span.IsIn text ∧
      gap.start ≤ comment.span.start ∧ comment.span.stop ≤ gap.stop) :
    (margin gap trailing leading).IsIn text ↔
      ∀ first ∈ trailing, ∀ next ∈ leading.head?,
        first.span.stop ≤ next.span.start := by
  rw [List.forall_mem_append] at hcomments
  cases trailing with
  | none =>
      cases leading with
      | nil => simpa [margin] using hgap
      | cons next others =>
          obtain ⟨hnext, hstart, -⟩ := hcomments.2 next List.mem_cons_self
          simpa [margin] using ⟨hgap.1, hnext.1, hstart⟩
  | some first =>
      obtain ⟨hfirst, -, hstop⟩ := hcomments.1 first List.mem_cons_self
      cases leading with
      | nil => simpa [margin] using ⟨hfirst.2.1, hgap.2.1, hstop⟩
      | cons next others =>
          obtain ⟨hnext, -, -⟩ := hcomments.2 next List.mem_cons_self
          have hiff : Span.IsIn text ⟨first.span.stop, next.span.start⟩ ↔
              first.span.stop ≤ next.span.start :=
            ⟨fun hin => hin.2.2, fun hle => ⟨hfirst.2.1, hnext.1, hle⟩⟩
          simpa [margin] using hiff

end Layout

/-! ### Plain tokens -/

open Bundler.TokenStream Bundler.Parser

/-- A statement starts with a token that stays consumed. -/
theorem Grammar.exists_first_of_collects (grammar : Grammar) [grammar.IsDisciplined]
    [grammar.IsAdvancing] (hspanning : Spanning grammar.statement) {text : List Char}
    {stream after last : TokenStream} (hstream : stream.Reads text)
    {nodes : List Node} (hcollects : Collects grammar.nextStatement stream nodes after)
    (hlast : Leads 0 after last) :
    Leads 0 stream last ∧ ∀ node ∈ nodes, ∃ index next, index < last.consumed ∧
      last.buffer[index]? = some next ∧ next.token.span.start = node.span.start := by
  have hnext := grammar.disciplined_nextStatement
  induction hcollects with
  | done hrun =>
      exact ⟨(hnext.leads hstream.lexes hrun).2.trans hlast,
        fun _ hnode => absurd hnode List.not_mem_nil⟩
  | @more stream between after node others hrun _ ih =>
      have hbetween := hnext.reads hstream hrun
      obtain ⟨hleads, hothers⟩ := ih hbetween hlast
      refine ⟨(hnext.leads hstream.lexes hrun).2.trans hleads,
        List.forall_mem_cons.mpr ⟨?_, hothers⟩⟩
      have hstatement := grammar.statement_of_nextStatement hrun
      have hlt := (inferInstance : Advances grammar.statement).lt hstatement
      rw [consumed_prepare] at hlt
      obtain ⟨next, hbuffer⟩ := hbetween.lexes.exists_consumed hlt
      refine ⟨stream.consumed, next, Nat.lt_of_lt_of_le hlt hleads.consumed_le,
        ?_, ?_⟩
      · rw [← hleads.read_eq _ (Nat.zero_le _) hlt, hbuffer]
      · rw [hspanning _ _ _ hstatement, TokenStream.checkpoint, consumed_prepare,
          spanSince_of_lt hlt hbuffer]

/-- Where all tokens are plain, no listed comment reaches over the start of a
statement. -/
theorem Program.stop_le_of_plain {source : String} {nodes : List Node}
    {last : TokenStream}
    (hrun : wholeSource source (ofSource source.toList) = .ok nodes last)
    (hplain : ∀ index next, index < last.consumed →
      last.buffer[index]? = some next → next.token.IsPlain)
    {comment : Comment} (hmem : comment ∈ last.comments.reverse) {node : Node}
    (hnode : node ∈ nodes)
    (hstart : comment.span.start < node.span.start) :
    comment.span.stop ≤ node.span.start := by
  have hlast := reads_of_run hrun
  -- The comment is in front of a token, as the statement's start is one.
  rw [(lists_of_run hrun).all hplain, commentsUpTo] at hmem
  obtain ⟨index, -, hcomment⟩ := List.mem_flatMap.mp hmem
  obtain ⟨token, htoken⟩ := exists_next_of_mem_commentsAt hcomment
  have hgap := hlast.gap_commentsAt htoken
  obtain ⟨found, between, hstatements, hrest⟩ := Outcome.bind_eq_ok_iff.mp hrun
  obtain ⟨_, ending, hrequire, hpure⟩ := Outcome.bind_eq_ok_iff.mp hrest
  obtain ⟨rfl, rfl⟩ := Outcome.pure_eq_ok_iff.mp hpure
  have hcollects := (collect_eq_ok_iff.mp hstatements).1
  have hdisciplined :
      Disciplined false (Grammar.forSource .module source).statements := by
    rw [Grammar.statements]
    infer_instance
  have hbetween := hdisciplined.reads (reads_ofSource source.toList) hstatements
  have hleads := ((inferInstance : Disciplined false (require .endOfInput)).leads
    hbetween.lexes hrequire).2
  obtain ⟨-, hfirsts⟩ := Grammar.exists_first_of_collects _
    (Grammar.spanning_statement .module _) (reads_ofSource source.toList) hcollects hleads
  obtain ⟨first, next, -, hnext, hplace⟩ := hfirsts node hnode
  rw [← hplace] at hstart ⊢
  have hends := hgap.stop_le_of_mem hcomment
  rcases Nat.lt_trichotomy first index with hlt | rfl | hlt
  · -- A token in front of the one behind the comment starts in front of the comment.
    have hfront := hlast.lexes.offset_mono (Nat.zero_le (first + 1)) hlt (Nat.le_of_lt
      (Array.getElem?_eq_some_iff.mp htoken).1)
    have hspan := hlast.lexes.offset_le_span (Nat.zero_le _) hnext
    have hbehind := (hgap.start_of_mem hcomment).1
    omega
  · rw [htoken] at hnext
    obtain rfl := Option.some.inj hnext
    exact hends
  · have hspan := hlast.lexes.offset_le_span (Nat.zero_le _) htoken
    have hapart := hlast.lexes.stop_le_start (Nat.zero_le _) hlt htoken hnext
    omega

/-! ### Programs -/

namespace Layout

/-- The gaps in front of statements end where these start. -/
theorem exists_start_of_mem_openings {previous : Nat} {spans : List Span} {gap : Span}
    (hgap : gap ∈ openings previous spans) :
    ∃ span ∈ spans, gap.stop = span.start := by
  induction spans generalizing previous with
  | nil => exact absurd hgap List.not_mem_nil
  | cons statement others ih =>
      rcases List.mem_cons.mp hgap with rfl | hlater
      · exact ⟨statement, List.mem_cons_self, rfl⟩
      · obtain ⟨span, hspan, hstop⟩ := ih hlater
        exact ⟨span, List.mem_cons_of_mem statement hspan, hstop⟩

theorem areLaidOut_map_span {text : List Char} {previous : Nat} {nodes : List Node}
    (h : LaidOut text previous nodes)
    (hnodes : ∀ node ∈ nodes, node.span.start ≤ node.span.stop) :
    AreLaidOut previous (nodes.map (·.span)) := by
  induction nodes generalizing previous with
  | nil => trivial
  | cons node others ih =>
      obtain ⟨⟨_, hgap⟩, hothers⟩ := h
      obtain ⟨hnode, hrest⟩ := List.forall_mem_cons.mp hnodes
      exact ⟨hgap.le, hnode, ih hothers hrest⟩

theorem isIn_openings {text : List Char} {previous : Nat} {spans : List Span}
    (hspans : AreLaidOut previous spans) (hisIn : ∀ span ∈ spans, span.IsIn text)
    (hprevious : Text.IsBoundary text previous) :
    ∀ gap ∈ openings previous spans, gap.IsIn text := by
  induction spans generalizing previous with
  | nil => exact fun gap hgap => absurd hgap List.not_mem_nil
  | cons statement others ih =>
      obtain ⟨hstatement, hothers⟩ := List.forall_mem_cons.mp hisIn
      exact List.forall_mem_cons.mpr ⟨⟨hprevious, hstatement.1, hspans.1⟩,
        ih hspans.2.2 hothers hstatement.2.1⟩

/-- How listed comments go with statements that stand in a text.  The number of an
opening is that of the statement behind it. -/
structure Attaches (text : List Char) (comments : List Comment) (spans : List Span)
    (layouts : List Layout) : Prop where
  length_eq : layouts.length = spans.length
  /-- Comments are handed out in the order of the source. -/
  sublist : (layouts.flatMap Layout.comments).Sublist comments
  /-- Up to one that reaches over the statement behind a gap, the comments of the gap
  go with the statements around it. -/
  around : ∀ {index gap layout}, (openings 0 spans)[index]? = some gap →
    layouts[index]? = some layout →
    (trailingBefore layouts index).toList ++ layout.leading = within comments gap
  /-- A comment that starts in a gap goes with one statement, and just once, unless
  one at or in front of it reaches over the statement behind the gap. -/
  once_iff : ∀ {gap comment}, gap ∈ openings 0 spans → comment ∈ comments →
    gap.start ≤ comment.span.start → comment.span.start < gap.stop →
    ((layouts.flatMap Layout.comments).count comment = 1 ↔
      ∀ other ∈ comments, gap.start ≤ other.span.start →
        other.span.start ≤ comment.span.start → other.span.stop ≤ gap.stop)
  /-- Otherwise it goes with none. -/
  none_or_once : ∀ comment, (layouts.flatMap Layout.comments).count comment ≤ 1
  /-- What stands behind a statement is the first comment there, if there is no line
  feed in front of it and it does not reach over the next statement. -/
  trailing_iff : ∀ {index span layout}, spans[index]? = some span →
    layouts[index]? = some layout → ∀ {comment}, layout.trailing = some comment ↔
      (behind comments span.stop).head? = some comment ∧
        Text.breaksLine text ⟨span.stop, comment.span.start⟩ = false ∧
        ∀ next ∈ spans[index + 1]?, comment.span.stop ≤ next.start
  /-- Comments that start in a statement go with none. -/
  inside : ∀ span ∈ spans, ∀ comment ∈ layouts.flatMap Layout.comments,
    comment.span.start < span.start ∨ span.stop ≤ comment.span.start
  blankAfter_eq : ∀ {index layout}, layouts[index]? = some layout →
    layout.blankAfter = (layouts[index + 1]?).elim 0 (·.blankBefore)
  blankBefore_eq : ∀ {index gap layout}, (openings 0 spans)[index]? = some gap →
    layouts[index]? = some layout → layout.blankBefore =
      blankLines text (margin gap (trailingBefore layouts index) layout.leading)
  /-- The text between a statement and the first comment behind it is one of the
  source. -/
  tested : ∀ span ∈ spans, ∀ first ∈ (behind comments span.stop).head?,
    Span.IsIn text ⟨span.stop, first.span.start⟩
  /-- So is the text in which blank lines are counted, unless the comment behind the
  statement in front reaches over the next comment. -/
  counted_iff : ∀ {index gap layout}, (openings 0 spans)[index]? = some gap →
    layouts[index]? = some layout →
    ((margin gap (trailingBefore layouts index) layout.leading).IsIn text ↔
      ∀ first ∈ trailingBefore layouts index, ∀ next ∈ layout.leading.head?,
        first.span.stop ≤ next.span.start)

theorem attaches_ofStatements {text : List Char} {comments : List Comment}
    {spans : List Span} (hcomments : Block.InOrder comments)
    (hwritten : ∀ comment ∈ comments, comment.span.IsIn text)
    (hspans : AreLaidOut 0 spans) (hisIn : ∀ span ∈ spans, span.IsIn text) :
    Attaches text comments spans (ofStatements text spans comments) := by
  have hsublist := comments_ofStatements text spans comments
  have hnodup := (nodup_of_inOrder hcomments).sublist hsublist
  have hgaps := isIn_openings hspans hisIn ⟨[], text, rfl, rfl⟩
  refine
    { length_eq := length_ofStatements text spans comments
      sublist := hsublist
      around := around_ofStatements hcomments hspans
      once_iff := fun hgap hmem hstart hstop => ?_
      none_or_once := List.nodup_iff_count_le_one.mp hnodup
      trailing_iff := fun hspan hlayout _ =>
        trailing_ofStatements_iff hcomments hspans hspan hlayout
      inside := fun span hspan comment hmem => ?_
      blankAfter_eq := fun hlayout => ?_
      blankBefore_eq := fun hgap hlayout => ?_
      tested := fun span hspan first hfirst => ?_
      counted_iff := fun hgap hlayout => ?_ }
  · rw [← mem_within_iff hcomments hmem hstart]
    refine Iff.intro (fun hcount => ?_) fun hfound =>
      List.count_eq_one_of_mem hnodup
        ((mem_comments_iff hcomments hspans hgap hstart hstop).mpr hfound)
    exact (mem_comments_iff hcomments hspans hgap hstart hstop).mp
      (List.count_pos_iff.mp (Nat.lt_of_lt_of_eq Nat.zero_lt_one hcount.symm))
  · rcases mem_comments_ofStatements hcomments hspans hmem with
      ⟨gap, hgap, hfound⟩ | hlast
    · obtain ⟨hlisted, hstart, hstop⟩ := mem_within hfound
      have hlt := hcomments.written comment hlisted
      rcases hspans.disjoint gap hgap span hspan with hle | hle
      · exact .inl (by omega)
      · exact .inr (Nat.le_trans hle hstart)
    · exact .inr (Nat.le_trans (hspans.bounds span hspan).2.2 hlast)
  · rw [getElem?_ofStatements hcomments hspans] at hlayout ⊢
    obtain ⟨before, -, rfl⟩ := Option.map_eq_some_iff.mp hlayout
    cases gapAt text comments spans _ <;> rfl
  · rw [getElem?_ofStatements hcomments hspans] at hlayout
    obtain ⟨before, hbefore, rfl⟩ := Option.map_eq_some_iff.mp hlayout
    rw [trailingBefore_ofStatements hcomments hspans hbefore]
    rw [gapAt, hgap] at hbefore
    obtain rfl := Option.some.inj hbefore
    rfl
  · have hbehind := mem_behind.mp (List.mem_of_head? hfirst)
    exact ⟨(hisIn span hspan).2.1, (hwritten first hbehind.1).1, hbehind.2⟩
  · refine margin_isIn_iff (hgaps _ (List.mem_of_getElem? hgap)) fun comment hmem => ?_
    rw [around_ofStatements hcomments hspans hgap hlayout] at hmem
    obtain ⟨hlisted, hplace⟩ := mem_within hmem
    exact ⟨hwritten comment hlisted, hplace⟩

end Layout

namespace Program

/-- The ranges of the statements of a program. -/
def spans (program : Program) : List Span := program.statements.map (·.span)

/-- The layouts of the statements of a program. -/
def layouts (source : String) (program : Program) : List Layout :=
  Layout.ofStatements source.toList program.spans program.comments

/-- The comments of a program go with the statements around the gaps they are listed
in, each with one at most.  One is left out if a listed comment reaches over the
statement behind the gap, which none does where all tokens are plain. -/
theorem comments_attached {source : String} {program : Program}
    (hparse : parse source = .ok program) :
    Layout.Attaches source.toList program.comments program.spans
        (program.layouts source) ∧
      (∀ path analysis, Analysis.ofProgram path source program = .ok analysis →
        analysis.statements.map (·.layout) = program.layouts source) ∧
      ∃ last, wholeSource source (ofSource source.toList) =
          .ok program.statements last ∧
        ((∀ index next, index < last.consumed → last.buffer[index]? = some next →
            next.token.IsPlain) →
          ∀ gap ∈ Layout.openings 0 program.spans, ∀ comment ∈ program.comments,
            gap.start ≤ comment.span.start → comment.span.start < gap.stop →
            comment.span.stop ≤ gap.stop ∧
              ((program.layouts source).flatMap Layout.comments).count comment =
                1) := by
  have hisIn := isIn_of_parse hparse
  obtain ⟨_, hlists⟩ := exists_lists_of_parse hparse
  have hattaches : Layout.Attaches source.toList program.comments program.spans
      (program.layouts source) :=
    Layout.attaches_ofStatements (Block.inOrder_comments hparse)
      (fun comment hmem => (hlists.written comment hmem).isIn)
      (Layout.areLaidOut_map_span (laidOut_of_parse hparse)
        fun node hnode => (hisIn node hnode).2.2)
      (List.forall_mem_map.mpr hisIn)
  refine ⟨hattaches, fun path analysis hanalysis =>
    (Analysis.map_layout_of_ofProgram hanalysis).2, ?_⟩
  rw [parse_eq] at hparse
  obtain ⟨⟨nodes, last⟩, hrun, hpure⟩ := Except.bind_eq_ok_iff.mp hparse
  obtain rfl := Except.ok.inj hpure
  have hwhole := run_eq_ok_iff.mp hrun
  refine ⟨last, hwhole, fun hplain => ?_⟩
  have hends : ∀ gap ∈ Layout.openings 0 (nodes.map (·.span)),
      ∀ comment ∈ last.comments.reverse, comment.span.start < gap.stop →
        comment.span.stop ≤ gap.stop := by
    intro gap hgap comment hmem hstop
    obtain ⟨_, hspan, hstart⟩ := Layout.exists_start_of_mem_openings hgap
    obtain ⟨node, hnode, rfl⟩ := List.mem_map.mp hspan
    rw [hstart] at hstop ⊢
    exact stop_le_of_plain hwhole hplain hmem hnode hstop
  intro gap hgap comment hmem hstart hstop
  refine ⟨hends gap hgap comment hmem hstop,
    (hattaches.once_iff hgap hmem hstart hstop).mpr fun other hother _ hle => ?_⟩
  exact hends gap hgap other hother (Nat.lt_of_le_of_lt hle hstop)

/-- The comment on the line of the first statement goes with it, and the other one
with the second statement. -/
theorem comments_attached_around :
    ∃ program, parse "a; // b\n/* c */ d;" = .ok program ∧
      program.spans = [⟨0, 2⟩, ⟨16, 18⟩] ∧
      ((program.layouts "a; // b\n/* c */ d;").flatMap Layout.comments).count
        ⟨⟨3, 7⟩, false⟩ = 1 ∧
      Layout.trailingBefore (program.layouts "a; // b\n/* c */ d;") 1 =
        some ⟨⟨3, 7⟩, false⟩ := by
  have hfacts : ((parse "a; // b\n/* c */ d;").toOption.any fun program =>
      program.spans = [⟨0, 2⟩, ⟨16, 18⟩] ∧
        program.comments = [⟨⟨3, 7⟩, false⟩, ⟨⟨8, 15⟩, true⟩] ∧
        Layout.trailingBefore (program.layouts "a; // b\n/* c */ d;") 1 =
          some ⟨⟨3, 7⟩, false⟩) = true := by
    decide +kernel
  obtain ⟨program, hparse, hknown⟩ := Except.exists_of_any_toOption hfacts
  obtain ⟨hspans, hcomments, htrailing⟩ := of_decide_eq_true hknown
  have honce := @Layout.Attaches.once_iff _ _ _ _ (comments_attached hparse).1
    ⟨2, 16⟩ ⟨⟨3, 7⟩, false⟩ (by rw [hspans]; decide) (by rw [hcomments]; decide)
    (by decide) (by decide)
  refine ⟨program, hparse, hspans, honce.mpr ?_, htrailing⟩
  rw [hcomments]
  decide

/-- Text of a template that is taken for the start of a comment, up to the next end of
one.  What looks like a comment behind it reaches over the second statement. -/
def overreached : String := "\x60${a}/*\x60; // */ /*\n// d\nb; /* */\n"

/-- The same with a comment in front of the second statement. -/
def overlapped : String := "\x60${a}/*\x60; // */ /*\n// d\n/* */b;\n"

/-- The comment in front of the second statement goes with none, since a listed one in
front of it reaches over the statement.  If it ends in front of the statement, blank
lines are counted from its end back to the start of the next comment. -/
theorem comments_attached_not :
    (∃ program, parse overreached = .ok program ∧
      program.spans = [⟨0, 9⟩, ⟨24, 26⟩] ∧
      ⟨⟨19, 23⟩, false⟩ ∈ program.comments ∧
      ((program.layouts overreached).flatMap Layout.comments).count
        ⟨⟨19, 23⟩, false⟩ = 0) ∧
    ∃ program, parse overlapped = .ok program ∧
      program.spans = [⟨0, 9⟩, ⟨29, 31⟩] ∧
      Layout.margin ⟨9, 29⟩ (Layout.trailingBefore (program.layouts overlapped) 1)
        ((program.layouts overlapped)[1]?.elim [] (·.leading)) = ⟨29, 19⟩ := by
  have hleft : ((parse overreached).toOption.any fun program =>
      program.spans = [⟨0, 9⟩, ⟨24, 26⟩] ∧
        ⟨⟨19, 23⟩, false⟩ ∈ program.comments ∧
        ((program.layouts overreached).flatMap Layout.comments).count
          ⟨⟨19, 23⟩, false⟩ = 0) = true := by
    decide +kernel
  have hreversed : ((parse overlapped).toOption.any fun program =>
      program.spans = [⟨0, 9⟩, ⟨29, 31⟩] ∧
        Layout.margin ⟨9, 29⟩ (Layout.trailingBefore (program.layouts overlapped) 1)
          ((program.layouts overlapped)[1]?.elim [] (·.leading)) = ⟨29, 19⟩) = true := by
    decide +kernel
  obtain ⟨first, hfirst, hknown⟩ := Except.exists_of_any_toOption hleft
  obtain ⟨second, hsecond, hfound⟩ := Except.exists_of_any_toOption hreversed
  exact ⟨⟨first, hfirst, of_decide_eq_true hknown⟩,
    second, hsecond, of_decide_eq_true hfound⟩

end Program

end Bundler
