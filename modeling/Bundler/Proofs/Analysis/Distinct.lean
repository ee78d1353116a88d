import Bundler.Proofs.Analysis.Declared
import Bundler.Proofs.Parser.NamesOnce
import Mathlib.Data.List.Nodup

/-!
# References stand at different places

A place is recorded once for each name of the tree that stands there, and at most
one does, since a word is read as one name.  So no two references of a statement stand
at the same place.
-/

namespace Bundler

open Tallied (tally)
open Node (tallyName tallyRange tallySpan tallyParts)

variable {place : Span}

/-! ### Words -/

namespace TokenStream

variable {stream : TokenStream}

/-- At most one word stands at a place, and none where there is no text. -/
theorem Lexes.tallyUpTo_le (h : stream.Lexes 0) (place : Span) (count : Nat) :
    stream.tallyUpTo place count ≤ if place.isEmpty then 0 else 1 := by
  induction count with
  | zero => exact Nat.zero_le _
  | succ count ih =>
      rw [tallyUpTo_succ]
      split
      · rename_i hword
        obtain ⟨next, hnext, hword⟩ := (Option.any_eq_true _ _).mp hword
        obtain ⟨hkind, hspan⟩ := Bool.and_eq_true_iff.mp hword
        obtain rfl := of_decide_eq_true hspan
        have htext : next.token.span.isEmpty = false := by
          rw [h.lexed count next (Nat.zero_le _) hnext] at hkind ⊢
          exact isEmpty_span_of_isWord hkind
        rw [htext, if_neg Bool.false_ne_true]
        -- No other word stands there, since words do not overlap.
        have hnone : stream.tallyUpTo next.token.span count = 0 := by
          refine List.countP_eq_zero.mpr fun index hindex hother => ?_
          obtain ⟨other, hother, hword⟩ := (Option.any_eq_true _ _).mp hother
          have hsame := of_decide_eq_true (Bool.and_eq_true_iff.mp hword).2
          have hapart := h.stop_le_start (Nat.zero_le _) (List.mem_range.mp hindex)
            hother hnext
          rw [hsame] at hapart
          rw [Span.isEmpty, decide_eq_false_iff_not] at htext
          exact htext hapart
        omega
      · exact ih

end TokenStream

/-- A word of a statement is one name of it at most. -/
theorem Program.tally_le_of_parse {source : String} {program : Program}
    (hparse : parse source = .ok program) {statement : Node}
    (hstatement : statement ∈ program.statements) (place : Span) :
    tally place statement ≤ if place.isEmpty then 0 else 1 := by
  obtain ⟨start, stop, hstart, hrun⟩ :=
    exists_run_of_parse hparse statement hstatement
  have hspends : Parser.Spends place 0
      (Grammar.forSource .module source).statement := inferInstance
  obtain ⟨hstop, _, htally⟩ := hspends.spends hstart.lexes hrun
  have hle := hstop.tallyUpTo_le place stop.consumed
  omega

/-! ### Identifiers -/

namespace Node

variable {node : Node}

/-- What a construct is named by is its first part, and the construct is no name
itself. -/
theorem named_cases (node : Node) :
    node.nameOfExpression?.toList ++ node.nameOfDeclaration?.toList = [] ∨
      node.readName? = none ∧ ∃ part others found,
        node.parts = part :: others ∧ part.2.declaredName? = some found ∧
        node.nameOfExpression?.toList ++ node.nameOfDeclaration?.toList =
          [found] := by
  obtain ⟨span, shape⟩ := node
  have hnamed : ∀ (name : Node) (others : List (Role × Node)),
      name.declaredName?.toList = [] ∨ ∃ part rest found,
        (Role.plain, name) :: others = part :: rest ∧
        part.2.declaredName? = some found ∧
        name.declaredName?.toList = [found] := by
    intro name others
    cases hname : name.declaredName? with
    | none => exact .inl rfl
    | some found => exact .inr ⟨_, _, found, rfl, hname, rfl⟩
  cases shape
  case funcDeclaration name func =>
    exact (hnamed name _).imp id fun h => ⟨rfl, h⟩
  case classDeclaration name heritage members =>
    exact (hnamed name _).imp id fun h => ⟨rfl, h⟩
  case funcExpr name func =>
    cases name with
    | none => exact .inl rfl
    | some name =>
        simp only [nameOfExpression?, nameOfDeclaration?, shape, Option.bind_some, Option.toList_none, List.append_nil]
        exact (hnamed name _).imp id fun h => ⟨rfl, h⟩
  case classExpr name heritage members =>
    cases name with
    | none => exact .inl rfl
    | some name =>
        simp only [nameOfExpression?, nameOfDeclaration?, shape, Option.bind_some, Option.toList_none, List.append_nil]
        exact (hnamed name _).imp id fun h => ⟨rfl, h⟩
  all_goals exact .inl rfl

theorem eq_of_declaredName? {node : Node} {found : Occurrence}
    (hfound : node.declaredName? = some found) :
    node = .mk found.span (.declaredName found.name) := by
  obtain ⟨span, shape⟩ := node
  cases shape
  case declaredName name =>
    cases hfound
    rfl
  all_goals cases hfound

end Node

namespace Site

/-- How many of the names at some sites stand at a place. -/
def tally (place : Span) (sites : List Site) : Nat :=
  (sites.flatMap identifiers).countP (·.reference.span = place)

theorem tally_cons (site : Site) (sites : List Site) :
    tally place (site :: sites) =
      site.identifiers.countP (·.reference.span = place) + tally place sites := by
  rw [tally, List.flatMap_cons, List.countP_append]
  rfl

theorem tally_append (sites others : List Site) :
    tally place (sites ++ others) = tally place sites + tally place others := by
  rw [tally, List.flatMap_append, List.countP_append]
  rfl

/-- The names at one site. -/
theorem countP_identifiers (site : Site) :
    site.identifiers.countP (·.reference.span = place) =
      (site.node.nameOfExpression?.toList ++
          site.node.nameOfDeclaration?.toList).countP (·.span = place) +
        (site.node.readName?.toList.filter (!·.span.isEmpty)).countP
          (·.span = place) := by
  simp only [identifiers, List.countP_append, List.countP_map]
  rfl

/-- A name that is read is counted if it has a text. -/
theorem countP_readName_le (place : Span) (node : Node) :
    (node.readName?.toList.filter (!·.span.isEmpty)).countP (·.span = place) ≤
      tallyName place node.span node.shape := by
  obtain ⟨span, shape⟩ := node
  cases shape
  case ident name | identPattern name =>
    change (List.filter _ [Occurrence.mk name span]).countP _ ≤ tallySpan place span
    cases htext : span.isEmpty with
    | true => simp [htext]
    | false => simp [htext, tallySpan, tallyRange, List.countP_singleton]
  all_goals exact Nat.zero_le _

/-- The name of a declaration is found with the declaration only. -/
theorem tally_sites_declaredName (found : Occurrence) (ownName : Option String)
    (isShorthand : Bool) (frames : List Frame) :
    tally place ((Node.mk found.span (.declaredName found.name)).sites ownName
      isShorthand frames) = 0 := by
  rw [Node.sites_eq, tally_cons, countP_identifiers]
  rfl

/-- No more names at a place are found in a tree than the tree has there. -/
theorem tally_sites_le (node : Node) (ownName : Option String) (isShorthand : Bool)
    (frames : List Frame) :
    tally place (node.sites ownName isShorthand frames) ≤
      Tallied.tally place node := by
  induction node using Node.parts_induction
    generalizing ownName isShorthand frames with
  | hnode node ih =>
    rw [Node.sites_eq, tally_cons, countP_identifiers]
    dsimp only
    generalize (node.frame? ownName).toList ++ frames = around
    have hparts : ∀ parts : List (Role × Node), parts ⊆ node.parts →
        tally place (parts.flatMap fun part => part.2.sites node.ownName?
          (node.partIsShorthand part.1) around) ≤ tallyParts place parts := by
      intro parts hsubset
      induction parts with
      | nil => exact Nat.le_refl 0
      | cons part parts ihParts =>
          obtain ⟨hpart, hothers⟩ := List.cons_subset.mp hsubset
          rw [List.flatMap_cons, tally_append, tallyParts_cons]
          exact Nat.add_le_add (ih part hpart _ _ _) (ihParts hothers)
    have hread := countP_readName_le place node
    have htally : Tallied.tally place node = _ := Node.tally_eq place node
    rcases node.named_cases with
      hnone | ⟨hnoname, part, others, found, hfirst, hname, hfound⟩
    · have hall := hparts node.parts (List.Subset.refl _)
      rw [hnone, List.countP_nil]
      omega
    · -- What the construct is named by is counted with its first part.
      obtain ⟨role, name⟩ := part
      obtain rfl := Node.eq_of_declaredName? hname
      have hothers := hparts others (hfirst ▸ List.subset_cons_self _ others)
      have hrange : [found].countP (·.span = place) = tallyRange place found.span := by
        simp [tallyRange, List.countP_singleton]
      have hnamed : Tallied.tally place (Node.mk found.span (.declaredName found.name)) =
          tallyRange place found.span := tally_node
      rw [hfirst, List.flatMap_cons, tally_append, tally_sites_declaredName,
        hfound, hnoname, Nat.zero_add, hrange]
      rw [hfirst, tallyParts_cons, hnamed] at htally
      simp only [Option.toList_none, List.filter_nil, List.countP_nil]
      omega

/-- So it is with the references of a statement. -/
theorem countP_free_le (place : Span) (statement : Node × StatementKind) :
    (free (ofStatement statement)).countP (·.span = place) ≤
      Tallied.tally place statement.1 := by
  rw [ofStatement]
  split
  · exact Nat.zero_le _
  · refine Nat.le_trans ?_ (tally_sites_le statement.1 none false [])
    rw [free, List.countP_map]
    exact List.filter_sublist.countP_le

end Site

/-! ### References -/

namespace Analysis

variable {path : Path} {source : String} {program : Program} {analysis : Analysis}

/-- No two references of a statement stand at one place, and all of them have a
text. -/
theorem references_distinct (hparse : Program.parse source = .ok program)
    {statement : Statement} {found : Node × StatementKind}
    (hfound : found.1 ∈ program.statements)
    (hreferences : statement.references.Perm (Site.free (Site.ofStatement found))) :
    (statement.references.map (·.span)).Nodup ∧
      ∀ reference ∈ statement.references, reference.span.isEmpty = false := by
  have hcount : ∀ place : Span, (statement.references.map (·.span)).count place ≤
      if place.isEmpty then 0 else 1 := by
    intro place
    rw [List.count, List.countP_map]
    have hfree := Site.countP_free_le place found
    rw [← hreferences.countP_eq] at hfree
    exact Nat.le_trans hfree (Program.tally_le_of_parse hparse hfound place)
  constructor
  · refine List.nodup_iff_count_le_one.mpr fun place => Nat.le_trans (hcount place) ?_
    split
    · exact Nat.zero_le 1
    · exact Nat.le_refl 1
  · intro reference hreference
    rw [Bool.eq_false_iff]
    intro hempty
    have hnone := hcount reference.span
    rw [if_pos hempty] at hnone
    exact List.count_eq_zero.mp (Nat.le_zero.mp hnone)
      (List.mem_map.mpr ⟨reference, hreference, rfl⟩)

end Analysis

end Bundler
