import Bundler.Proofs.Analysis.Declared

/-!
# Writes to imports

What an assignment writes is found at the root of its target: in front of all
members, and at any depth of a pattern.  The second walk stops at the first such
name that is imported and that no function or block around binds.
-/

namespace Bundler

namespace Node

/-- Patterns that have patterns as parts. -/
def isCompound (node : Node) : Bool :=
  match node.shape with
  | .arrayPattern _ _ | .objectPattern _ _ | .patternProperty _ _ _ _ => true
  | _ => false

/-- A pattern binds a name: it is the name, or a part of it binds the name.  What
is computed or initial in a pattern binds nothing. -/
inductive Binds : Node → Occurrence → Prop
  | name (span : Span) (name : String) :
      Binds (.mk span (.identPattern name)) ⟨name, span⟩
  | part {node : Node} {part : Role × Node} {bound : Occurrence} :
      node.isCompound = true → part ∈ node.parts → part.1 ≠ .expression →
      Binds part.2 bound → Binds node bound

/-- What the target of an assignment writes: a member writes what it is a member
of, and a pattern what it binds. -/
inductive HasRoot : Node → Occurrence → Prop
  | name (span : Span) (name : String) :
      HasRoot (.mk span (.ident name)) ⟨name, span⟩
  | member {span : Span} {isOptional : Bool} {owner : Node} {property : String}
      {root : Occurrence} : HasRoot owner root →
      HasRoot (.mk span (.member isOptional owner property)) root
  | computedMember {span : Span} {isOptional : Bool} {owner key : Node}
      {root : Occurrence} : HasRoot owner root →
      HasRoot (.mk span (.computedMember isOptional owner key)) root
  | pattern {node : Node} {bound : Occurrence} :
      Binds node bound → HasRoot node bound

/-- A construct itself writes a name. -/
inductive Writes : Node → Occurrence → Prop
  | assignment {span : Span} {operator : Operator} {target value : Node}
      {written : Occurrence} : operator.isAssignment = true →
      target.HasRoot written →
      Writes (.mk span (.binary operator target value)) written
  | prefixIncrement {span : Span} {target : Node} {written : Occurrence} :
      target.HasRoot written →
      Writes (.mk span (.unary .prefixIncrement target)) written
  | prefixDecrement {span : Span} {target : Node} {written : Occurrence} :
      target.HasRoot written →
      Writes (.mk span (.unary .prefixDecrement target)) written
  | update {span : Span} {operator : Operator} {target : Node}
      {written : Occurrence} : target.HasRoot written →
      Writes (.mk span (.update operator target)) written
  | forIn {span : Span} {pattern source body : Node} {written : Occurrence} :
      pattern.Binds written →
      Writes (.mk span (.forIn (.assign pattern) source body)) written
  | forOf {span : Span} {isAwait : Bool} {pattern source body : Node}
      {written : Occurrence} : pattern.Binds written →
      Writes (.mk span (.forOf isAwait (.assign pattern) source body)) written

section Unfolding

variable {node : Node} {found : Occurrence}

theorem mem_boundNames_iff : found ∈ node.boundNames ↔ node.Binds found := by
  induction node using parts_induction with
  | hnode node ih =>
    have hparts : (found ∈ node.parts.attach.flatMap fun part =>
          if part.1.1 = .expression then [] else part.1.2.boundNames) ↔
        ∃ part ∈ node.parts, part.1 ≠ .expression ∧ part.2.Binds found := by
      simp only [List.mem_flatMap, List.mem_attach, true_and, Subtype.exists]
      refine exists_congr fun part => ?_
      constructor
      · rintro ⟨hpart, hfound⟩
        split at hfound
        · exact absurd hfound List.not_mem_nil
        · exact ⟨hpart, ‹_›, (ih part hpart).mp hfound⟩
      · rintro ⟨hpart, hrole, hfound⟩
        refine ⟨hpart, ?_⟩
        rw [if_neg hrole]
        exact (ih part hpart).mpr hfound
    have hcompound : node.isCompound = true →
        ((∃ part ∈ node.parts, part.1 ≠ .expression ∧ part.2.Binds found) ↔
          node.Binds found) := by
      intro hcompound
      constructor
      · rintro ⟨part, hpart, hrole, hfound⟩
        exact .part hcompound hpart hrole hfound
      · intro hfound
        cases hfound with
        | name => cases hcompound
        | part _ hpart hrole hbound => exact ⟨_, hpart, hrole, hbound⟩
    clear ih
    obtain ⟨span, shape⟩ := node
    rw [boundNames]
    cases shape with
    | identPattern name =>
        constructor
        · intro hfound
          obtain rfl := List.mem_singleton.mp hfound
          exact .name span name
        · intro hfound
          cases hfound with
          | name => exact List.mem_cons_self
          | part hcompound => cases hcompound
    | arrayPattern elements rest => exact hparts.trans (hcompound rfl)
    | objectPattern properties rest => exact hparts.trans (hcompound rfl)
    | patternProperty key target isShorthand initial =>
        exact hparts.trans (hcompound rfl)
    | _ =>
        refine iff_of_false List.not_mem_nil fun hfound => ?_
        cases hfound with
        | part hcompound => cases hcompound

theorem mem_writtenNames_iff :
    found ∈ node.writtenNames ↔ node.HasRoot found := by
  fun_induction writtenNames node with
  | case1 span name =>
      constructor
      · intro hfound
        obtain rfl := List.mem_singleton.mp hfound
        exact .name span name
      · intro hfound
        cases hfound with
        | name => exact List.mem_cons_self
        | pattern hbound =>
            cases hbound with
            | part hcompound => cases hcompound
  | case2 span isOptional owner property ih =>
      refine ih.trans ⟨.member, fun hfound => ?_⟩
      cases hfound with
      | member hroot => exact hroot
      | pattern hbound =>
          cases hbound with
          | part hcompound => cases hcompound
  | case3 span isOptional owner key ih =>
      refine ih.trans ⟨.computedMember, fun hfound => ?_⟩
      cases hfound with
      | computedMember hroot => exact hroot
      | pattern hbound =>
          cases hbound with
          | part hcompound => cases hcompound
  | case4 node hident hmember hcomputed =>
      refine mem_boundNames_iff.trans ⟨.pattern, fun hfound => ?_⟩
      cases hfound with
      | name span name => exact (hident span name rfl).elim
      | member => exact (hmember _ _ _ _ rfl).elim
      | computedMember => exact (hcomputed _ _ _ _ rfl).elim
      | pattern hbound => exact hbound

/-- The names that the second walk takes for written at a node are those that the
node writes. -/
theorem mem_certainWrites_iff :
    found ∈ node.certainWrites ↔ node.Writes found := by
  obtain ⟨span, shape⟩ := node
  constructor
  · intro hfound
    rw [certainWrites] at hfound
    split at hfound
    · rename_i operator target value hshape
      obtain rfl : shape = .binary operator target value := hshape
      split at hfound
      · exact .assignment ‹_› (mem_writtenNames_iff.mp hfound)
      · exact absurd hfound List.not_mem_nil
    · rename_i operator target hshape
      obtain rfl : shape = .unary operator target := hshape
      split at hfound
      · rename_i hoperator
        rcases hoperator with rfl | rfl
        · exact .prefixIncrement (mem_writtenNames_iff.mp hfound)
        · exact .prefixDecrement (mem_writtenNames_iff.mp hfound)
      · exact absurd hfound List.not_mem_nil
    · rename_i operator target hshape
      obtain rfl : shape = .update operator target := hshape
      exact .update (mem_writtenNames_iff.mp hfound)
    · rename_i pattern source body hshape
      obtain rfl : shape = .forIn (.assign pattern) source body := hshape
      exact .forIn (mem_boundNames_iff.mp hfound)
    · rename_i isAwait pattern source body hshape
      obtain rfl : shape = .forOf isAwait (.assign pattern) source body := hshape
      exact .forOf (mem_boundNames_iff.mp hfound)
    · exact absurd hfound List.not_mem_nil
  · intro hfound
    cases hfound with
    | assignment hassigns hroot =>
        simpa [certainWrites, shape, hassigns] using
          mem_writtenNames_iff.mpr hroot
    | prefixIncrement hroot => exact mem_writtenNames_iff.mpr hroot
    | prefixDecrement hroot => exact mem_writtenNames_iff.mpr hroot
    | update hroot => exact mem_writtenNames_iff.mpr hroot
    | forIn hbound => exact mem_boundNames_iff.mpr hbound
    | forOf hbound => exact mem_boundNames_iff.mpr hbound

end Unfolding

section Names

variable {Allows : Span → String → Prop} {node : Node} {found : Occurrence}

theorem HasRoot.allowed (hroot : node.HasRoot found)
    (hnames : node.Names Allows) : Allows found.span found.name := by
  induction hroot with
  | name => exact hnames.name rfl
  | member _ ih => exact ih (hnames.parts (.expression, _) List.mem_cons_self)
  | computedMember _ ih =>
      exact ih (hnames.parts (.expression, _) List.mem_cons_self)
  | pattern hbound =>
      exact allows_boundNames hnames _ (mem_boundNames_iff.mpr hbound)

/-- A name that is written is one that may stand there. -/
theorem Writes.allowed (hwrites : node.Writes found)
    (hnames : node.Names Allows) : Allows found.span found.name := by
  have hbinds : ∀ {pattern : Node}, pattern.Binds found →
      pattern.Names Allows → Allows found.span found.name :=
    fun hbound hpattern => (HasRoot.pattern hbound).allowed hpattern
  cases hwrites with
  | assignment _ hroot =>
      exact hroot.allowed (hnames.parts (.expression, _) List.mem_cons_self)
  | prefixIncrement hroot =>
      exact hroot.allowed (hnames.parts (.expression, _) List.mem_cons_self)
  | prefixDecrement hroot =>
      exact hroot.allowed (hnames.parts (.expression, _) List.mem_cons_self)
  | update hroot =>
      exact hroot.allowed (hnames.parts (.expression, _) List.mem_cons_self)
  | forIn hbound =>
      exact hbinds hbound (hnames.parts (.pattern, _) List.mem_cons_self)
  | forOf hbound =>
      exact hbinds hbound (hnames.parts (.pattern, _) List.mem_cons_self)

end Names

end Node

namespace Site

variable {imported : List String} {site : Site} {written : Occurrence}

/-- The imports that are written at a site: no function or block around binds
them. -/
def importWrites (imported : List String) (site : Site) : List Occurrence :=
  site.node.certainWrites.filter fun written =>
    !site.isBound written.name && imported.contains written.name

theorem mem_importWrites_iff : written ∈ site.importWrites imported ↔
    site.node.Writes written ∧
      (∀ frame ∈ site.frames, written.name ∉ frame.names) ∧
      written.name ∈ imported := by
  simp [importWrites, Node.mem_certainWrites_iff, isBound]

end Site

namespace Usage

variable {context : UsageContext} {scope : Nat} {usage : Usage} {site : Site}

theorem illegalWrite_foldl_certain (written : List Occurrence) :
    (written.foldl (context.write scope true) usage).illegalWrite =
      usage.illegalWrite.or (written.filter fun found =>
        !context.isLocal scope found.name &&
          context.imports.contains found.name).head? := by
  induction written generalizing usage with
  | nil => simp
  | cons found written ih =>
      rw [List.foldl_cons, ih, UsageContext.write]
      cases hlocal : context.isLocal scope found.name with
      | true => simp [hlocal]
      | false =>
          cases himport : context.imports.contains found.name with
          | true => simp_all
          | false => simp_all

theorem illegalWrite_foldl_possible (written : List Occurrence) :
    (written.foldl (context.write scope false) usage).illegalWrite =
      usage.illegalWrite := by
  refine List.foldlRecOn written _ (motive := fun later : Usage =>
    later.illegalWrite = usage.illegalWrite) rfl fun later hlater found _ => ?_
  rw [UsageContext.write]
  split
  · exact hlater
  · simpa using hlater

/-- The second walk takes note of the first import that is written. -/
theorem illegalWrite_meet (hsees : Sees context scope site) :
    (meet context site.isShorthand scope site.node usage).illegalWrite =
      usage.illegalWrite.or (site.importWrites context.imports).head? := by
  have hdeclared : ∀ (found : Option Occurrence) {usage : Usage},
      (found.toList.foldl (context.nameDeclared scope) usage).illegalWrite =
        usage.illegalWrite := by
    intro found usage
    cases found with
    | none => rfl
    | some found =>
        simp only [Option.toList_some, List.foldl_cons, List.foldl_nil,
          UsageContext.nameDeclared]
        split <;> rfl
  have hread : ∀ (found : Option Occurrence) {usage : Usage},
      (found.toList.foldl (context.read scope site.isShorthand)
        usage).illegalWrite = usage.illegalWrite := by
    intro found usage
    cases found with
    | none => rfl
    | some found =>
        simp only [Option.toList_some, List.foldl_cons, List.foldl_nil,
          UsageContext.read]
        split <;> rfl
  rw [meet, hread, hdeclared, illegalWrite_foldl_possible,
    illegalWrite_foldl_certain, Site.importWrites]
  simp only [hsees.isLocal]

theorem illegalWrite_visit_sites (node : Node) (ownName : Option String)
    (isShorthand : Bool) (scope : Nat) (frames : List Frame)
    (hsees : List.Forall₂ (Sees context)
      ((walk context).scopes isShorthand scope node usage)
      (node.sites ownName isShorthand frames)) :
    ((walk context).visit isShorthand scope node usage).illegalWrite =
      usage.illegalWrite.or ((node.sites ownName isShorthand frames).flatMap
        (·.importWrites context.imports)).head? := by
  rw [view_visit (·.illegalWrite)
    (fun first site => first.or (site.importWrites context.imports).head?)
    illegalWrite_meet (fun _ _ => rfl) node ownName isShorthand scope frames
    hsees]
  generalize node.sites ownName isShorthand frames = sites
  generalize usage.illegalWrite = first
  clear hsees
  induction sites generalizing first with
  | nil => exact (Option.or_none).symm
  | cons site sites ih =>
      rw [List.foldl_cons, ih, Option.or_assoc, List.flatMap_cons,
        List.head?_append]

end Usage

namespace Analysis

variable {tree : ScopeTree} {imports : List String}

/-- What comes of the second walk: it stops at the first import that is
written. -/
inductive Uses {α : Type} (written : List Occurrence) :
    Except Occurrence α → Prop
  | toEnd {found : α} : written = [] → Uses written (.ok found)
  | upTo {first : Occurrence} {others : List Occurrence} :
      written = first :: others → Uses written (.error first)

theorem uses_from (hordered : tree.IsOrdered)
    {statements : List ((Node × StatementKind) × List String)}
    {start : Nat × List Usage}
    (hstands : List.Forall₂ (List.Forall₂ (Declarations.Stands tree))
      (Usage.scopesFrom tree imports start.1 statements)
      (statements.map (Site.ofStatement ·.1))) :
    Uses (statements.flatMap fun statement =>
        (Site.ofStatement statement.1).flatMap (·.importWrites imports))
      (statements.foldlM (useOne tree imports) start) := by
  induction statements generalizing start with
  | nil => exact .toEnd rfl
  | cons statement others ih =>
      obtain ⟨⟨statement, kind⟩, defines⟩ := statement
      obtain ⟨seen, usages⟩ := start
      rw [Usage.scopesFrom, List.map_cons] at hstands
      rw [List.foldlM_cons, List.flatMap_cons, useOne]
      dsimp only at hstands ⊢
      cases himport : kind.isImport with
      | true =>
          simp only [himport, if_true] at hstands ⊢
          rw [Site.ofStatement, himport, if_pos rfl]
          exact ih (List.forall₂_cons.mp hstands).2
      | false =>
          simp only [himport, Bool.false_eq_true, if_false] at hstands ⊢
          obtain ⟨hfirst, hrest⟩ := List.forall₂_cons.mp hstands
          rw [Site.ofStatement, himport, if_neg Bool.false_ne_true] at hfirst ⊢
          have hwrite := Usage.illegalWrite_visit_sites statement none false
            ScopeTree.root [] (hfirst.imp fun _ _ h => h.sees hordered)
          rw [← Usage.visit_eq_walk, Option.none_or] at hwrite
          rw [Usage.visitStatement] at hrest ⊢
          rw [hwrite]
          generalize (statement.sites none false []).flatMap
            (·.importWrites imports) = written
          cases written with
          | nil => exact ih hrest
          | cons first written => exact .upTo rfl

theorem uses_useAll (imports : List String)
    (statements : List (Node × StatementKind)) :
    Uses (statements.flatMap fun statement =>
        (Site.ofStatement statement).flatMap (·.importWrites imports))
      (useAll (declareAll statements).1 imports
        (statements.zip (declareAll statements).2)) := by
  have hlength : (declareAll statements).2.length = statements.length := by
    rw [declareAll_eq, length_declareFrom]
  have hfirst : (statements.zip (declareAll statements).2).map (·.1) =
      statements := List.map_fst_zip (Nat.le_of_eq hlength.symm)
  have hsites : (statements.zip (declareAll statements).2).map
      (Site.ofStatement ·.1) = statements.map Site.ofStatement := by
    conv_rhs => rw [← hfirst, List.map_map]
    rfl
  have hstands := stands_declareAll statements
  rw [(entersAlike statements imports).scopes, ← hsites] at hstands
  have hordered := Declarations.isOrdered_declareAll statements
  have huses : Uses ((statements.zip (declareAll statements).2).flatMap
        fun statement => (Site.ofStatement statement.1).flatMap
          (·.importWrites imports))
      ((statements.zip (declareAll statements).2).foldlM
        (useOne (declareAll statements).1 imports) (0, [])) :=
    uses_from hordered hstands
  have hall : (statements.zip (declareAll statements).2).flatMap
      (fun statement => (Site.ofStatement statement.1).flatMap
        (·.importWrites imports)) = statements.flatMap fun statement =>
          (Site.ofStatement statement).flatMap (·.importWrites imports) := by
    conv_rhs => rw [← hfirst, List.flatMap_map]
  rw [hall] at huses
  rw [useAll_eq]
  generalize (statements.zip (declareAll statements).2).foldlM
    (useOne (declareAll statements).1 imports) (0, []) = outcome at huses ⊢
  cases huses with
  | toEnd hnone => exact .toEnd hnone
  | upTo hfirst => exact .upTo hfirst

end Analysis

end Bundler
