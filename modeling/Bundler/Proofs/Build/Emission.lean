import Bundler.Proofs.Analysis.Definers
import Bundler.Proofs.Build.Kept
import Bundler.Proofs.Build.ReadBack

/-!
# Emission of what is included

A bundle can be written in one pass: the included statements are sorted by the
places of their modules and their numbers, and each module in turn takes from the
front what is its own.  Such a pass drops all that is left as soon as one
statement belongs to no module that is still to come.  Since all that is included
lies with a listed module, nothing is left in the end, and the pass writes what
the modules write one by one.  Since the imports that kept statements read were
found, only an import that a statement declares itself can stop the pass.
-/

namespace Bundler

namespace Bundle

/-- The place of a path among those of modules; one that is not there comes
last. -/
def rank (modules : List Module) (path : Path) : Nat :=
  (modules.map (·.path)).idxOf path

/-- Whether a statement may stand before another one. -/
def ranksBefore (modules : List Module) (left right : StatementId) : Bool :=
  rank modules left.1 < rank modules right.1 ||
    (rank modules left.1 = rank modules right.1 && left.2 ≤ right.2)

/-- Statements sorted by the places of their modules and by their numbers. -/
def ranked (modules : List Module) (included : List StatementId) :
    List StatementId :=
  included.mergeSort (ranksBefore modules)

section Pass

variable (bundle : Bundle)

/-- Writes the statements of a module from the front of a list, and gives what
is left of the list. -/
def writeOwn (module : Module) :
    List StatementId → Except BundleError (List Chunk × List StatementId)
  | [] => .ok ([], [])
  | statement :: included =>
      if statement.1 = module.path then
        match module.statements[statement.2]? with
        | none => writeOwn module included
        | some found =>
            if found.kind.isModuleSyntax then writeOwn module included
            else do
              let chunk ← bundle.statementChunk module found
              let (chunks, rest) ← writeOwn module included
              return (chunk :: chunks, rest)
      else .ok ([], statement :: included)

/-- Writes modules one after the other, each with what is its own at the front
of a list of statements, and gives what is left in the end. -/
def writePass :
    List Module → List StatementId →
      Except BundleError (List Chunk × List StatementId)
  | [], included => .ok ([], included)
  | module :: modules, included => do
      let (statements, rest) ← bundle.writeOwn module included
      let objects :=
        (bundle.namespaces.find? (·.1 = module.path)).toList.map
          fun (_, exports) => bundle.namespaceChunk module exports
      let (others, left) ← writePass modules rest
      return (statements ++ objects ++ others, left)

end Pass

section Sorting

variable {modules : List Module} {included : List StatementId}

/-- Modules stand at ascending places. -/
theorem pairwise_rank (honce : (modules.map (·.path)).Nodup) :
    modules.Pairwise fun left right =>
      rank modules left.path < rank modules right.path := by
  have hpaths : (modules.map (·.path)).Pairwise fun left right =>
      rank modules left < rank modules right := by
    rw [List.pairwise_iff_getElem]
    intro first second hfirst hsecond hless
    rw [rank, rank, honce.idxOf_getElem, honce.idxOf_getElem]
    exact hless
  rw [List.pairwise_map] at hpaths
  exact hpaths

theorem ranksBefore_trans (first second third : StatementId)
    (hfirst : ranksBefore modules first second = true)
    (hsecond : ranksBefore modules second third = true) :
    ranksBefore modules first third = true := by
  simp only [ranksBefore, Bool.or_eq_true, Bool.and_eq_true,
    decide_eq_true_eq] at *
  omega

theorem ranksBefore_total (left right : StatementId) :
    (ranksBefore modules left right || ranksBefore modules right left) =
      true := by
  simp only [ranksBefore, Bool.or_eq_true, Bool.and_eq_true,
    decide_eq_true_eq]
  omega

/-- Statements of listed modules that may stand on either side of each other are
the same. -/
theorem ranksBefore_antisymm {left right : StatementId}
    (hlisted : left.1 ∈ modules.map (·.path))
    (hleft : ranksBefore modules left right = true)
    (hright : ranksBefore modules right left = true) : left = right := by
  simp only [ranksBefore, Bool.or_eq_true, Bool.and_eq_true,
    decide_eq_true_eq] at hleft hright
  have hrank : rank modules left.1 = rank modules right.1 := by omega
  have hnumber : left.2 = right.2 := by omega
  exact Prod.ext ((List.idxOf_inj hlisted).mp hrank) hnumber

/-- Statements in the order of a bundle are sorted. -/
theorem pairwise_ranksBefore (hnodup : included.Nodup)
    (honce : (modules.map (·.path)).Nodup) :
    (inOrder modules included).Pairwise fun left right =>
      ranksBefore modules left right = true := by
  rw [inOrder, List.pairwise_flatMap]
  constructor
  · intro module _
    rw [List.pairwise_map]
    refine (keptIn_ascending hnodup module).imp ?_
    intro left right hless
    simp [ranksBefore, Nat.le_of_lt hless]
  · refine (pairwise_rank honce).imp ?_
    intro left right hless first hfirst second hsecond
    obtain ⟨_, _, rfl⟩ := List.mem_map.mp hfirst
    obtain ⟨_, _, rfl⟩ := List.mem_map.mp hsecond
    simp [ranksBefore, hless]

end Sorting

section Writing

variable {bundle : Bundle} {module : Module} {modules : List Module}
  {included : List StatementId}

/-- A module takes all statements of its own from the front, and no other. -/
theorem writeOwn_append (numbers : List Nat) {rest : List StatementId}
    (hrest : ∀ statement ∈ rest, statement.1 ≠ module.path) :
    bundle.writeOwn module (numbers.map (module.path, ·) ++ rest) =
      (((numbers.filterMap (module.statements[·]?)).filter
        (!·.kind.isModuleSyntax)).mapM (bundle.statementChunk module)).map
          (·, rest) := by
  induction numbers with
  | nil =>
      cases rest with
      | nil => rfl
      | cons statement rest =>
          have hother := hrest statement List.mem_cons_self
          rw [List.map_nil, List.nil_append, writeOwn, if_neg hother]
          rfl
  | cons number numbers ih =>
      rw [List.map_cons, List.cons_append, writeOwn, if_pos rfl]
      cases hfound : module.statements[number]? with
      | none => simp [hfound, ih]
      | some found =>
          cases hisSyntax : found.kind.isModuleSyntax with
          | true => simp [hfound, hisSyntax, ih]
          | false =>
              rw [List.filterMap_cons_some hfound, List.filter_cons_of_pos
                (by simp [hisSyntax]), List.mapM_cons]
              simp only [hisSyntax, Bool.false_eq_true, if_false, ih]
              cases bundle.statementChunk module found with
              | error failure => rfl
              | ok chunk =>
                  cases (((numbers.filterMap (module.statements[·]?)).filter
                    (!·.kind.isModuleSyntax)).mapM
                      (bundle.statementChunk module)) with
                  | error failure => rfl
                  | ok chunks => rfl

/-- The chunks of a module are those of its own statements and its object. -/
theorem moduleChunks_eq (bundle : Bundle) (module : Module) :
    bundle.moduleChunks module =
      ((((keptIn bundle.statements module).filterMap
        (module.statements[·]?)).filter
          (!·.kind.isModuleSyntax)).mapM (bundle.statementChunk module)).map
            (· ++ (bundle.namespaces.find? (·.1 = module.path)).toList.map
              fun (_, exports) => bundle.namespaceChunk module exports) := by
  rw [moduleChunks]
  cases (((keptIn bundle.statements module).filterMap
      (module.statements[·]?)).filter (!·.kind.isModuleSyntax)).mapM
        (bundle.statementChunk module) with
  | error failure => rfl
  | ok statements =>
      cases bundle.namespaces.find? (·.1 = module.path) with
      | none => exact congrArg Except.ok (List.append_nil statements).symm
      | some entry => rfl

/-- One pass over statements in order writes the modules one by one and leaves
nothing. -/
theorem writePass_inOrder (honce : (modules.map (·.path)).Nodup)
    (hkept : ∀ module ∈ modules,
      keptIn bundle.statements module = keptIn included module) :
    bundle.writePass modules (inOrder modules included) =
      (modules.mapM bundle.moduleChunks).map (·.flatten, []) := by
  induction modules with
  | nil => rfl
  | cons module modules ih =>
      rw [List.map_cons, List.nodup_cons] at honce
      have hrest : ∀ statement ∈ inOrder modules included,
          statement.1 ≠ module.path := by
        intro statement hstatement hpath
        simp only [inOrder, List.mem_flatMap, List.mem_map] at hstatement
        obtain ⟨other, hother, _, _, rfl⟩ := hstatement
        exact honce.1 (List.mem_map.mpr ⟨other, hother, hpath⟩)
      have hothers := ih honce.2 fun other hother =>
        hkept other (List.mem_cons_of_mem module hother)
      have hsplit : inOrder (module :: modules) included =
          (keptIn included module).map (module.path, ·) ++
            inOrder modules included := List.flatMap_cons
      rw [hsplit, writePass, writeOwn_append _ hrest, List.mapM_cons,
        moduleChunks_eq, hkept module List.mem_cons_self]
      cases (((keptIn included module).filterMap
          (module.statements[·]?)).filter (!·.kind.isModuleSyntax)).mapM
            (bundle.statementChunk module) with
      | error failure => rfl
      | ok statements =>
          dsimp only [Except.map, bind, Except.bind]
          rw [hothers]
          cases modules.mapM bundle.moduleChunks with
          | error failure => rfl
          | ok chunks => rfl

end Writing

section Contents

variable {bundle : Bundle} {module : Module} {shaker : Shaker}

/-- Chunks are those of a module: one for each included statement that is no
module syntax, in ascending order of their numbers, and then one for the object
of its exports just if that is used. -/
def IsContent (bundle : Bundle) (shaker : Shaker) (module : Module)
    (chunks : List Chunk) : Prop :=
  ∃ (visible : List Nat) (texts : List Chunk),
    visible.Pairwise (· < ·) ∧
    (∀ id, id ∈ visible ↔ (module.path, id) ∈ shaker.included ∧
      ∃ statement, module.statements[id]? = some statement ∧
        statement.kind.isModuleSyntax = false) ∧
    List.Forall₂ (fun id text => ∃ statement,
      module.statements[id]? = some statement ∧
        bundle.statementChunk module statement = .ok text) visible texts ∧
    ((∃ exports, (module.path, exports) ∈ shaker.namespaces ∧
        chunks = texts ++ [bundle.namespaceChunk module exports]) ∨
      (∀ entry ∈ shaker.namespaces, entry.1 ≠ module.path) ∧ chunks = texts)

/-- Statements that are found and pass a test are mapped one by one. -/
theorem forall₂_of_mapM {ε α β : Type} {values : List α} {test : α → Bool}
    {action : α → Except ε β} {numbers : List Nat} {results : List β}
    (hmap : ((numbers.filterMap (values[·]?)).filter test).mapM action =
      .ok results) :
    List.Forall₂ (fun id result => ∃ value, values[id]? = some value ∧
        action value = .ok result)
      (numbers.filter fun id => values[id]?.any test) results := by
  induction numbers generalizing results with
  | nil =>
      obtain rfl := Except.ok.inj hmap
      exact .nil
  | cons number numbers ih =>
      cases hfound : values[number]? with
      | none =>
          rw [List.filterMap_cons_none hfound] at hmap
          rw [List.filter_cons_of_neg (by simp [hfound])]
          exact ih hmap
      | some value =>
          rw [List.filterMap_cons_some hfound] at hmap
          cases htest : test value with
          | false =>
              rw [List.filter_cons_of_neg (by simp [htest])] at hmap
              rw [List.filter_cons_of_neg (by simp [hfound, htest])]
              exact ih hmap
          | true =>
              rw [List.filter_cons_of_pos htest, List.mapM_cons] at hmap
              rw [List.filter_cons_of_pos (by simp [hfound, htest])]
              obtain ⟨result, hresult, hmap⟩ := Except.bind_eq_ok_iff.mp hmap
              obtain ⟨others, hothers, hmap⟩ := Except.bind_eq_ok_iff.mp hmap
              obtain rfl := Except.ok.inj hmap
              exact .cons ⟨value, hfound, hresult⟩ (ih hothers)

theorem isContent_moduleChunks {chunks : List Chunk}
    (hnodup : shaker.included.Nodup)
    (hkept : keptIn bundle.statements module = keptIn shaker.included module)
    (hnamespaces : bundle.namespaces = shaker.namespaces)
    (hchunks : bundle.moduleChunks module = .ok chunks) :
    bundle.IsContent shaker module chunks := by
  rw [moduleChunks_eq, hkept, hnamespaces] at hchunks
  obtain ⟨texts, htexts, rfl⟩ := Except.map_eq_ok_iff.mp hchunks
  refine ⟨(keptIn shaker.included module).filter fun id =>
    module.statements[id]?.any (!·.kind.isModuleSyntax), texts,
    (keptIn_ascending hnodup module).filter _, fun id => ?_,
    forall₂_of_mapM htexts, ?_⟩
  · rw [List.mem_filter, mem_keptIn]
    simp [Option.any_eq_true]
  · cases hfind : shaker.namespaces.find? (·.1 = module.path) with
    | none =>
        refine .inr ⟨fun entry hentry => ?_, List.append_nil texts⟩
        simpa using List.find?_eq_none.mp hfind entry hentry
    | some entry =>
        obtain ⟨path, exports⟩ := entry
        have hpath : path = module.path := by
          simpa using List.find?_some hfind
        exact .inl ⟨exports, hpath ▸ List.mem_of_find?_eq_some hfind, rfl⟩

end Contents

section Assembled

variable {bundle : Bundle} {entry : Module} {walk : ModuleWalk}
  {shaker : Shaker} (hfaithful : bundle.loader.IsFaithful)
  (hassembled : bundle.IsAssembled entry walk shaker)
include hfaithful hassembled

theorem IsAssembled.keptIn_statements {module : Module}
    (hmodule : module ∈ bundle.modules) :
    keptIn bundle.statements module = keptIn shaker.included module := by
  have honce := (hassembled.isPostorder hfaithful).once
  rw [hassembled.modules] at honce hmodule
  rw [hassembled.statements]
  exact keptIn_inOrder (hassembled.isSound hfaithful).nodup honce hmodule

/-- Sorting what is included gives the statements of a bundle. -/
theorem IsAssembled.ranked_included :
    ranked bundle.modules shaker.included = bundle.statements := by
  have honce := (hassembled.isPostorder hfaithful).once
  have hnodup := (hassembled.isSound hfaithful).nodup
  have hantisymm : ∀ left right,
      left ∈ ranked bundle.modules shaker.included →
      right ∈ bundle.statements →
      ranksBefore bundle.modules left right = true →
      ranksBefore bundle.modules right left = true → left = right := by
    intro left right hleft _ hbefore hafter
    have hincluded : left ∈ shaker.included := List.mem_mergeSort.mp hleft
    obtain ⟨module, hmodule, hpath, _⟩ :=
      hassembled.module_of_included hfaithful hincluded
    exact ranksBefore_antisymm (List.mem_map.mpr ⟨module, hmodule, hpath⟩)
      hbefore hafter
  refine List.Perm.eq_of_pairwise hantisymm ?_ ?_ ?_
  · exact List.pairwise_mergeSort ranksBefore_trans ranksBefore_total _
  · rw [hassembled.statements, ← hassembled.modules]
    exact pairwise_ranksBefore hnodup honce
  · exact (List.mergeSort_perm _ _).trans
      (hassembled.statements_perm hfaithful).symm

/-- The pass over the sorted statements reaches its end and writes the chunks of
the bundle. -/
theorem IsAssembled.writePass_ranked :
    bundle.writePass bundle.modules (ranked bundle.modules shaker.included) =
      bundle.chunks.map (·, []) := by
  have hpass : bundle.writePass bundle.modules
      (inOrder bundle.modules shaker.included) =
      (bundle.modules.mapM bundle.moduleChunks).map (·.flatten, []) :=
    writePass_inOrder (hassembled.isPostorder hfaithful).once
      fun _ hmodule => hassembled.keptIn_statements hfaithful hmodule
  rw [hassembled.ranked_included hfaithful, hassembled.statements,
    ← hassembled.modules, hpass, chunks]
  cases bundle.modules.mapM bundle.moduleChunks <;> rfl

end Assembled

section Writable

variable {bundle : Bundle} {module : Module}

/-- A name of a module that can be written. -/
def IsWritable (bundle : Bundle) (module : Module) (name : String) : Prop :=
  ∃ written, bundle.writtenName module name = .ok written

theorem exists_replacements_eq_ok {references : List Reference}
    (hwritable : ∀ reference ∈ references,
      bundle.IsWritable module reference.name) (start stop : Nat) :
    ∃ found, bundle.replacements module start stop references =
      .ok found := by
  induction references generalizing start with
  | nil => exact ⟨[], rfl⟩
  | cons reference others ih =>
      obtain ⟨written, hwritten⟩ := hwritable reference List.mem_cons_self
      have hothers := ih fun other hother =>
        hwritable other (List.mem_cons_of_mem reference hother)
      rw [replacements]
      split
      · exact hothers start
      · simp only [Except.bind_eq_ok_iff]
        by_cases hsame : written = reference.name
        · obtain ⟨found, hfound⟩ := hothers start
          exact ⟨found, written, hwritten, (if_pos hsame).trans hfound⟩
        · obtain ⟨found, hfound⟩ := hothers reference.span.stop
          refine ⟨⟨reference, written⟩ :: found, written, hwritten, ?_⟩
          rw [if_neg hsame, hfound]
          rfl

/-- A statement can be written if all its references can. -/
theorem exists_statementChunk_eq_ok {statement : Statement}
    (hwritable : ∀ reference ∈ statement.references,
      bundle.IsWritable module reference.name) :
    ∃ chunk, bundle.statementChunk module statement = .ok chunk := by
  obtain ⟨found, hfound⟩ := exists_replacements_eq_ok hwritable
    (keptStart statement) statement.span.stop
  obtain ⟨text, htext⟩ : ∃ text,
      bundle.statementText module statement = .ok text := by
    rw [statementText]
    dsimp only
    rw [hfound]
    cases statement.kind.isDefaultValue with
    | true => exact ⟨_, rfl⟩
    | false => exact ⟨_, rfl⟩
  rw [statementChunk, htext]
  exact ⟨_, rfl⟩

/-- A bundle can be written if all references of its statements can. -/
theorem exists_generate_eq_ok
    (hwritable : ∀ module ∈ bundle.modules, ∀ id statement,
      (module.path, id) ∈ bundle.statements →
      module.statements[id]? = some statement →
      ∀ reference ∈ statement.references,
        bundle.IsWritable module reference.name) :
    ∃ output, bundle.generate = .ok output := by
  have hmodules : ∀ module ∈ bundle.modules,
      ∃ chunks, bundle.moduleChunks module = .ok chunks := by
    intro module hmodule
    obtain ⟨texts, htexts⟩ : ∃ texts,
        (((keptIn bundle.statements module).filterMap
          (module.statements[·]?)).filter (!·.kind.isModuleSyntax)).mapM
            (bundle.statementChunk module) = .ok texts := by
      apply Except.exists_mapM_eq_ok
      intro statement hstatement
      obtain ⟨id, hkept, hfound⟩ :=
        List.mem_filterMap.mp (List.mem_of_mem_filter hstatement)
      exact exists_statementChunk_eq_ok
        (hwritable module hmodule id statement (mem_keptIn.mp hkept) hfound)
    rw [moduleChunks_eq, htexts]
    exact ⟨_, rfl⟩
  obtain ⟨parts, hparts⟩ := Except.exists_mapM_eq_ok hmodules
  rw [generate, hparts]
  exact ⟨_, rfl⟩

/-- What a kept statement refers to can be written, if it declares no import that
leads nowhere. -/
theorem IsAssembled.isWritable {entry : Module} {walk : ModuleWalk}
    {shaker : Shaker} (hfaithful : bundle.loader.IsFaithful)
    (hassembled : bundle.IsAssembled entry walk shaker)
    (hmodule : module ∈ bundle.modules) {id : Nat} {statement : Statement}
    (hkept : (module.path, id) ∈ bundle.statements)
    (hstatement : module.statements[id]? = some statement)
    (hdeclared : ∀ name ∈ statement.defines,
      module.imports.contains name = true →
        ∃ binding, bundle.loader.resolveName module name = .ok binding)
    {reference : Reference} (hreference : reference ∈ statement.references) :
    bundle.IsWritable module reference.name := by
  have hloaded := hassembled.module_loaded hfaithful hmodule
  rw [IsWritable, writtenName]
  cases himport : module.imports.contains reference.name with
  | false => exact ⟨_, rfl⟩
  | true =>
      obtain ⟨binding, hresolve⟩ : ∃ binding,
          bundle.loader.resolveName module reference.name = .ok binding := by
        rcases Module.reads_or_declares hfaithful hloaded
          (List.mem_of_getElem? hstatement) hreference with hreads | hdeclares
        · have hincluded : (module.path, id) ∈ shaker.included := by
            rw [hassembled.modules] at hmodule
            rwa [hassembled.statements, mem_inOrder hmodule] at hkept
          exact (hassembled.isSound hfaithful).found _ hincluded hloaded
            hstatement hreads himport
        · exact hdeclared _ hdeclares himport
      rw [Bool.not_true, if_neg Bool.false_ne_true, hresolve]
      split <;> exact ⟨_, rfl⟩

end Writable

/-- The text of a bundle is its chunks, joined, and a line break behind the last
one. -/
theorem generate_code {bundle : Bundle} {output : Output}
    (hgenerate : bundle.generate = .ok output) :
    ∃ parts, bundle.modules.mapM bundle.moduleChunks = .ok parts ∧
      output.code = String.ofList (bundle.join parts.flatten ++
        if (bundle.join parts.flatten).isEmpty then [] else ['\n']) := by
  rw [generate] at hgenerate
  obtain ⟨parts, hparts, hgenerate⟩ := Except.bind_eq_ok_iff.mp hgenerate
  obtain rfl := Except.ok.inj hgenerate
  refine ⟨parts, hparts, congrArg String.ofList ?_⟩
  split <;> simp

/-- All that shaking includes is written, once: every included statement and
every module whose object is used is one of a module of the bundle, one pass over
the sorted statements reaches its end, and the text consists of the contents of
the modules in their order.  The text can be written unless a kept statement
declares a name that its module also imports, and the import leads nowhere. -/
theorem emits_included {files : Files} {resolver : Resolver}
    {options : BundleOptions} {path : Path} {bundle : Bundle}
    (hbuild : build files resolver options path = .ok bundle) :
    ∃ entry shaker, bundle.loader.module bundle.entry = .ok entry ∧
      Shaking.shake bundle.loader entry options.exports (.ofNames .initial) =
        .ok bundle.exports shaker ∧
      (bundle.modules.map (·.path)).Nodup ∧
      (∀ statement ∈ shaker.included, ∃ module ∈ bundle.modules,
        module.path = statement.1 ∧
          statement.2 < module.statements.length) ∧
      (∀ object ∈ shaker.namespaces, ∃ module ∈ bundle.modules,
        module.path = object.1) ∧
      bundle.writePass bundle.modules
          (ranked bundle.modules shaker.included) =
        bundle.chunks.map (·, []) ∧
      (∀ output, bundle.generate = .ok output → ∃ parts,
        bundle.chunks = .ok parts.flatten ∧
        List.Forall₂ (bundle.IsContent shaker) bundle.modules parts ∧
        output.code = String.ofList (bundle.join parts.flatten ++
          if (bundle.join parts.flatten).isEmpty then [] else ['\n'])) ∧
      ((∀ module ∈ bundle.modules, ∀ id statement,
          (module.path, id) ∈ bundle.statements →
          module.statements[id]? = some statement →
          ∀ name ∈ statement.defines,
            module.imports.contains name = true →
              ∃ binding,
                bundle.loader.resolveName module name = .ok binding) →
        ∃ output, bundle.generate = .ok output) := by
  obtain ⟨hreachable, hoptions, entry, walk, shaker, hassembled⟩ :=
    build_eq_ok hbuild
  have hfaithful := hreachable.isFaithful
  have hnodup := (hassembled.isSound hfaithful).nodup
  refine ⟨entry, shaker, hassembled.path ▸ hassembled.loaded,
    hoptions ▸ hassembled.shaken, (hassembled.isPostorder hfaithful).once,
    fun _ => hassembled.module_of_included hfaithful, ?_,
    hassembled.writePass_ranked hfaithful, ?_, ?_⟩
  · intro object hobject
    have hmet : shaker.Met (.exportsOf object.1) :=
      List.mem_map.mpr ⟨object, hobject, rfl⟩
    exact hassembled.module_of_met hfaithful hmet
  · intro output hgenerate
    obtain ⟨parts, hparts, hcode⟩ := generate_code hgenerate
    refine ⟨parts, by rw [chunks, hparts]; rfl, ?_, hcode⟩
    have hmodules := Except.mapM_eq_ok_iff.mp hparts
    rw [List.forall₂_iff_zip] at hmodules ⊢
    refine ⟨hmodules.1, fun hpair => ?_⟩
    exact isContent_moduleChunks hnodup
      (hassembled.keptIn_statements hfaithful (List.of_mem_zip hpair).1)
      hassembled.namespaces (hmodules.2 hpair)
  · intro hdeclared
    apply exists_generate_eq_ok
    intro module hmodule id statement hkept hstatement reference hreference
    exact hassembled.isWritable hfaithful hmodule hkept hstatement
      (hdeclared module hmodule id statement hkept hstatement) hreference

/-- Two modules in a circle, of which one uses the exports of the other as an
object. -/
def circularObject : Files := .ofList
  [(⟨"/a.js"⟩, "import * as b from './b';\nexport default b();"),
   (⟨"/b.js"⟩, "import './a';\nexport function y() \x7b\x7d")]

/-- Their statements and the object are written in one pass. -/
theorem emits_included_circular :
    ∃ bundle, build circularObject .plain .standard ⟨"/a.js"⟩ = .ok bundle ∧
      ∃ (output : Output) (chunks : List Chunk) (shaker : Shaker),
        bundle.generate = .ok output ∧
        output.code = "function y() \x7b\x7d\nvar b = \x7b\n" ++
          "  get y () \x7b return y; \x7d\n\x7d;\nvar a = b();\n" ∧
        bundle.chunks = .ok chunks ∧
        bundle.writePass bundle.modules
          (ranked bundle.modules shaker.included) = .ok (chunks, []) := by
  have hfacts : ((build circularObject .plain .standard
      ⟨"/a.js"⟩).toOption.any fun bundle =>
        bundle.generate.toOption.any fun output =>
          decide (output.code = "function y() \x7b\x7d\nvar b = \x7b\n" ++
            "  get y () \x7b return y; \x7d\n\x7d;\nvar a = b();\n")) =
        true := by
    decide +kernel
  obtain ⟨bundle, hbuild, hfacts⟩ := Except.exists_of_any_toOption hfacts
  obtain ⟨output, hgenerate, hcode⟩ := Except.exists_of_any_toOption hfacts
  obtain ⟨_, shaker, _, _, _, _, _, hpass, hcontents⟩ := emits_included hbuild
  obtain ⟨parts, hchunks, _, _⟩ := hcontents.1 output hgenerate
  rw [hchunks] at hpass
  exact ⟨bundle, hbuild, output, parts.flatten, shaker, hgenerate,
    of_decide_eq_true hcode, hchunks, hpass⟩

end Bundle

end Bundler
