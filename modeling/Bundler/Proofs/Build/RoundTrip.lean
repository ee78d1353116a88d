import Bundler.Proofs.Build.Alone
import Bundler.Proofs.Build.Blocks
import Bundler.Proofs.Build.Emission
import Bundler.Proofs.Parser.Comments

/-!
# Modules that are given back

Bundling a module that is laid out in blocks gives its source back.  Its
statements are written as their source has them, since no name is renamed, and
what stands between them is found to be what it was, as long as the comments
listed outside of the statements are those of the blocks.
-/

namespace Bundler

namespace Bundle

variable {bundle : Bundle} {module : Module} {statement : Statement}

section Text

variable (himports : ∀ name, module.imports.contains name = false)
  (hwritten : ∀ reference ∈ statement.references,
    bundle.names.written module.path reference.name = reference.name)
include himports hwritten

/-- Where no name is written differently, nothing is replaced. -/
theorem replacements_eq_nil (start stop : Nat) {references : List Reference}
    (hreferences : references ⊆ statement.references) :
    bundle.replacements module start stop references = .ok [] := by
  induction references with
  | nil => rfl
  | cons reference others ih =>
      obtain ⟨hfirst, hothers⟩ := List.cons_subset.mp hreferences
      rw [replacements]
      split
      · exact ih hothers
      · have hname : bundle.writtenName module reference.name =
            .ok reference.name := by
          rw [writtenName, himports, hwritten reference hfirst]
          rfl
        simp only [hname, bind, Except.bind, if_true]
        exact ih hothers

/-- A plain statement is written as its source has it, with its comments. -/
theorem statementChunk_plain (hcomments : bundle.options.comments = true)
    (hkind : statement.kind = .plain) :
    bundle.statementChunk module statement =
      .ok (statement.layout.chunk module.path module.source.toList
        (Text.slice module.source.toList statement.span)) := by
  have htext : bundle.statementText module statement =
      .ok (Text.slice module.source.toList statement.span) := by
    rw [statementText, keptStart, hkind]
    dsimp only
    rw [replacements_eq_nil himports hwritten _ _ (List.Subset.refl _)]
    rfl
  rw [statementChunk, htext, hcomments]
  rfl

end Text

/-- If all statements of a module are kept, they are numbered through. -/
theorem keptIn_eq_range {entry : Module} {walk : ModuleWalk} {shaker : Shaker}
    (hfaithful : bundle.loader.IsFaithful)
    (hassembled : bundle.IsAssembled entry walk shaker)
    (hmodules : bundle.modules = [module])
    (hall : ∀ id < module.statements.length,
      (module.path, id) ∈ bundle.statements) :
    keptIn bundle.statements module =
      List.range module.statements.length := by
  have hperm := hassembled.statements_perm hfaithful
  have hnodup : bundle.statements.Nodup :=
    hperm.nodup_iff.mpr (hassembled.isSound hfaithful).nodup
  refine List.Pairwise.eq_of_mem_iff (keptIn_ascending hnodup module)
    List.pairwise_lt_range fun id => ?_
  rw [mem_keptIn, List.mem_range]
  refine ⟨fun hkept => ?_, hall id⟩
  obtain ⟨other, hother, _, hid⟩ :=
    hassembled.module_of_included hfaithful (hperm.mem_iff.mp hkept)
  rw [hmodules, List.mem_singleton] at hother
  rwa [hother] at hid

theorem filterMap_range {α : Type} (values : List α) :
    (List.range values.length).filterMap (values[·]?) = values := by
  induction values with
  | nil => rfl
  | cons value values ih =>
      rw [List.length_cons, List.range_succ_eq_map, List.filterMap_cons,
        List.filterMap_map]
      exact congrArg (value :: ·) ih

/-- The chunks of a module of plain statements that are all kept. -/
theorem moduleChunks_plain (hplain : module.IsPlain)
    (hkept : keptIn bundle.statements module =
      List.range module.statements.length)
    (hnamespaces : bundle.namespaces = [])
    (hcomments : bundle.options.comments = true)
    (hwritten : ∀ statement ∈ module.statements,
      ∀ reference ∈ statement.references,
        bundle.names.written module.path reference.name = reference.name) :
    bundle.moduleChunks module = .ok (module.statements.map fun statement =>
      statement.layout.chunk module.path module.source.toList
        (Text.slice module.source.toList statement.span)) := by
  have hvisible : ((List.range module.statements.length).filterMap
      (module.statements[·]?)).filter (!·.kind.isModuleSyntax) =
        module.statements := by
    rw [filterMap_range]
    refine List.filter_eq_self.mpr fun statement hstatement => ?_
    rw [hplain.kinds statement hstatement]
    rfl
  have hchunks : module.statements.mapM (bundle.statementChunk module) =
      .ok (module.statements.map fun statement =>
        statement.layout.chunk module.path module.source.toList
          (Text.slice module.source.toList statement.span)) := by
    refine Except.mapM_eq_ok_iff.mpr (List.forall₂_map_right_iff.mpr
      (List.forall₂_same.mpr fun statement hstatement => ?_))
    exact statementChunk_plain hplain.contains_imports
      (hwritten statement hstatement) hcomments
      (hplain.kinds statement hstatement)
  rw [moduleChunks_eq, hkept, hvisible, hchunks, hnamespaces]
  exact congrArg Except.ok (List.append_nil _)

/-- The text of a bundle of one module is its chunks. -/
theorem generate_alone {chunks : List Chunk}
    (hmodules : bundle.modules = [module])
    (hchunks : bundle.moduleChunks module = .ok chunks) :
    ∃ output, bundle.generate = .ok output ∧
      output.code = String.ofList (bundle.join chunks ++
        if (bundle.join chunks).isEmpty then [] else ['\n']) := by
  have hparts : bundle.modules.mapM bundle.moduleChunks = .ok [chunks] := by
    rw [hmodules, List.mapM_cons, hchunks]
    rfl
  obtain ⟨output, houtput⟩ : ∃ output, bundle.generate = .ok output := by
    rw [generate, hparts]
    exact ⟨_, rfl⟩
  obtain ⟨parts, hfound, hcode⟩ := generate_code houtput
  rw [hparts] at hfound
  obtain rfl := Except.ok.inj hfound
  refine ⟨output, houtput, ?_⟩
  rw [hcode, List.flatten_singleton]

end Bundle

namespace Block

variable {source : String} {program : Program} {blocks : List Block}

/-- The comments of a program are listed in order. -/
theorem inOrder_comments (hparse : Program.parse source = .ok program) :
    InOrder program.comments := by
  obtain ⟨_, hlists⟩ := Program.exists_lists_of_parse hparse
  exact ⟨hlists.sorted, fun comment hcomment =>
    ((hlists.written comment hcomment).start_of_mem
      (List.mem_singleton_self comment)).2⟩

/-- A line feed is no statement. -/
theorem source_ne_lineFeed (hparse : Program.parse source = .ok program)
    (hsource : source.toList = Block.source blocks)
    (hplaces : program.statements.map (·.span) = places blocks)
    (hsome : blocks ≠ []) : Block.source blocks ≠ ['\n'] := by
  intro hlineFeed
  have hempty : (Program.parse "\n").toOption.any
      (·.statements.isEmpty) = true := by decide +kernel
  obtain ⟨found, hfound, hnone⟩ := Except.exists_of_any_toOption hempty
  have hsame : source = "\n" := by
    rw [← String.toList_inj, hsource, hlineFeed]
    rfl
  rw [← hsame, hparse] at hfound
  obtain rfl := Except.ok.inj hfound
  rw [List.isEmpty_iff.mp hnone] at hplaces
  cases blocks with
  | nil => exact hsome rfl
  | cons block others => cases hplaces

/-- There is a line feed behind what is joined, if that is not empty. -/
theorem source_eq_of_join {code : List Char}
    (hparse : Program.parse source = .ok program)
    (hsource : source.toList = Block.source blocks)
    (hplaces : program.statements.map (·.span) = places blocks)
    (hjoin : Block.source blocks =
      if blocks.isEmpty then code else code ++ ['\n']) :
    source.toList = code ++ if code.isEmpty then [] else ['\n'] := by
  rw [hsource]
  cases blocks with
  | nil =>
      obtain rfl : [] = code := hjoin
      rfl
  | cons block others =>
      have hlineFeed := source_ne_lineFeed hparse hsource hplaces
        (List.cons_ne_nil block others)
      rw [List.isEmpty_cons, if_neg Bool.false_ne_true] at hjoin
      cases code with
      | nil => exact absurd hjoin hlineFeed
      | cons c cs => exact hjoin

end Block

namespace Bundle

variable {files : Files} {resolver : Resolver} {options : BundleOptions}
  {path : Path} {source : String} {program : Program} {blocks : List Block}

/-- The statements of a source one after the other, each with its layout. -/
def plainChunks (path : Path) (source : String) (program : Program) :
    List Chunk :=
  let spans := program.statements.map (·.span)
  List.zipWith (Layout.chunk path source.toList)
    (spans.map (Text.slice source.toList))
    (Layout.ofStatements source.toList spans program.comments)

/-- A module without imports and exports is built.  If all of its statements are
kept, they are written as they are, each with the comments of its layout. -/
theorem exists_generate_plain
    (hread : files.read (entryPath path) = .ok source)
    (hparse : Program.parse source = .ok program)
    (hplain : program.IsPlain) (hcomments : options.comments = true)
    (hexports : options.exports.getD [] = []) :
    ∃ bundle, build files resolver options path = .ok bundle ∧
      bundle.options = options ∧
      ((∀ id < program.statements.length,
          (entryPath path, id) ∈ bundle.statements) →
        let code := bundle.join (plainChunks (entryPath path) source program)
        ∃ output, bundle.generate = .ok output ∧
          output.code = String.ofList
            (code ++ if code.isEmpty then [] else ['\n'])) := by
  obtain ⟨module, hmodule, hpath, htext, hmodulePlain, hanalysis⟩ :=
    Module.exists_ofSource_eq_ok resolver (entryPath path) hparse hplain
  obtain ⟨bundle, hbuild, hoptions, halone⟩ := exists_build_eq_ok hread
    hmodule hpath hmodulePlain hexports
  refine ⟨bundle, hbuild, hoptions, fun hall => ?_⟩
  obtain ⟨hreachable, _, entry, walk, shaker, hassembled⟩ :=
    build_eq_ok hbuild
  obtain ⟨hspans, hlayouts⟩ := Analysis.map_layout_of_ofProgram hanalysis
  have hlength : module.statements.length = program.statements.length := by
    simpa using congrArg List.length hspans
  have hkept := keptIn_eq_range hreachable.isFaithful hassembled
    halone.modules (by rw [hlength, hpath]; exact hall)
  have hnames : ∀ statement ∈ module.statements, _ := fun _ =>
    Analysis.not_isPseudoName_of_plain hparse hplain hanalysis
  obtain ⟨_, _, _, _, _, _, htables⟩ := Analysis.ofProgram_eq_ok hanalysis
  have hchunks := moduleChunks_plain hmodulePlain hkept halone.namespaces
    (by rw [hoptions, hcomments]) fun statement hstatement reference hmem =>
      halone.written htables (fun other hother => (hnames other hother).1) _
        ((hnames statement hstatement).2 reference hmem)
  have hsame : plainChunks (entryPath path) source program =
      module.statements.map fun statement =>
        statement.layout.chunk module.path module.source.toList
          (Text.slice module.source.toList statement.span) := by
    rw [plainChunks, ← hlayouts, ← hspans, hpath, htext, List.map_map,
      List.zipWith_map, List.zipWith_self]
    rfl
  rw [hsame]
  exact generate_alone halone.modules hchunks

/-- If a module without imports and exports is laid out in blocks, then what is
written with comments and margins is its source, as long as the comments listed
outside of its statements are those of the blocks. -/
theorem generate_blocks
    (hread : files.read (entryPath path) = .ok source)
    (hparse : Program.parse source = .ok program)
    (hplain : program.IsPlain) (hcomments : options.comments = true)
    (hmargins : options.margins = true)
    (hexports : options.exports.getD [] = [])
    (hsource : source.toList = Block.source blocks)
    (hplaces : program.statements.map (·.span) = Block.places blocks) :
    ∃ bundle, build files resolver options path = .ok bundle ∧
      ((∀ id < program.statements.length,
          (entryPath path, id) ∈ bundle.statements) →
        Block.Matches none 0 blocks program.comments →
          ∃ output, bundle.generate = .ok output ∧ output.code = source) := by
  obtain ⟨bundle, hbuild, hoptions, hgenerates⟩ :=
    exists_generate_plain hread hparse hplain hcomments hexports
  refine ⟨bundle, hbuild, fun hall hmatches => ?_⟩
  obtain ⟨output, hgenerate, hcode⟩ := hgenerates hall
  refine ⟨output, hgenerate, ?_⟩
  have hlayouts : Block.HaveLayouts source.toList blocks
      (Layout.ofStatements source.toList (program.statements.map (·.span))
        program.comments) := by
    rw [hplaces, hsource]
    exact Block.haveLayouts_ofStatements hmatches
      (Block.inOrder_comments hparse)
  have hstatements : (program.statements.map (·.span)).map
      (Text.slice source.toList) = blocks.map (·.statement) := by
    rw [hplaces, hsource]
    exact Block.map_slice_places blocks
  have hjoin := Block.join_haveLayouts (entryPath path)
    (by rw [hoptions, hmargins]) hlayouts
  rw [← hstatements] at hjoin
  rw [hcode, plainChunks,
    ← Block.source_eq_of_join hparse hsource hplaces hjoin,
    String.ofList_toList]

/-- Whether tree shaking includes the first statements of a module. -/
def shakesTo (bundle : Bundle) (module : Path) (count : Nat) : Bool :=
  (bundle.loader.module bundle.entry).toOption.any fun entry =>
    Outcome.passes (Shaking.shake bundle.loader entry bundle.options.exports)
      (.ofNames .initial) fun _ shaker =>
        (List.range count).all fun id => shaker.included.contains (module, id)

theorem mem_statements_of_shakesTo {bundle : Bundle} {module : Path}
    {count : Nat} (hbuild : build files resolver options path = .ok bundle)
    (hshakes : bundle.shakesTo module count = true) :
    ∀ id < count, (module, id) ∈ bundle.statements := by
  obtain ⟨hreachable, _, entry, walk, shaker, hassembled⟩ :=
    build_eq_ok hbuild
  obtain ⟨found, hfound, hpasses⟩ := Except.exists_of_any_toOption hshakes
  rw [hassembled.path, hassembled.loaded] at hfound
  obtain rfl := Except.ok.inj hfound
  obtain ⟨_, after, hafter, hincluded⟩ := Outcome.exists_of_passes hpasses
  rw [hassembled.shaken] at hafter
  obtain ⟨-, rfl⟩ := EStateM.Result.ok.inj hafter
  intro id hid
  rw [(hassembled.statements_perm hreachable.isFaithful).mem_iff,
    ← List.contains_iff_mem]
  exact List.all_eq_true.mp hincluded id (List.mem_range.mpr hid)

/-- Two chunks without blank lines stand on lines after one another. -/
theorem join_of_blank_eq_zero {bundle : Bundle} {chunks : List Chunk}
    {text others : List Char}
    (h : chunks.map (fun chunk =>
      (chunk.blankBefore, chunk.text, chunk.blankAfter)) =
        [(0, text, 0), (0, others, 0)]) :
    bundle.join chunks = text ++ '\n' :: others := by
  obtain ⟨first, rest, rfl, hfirst, hrest⟩ := List.map_eq_cons_iff.mp h
  obtain ⟨second, rest, rfl, hsecond, hrest⟩ := List.map_eq_cons_iff.mp hrest
  obtain rfl := List.map_eq_nil_iff.mp hrest
  rw [Prod.mk.injEq, Prod.mk.injEq] at hfirst hsecond
  obtain ⟨-, hfirst, hafter⟩ := hfirst
  obtain ⟨hbefore, hsecond, -⟩ := hsecond
  have hbreaks : bundle.lineBreaks first second = 1 := by
    rw [lineBreaks, hbefore, hafter]
    split <;> rfl
  rw [join, join, hbreaks, hfirst, hsecond, List.append_assoc]
  rfl

/-- Two statements with comments around them and blank lines between them. -/
def commentedBlocks : List Block :=
  [⟨0, ["// a".toList, "/* b */".toList], "f();".toList,
      some "// c".toList⟩,
    ⟨2, ["// d".toList], "g();".toList, none⟩]

def commentedSource : String :=
  "// a\n/* b */\nf(); // c\n\n\n// d\ng();\n"

theorem generate_blocks_commented :
    ∃ bundle, build (.ofList [(⟨"/m.js"⟩, commentedSource)]) .plain
        ⟨none, true, true⟩ ⟨"/m.js"⟩ = .ok bundle ∧
      ∃ output, bundle.generate = .ok output ∧
        output.code = commentedSource := by
  have hprogram : (Program.parse commentedSource).toOption.any (fun program =>
      program.statements.all (!·.isModuleItem) &&
      decide (program.statements.map (·.span) =
        Block.places commentedBlocks) &&
      decide (program.statements.length = 2) &&
      decide ((program.comments.filter fun comment =>
        decide (0 ≤ comment.span.start) && Block.standsOutside
          (Block.placesFrom none 0 commentedBlocks) comment).map (·.span) =
            Block.commentsFrom none 0 commentedBlocks)) = true := by
    decide +kernel
  obtain ⟨program, hparse, hprogram⟩ := Except.exists_of_any_toOption hprogram
  simp only [Bool.and_eq_true, decide_eq_true_eq, List.all_eq_true,
    Bool.not_eq_true'] at hprogram
  obtain ⟨⟨⟨hplain, hplaces⟩, hlength⟩, hmatches⟩ := hprogram
  have hread : (Files.ofList [(⟨"/m.js"⟩, commentedSource)]).read
      (entryPath ⟨"/m.js"⟩) = .ok commentedSource := by
    decide +kernel
  have hblocks : commentedSource.toList = Block.source commentedBlocks := by
    decide +kernel
  have hround := @generate_blocks _ Resolver.plain ⟨none, true, true⟩ _ _ _ _
    hread hparse hplain rfl rfl rfl hblocks hplaces
  obtain ⟨bundle, hbuild, hcode⟩ := hround
  refine ⟨bundle, hbuild, hcode ?_ hmatches⟩
  have hshaken : (build (.ofList [(⟨"/m.js"⟩, commentedSource)]) .plain
      ⟨none, true, true⟩ ⟨"/m.js"⟩).toOption.any
        (·.shakesTo (entryPath ⟨"/m.js"⟩) 2) = true := by
    decide +kernel
  obtain ⟨found, hfound, hshaken⟩ := Except.exists_of_any_toOption hshaken
  rw [hbuild] at hfound
  obtain rfl := Except.ok.inj hfound
  rw [hlength]
  exact mem_statements_of_shakesTo hbuild hshaken

/-- A call of a function with a template that holds what would be a comment
elsewhere, and a second call. -/
def templateBlocks : List Block :=
  [⟨0, [], "f(\x60$\x7b0\x7d//b\x60);".toList, some "/* c */".toList⟩,
    ⟨0, ["// d".toList], "g();".toList, none⟩]

def templateSource : String :=
  "f(\x60$\x7b0\x7d//b\x60); /* c */\n// d\ng();\n"

/-- The text of the template is listed as a comment up to the end of the line,
so that the comment behind the statement is lost. -/
theorem generate_blocks_template :
    ∃ program, Program.parse templateSource = .ok program ∧
      program.IsPlain ∧
      templateSource.toList = Block.source templateBlocks ∧
      program.statements.map (·.span) = Block.places templateBlocks ∧
      ∃ bundle, build (.ofList [(⟨"/m.js"⟩, templateSource)]) .plain
          ⟨none, true, true⟩ ⟨"/m.js"⟩ = .ok bundle ∧
        (∀ id < program.statements.length,
          (entryPath ⟨"/m.js"⟩, id) ∈ bundle.statements) ∧
        ∃ output, bundle.generate = .ok output ∧
          output.code = "f(\x60$\x7b0\x7d//b\x60);\n// d\ng();\n" ∧
          output.code ≠ templateSource := by
  have hprogram : (Program.parse templateSource).toOption.any (fun program =>
      program.statements.all (!·.isModuleItem) &&
      decide (program.statements.map (·.span) =
        Block.places templateBlocks) &&
      decide (program.statements.length = 2) &&
      decide ((plainChunks (entryPath ⟨"/m.js"⟩) templateSource program).map
        (fun chunk => (chunk.blankBefore, chunk.text, chunk.blankAfter)) =
          [(0, "f(\x60$\x7b0\x7d//b\x60);".toList, 0),
            (0, "// d\ng();".toList, 0)])) = true := by
    decide +kernel
  obtain ⟨program, hparse, hprogram⟩ := Except.exists_of_any_toOption hprogram
  simp only [Bool.and_eq_true, decide_eq_true_eq, List.all_eq_true,
    Bool.not_eq_true'] at hprogram
  obtain ⟨⟨⟨hplain, hplaces⟩, hlength⟩, hchunks⟩ := hprogram
  have hread : (Files.ofList [(⟨"/m.js"⟩, templateSource)]).read
      (entryPath ⟨"/m.js"⟩) = .ok templateSource := by
    decide +kernel
  have hgenerates := @exists_generate_plain _ Resolver.plain ⟨none, true, true⟩
    _ _ _ hread hparse hplain rfl rfl
  obtain ⟨bundle, hbuild, -, hgenerates⟩ := hgenerates
  have hshaken : (build (.ofList [(⟨"/m.js"⟩, templateSource)]) .plain
      ⟨none, true, true⟩ ⟨"/m.js"⟩).toOption.any
        (·.shakesTo (entryPath ⟨"/m.js"⟩) 2) = true := by
    decide +kernel
  obtain ⟨found, hfound, hshaken⟩ := Except.exists_of_any_toOption hshaken
  rw [hbuild] at hfound
  obtain rfl := Except.ok.inj hfound
  have hall : ∀ id < program.statements.length,
      (entryPath ⟨"/m.js"⟩, id) ∈ bundle.statements := by
    rw [hlength]
    exact mem_statements_of_shakesTo hbuild hshaken
  obtain ⟨output, hgenerate, hcode⟩ := hgenerates hall
  have hwritten : output.code = "f(\x60$\x7b0\x7d//b\x60);\n// d\ng();\n" := by
    rw [hcode, join_of_blank_eq_zero hchunks]
    decide +kernel
  exact ⟨program, hparse, hplain, by decide +kernel, hplaces, bundle, hbuild,
    hall, output, hgenerate, hwritten, by rw [hwritten]; decide⟩

end Bundle

end Bundler
