import Bundler.Build.Output
import Bundler.Proofs.Analysis.Declared
import Bundler.Proofs.Build.Assembled

/-!
# Declarations that are renamed

A statement is written with the names that its module has in the bundle wherever a
name is recorded, and a declaration is renamed only where it is.  Every place is
recorded that declares a name for the top level, unless a block around it binds the
same name: then the place is looked up within that block, while its declaration
has come out of it.  What is recorded is rewritten, since names are words of the
source, which do not overlap.
-/

namespace Bundler

namespace Replacement

/-- A replacement stands between the text in front of it and the one behind. -/
theorem apply_append_cons (source : List Char) (start stop : Nat)
    (earlier : List Replacement) (replacement : Replacement)
    (later : List Replacement) :
    apply source start stop (earlier ++ replacement :: later) =
      apply source start replacement.reference.span.start earlier ++
        replacement.text.toList ++
        apply source replacement.reference.span.stop stop later := by
  induction earlier generalizing start with
  | nil => rfl
  | cons first earlier ih =>
      rw [List.cons_append, apply, apply, ih]
      simp only [List.append_assoc]

end Replacement

namespace Statement

variable (statement : Statement) (place : Occurrence)

/-- A place in the part of a statement that is written. -/
def Keeps : Prop :=
  Bundle.keptStart statement ≤ place.span.start ∧
    place.span.stop ≤ statement.span.stop

/-- A place is recorded. -/
def Records : Prop :=
  ∃ reference ∈ statement.references,
    reference.span = place.span ∧ reference.name = place.name

end Statement

namespace Bundle

variable {bundle : Bundle} {module : Module} {start stop : Nat}
  {references : List Reference} {found : List Replacement}

/-- What a statement is written as if its kept part is. -/
def finished (bundle : Bundle) (module : Module) (statement : Statement)
    (kept : List Char) : List Char :=
  if statement.kind.isDefaultValue then
    terminated (("var " ++ bundle.names.written module.path defaultSlot ++
      " = ").toList ++ kept)
  else kept

/-- A text of a statement has, in place of the name at a place, what the name is
written as, between what is written of the source in front of the place and what
is written of the source behind. -/
def Rewrites (bundle : Bundle) (module : Module) (statement : Statement)
    (place : Occurrence) (text : List Char) : Prop :=
  ∃ earlier replacement later,
    bundle.replacements module (keptStart statement) statement.span.stop
      statement.references = .ok (earlier ++ replacement :: later) ∧
    replacement.reference.span = place.span ∧
    replacement.reference.name = place.name ∧
    replacement.written = bundle.names.written module.path place.name ∧
    text = bundle.finished module statement
      (Replacement.apply module.source.toList (keptStart statement)
          place.span.start earlier ++
        replacement.text.toList ++
        Replacement.apply module.source.toList place.span.stop
          statement.span.stop later)

theorem statementText_eq_ok {statement : Statement} {text : List Char}
    (htext : bundle.statementText module statement = .ok text) :
    ∃ found,
      bundle.replacements module (keptStart statement) statement.span.stop
        statement.references = .ok found ∧
      text = bundle.finished module statement
        (Replacement.apply module.source.toList (keptStart statement)
          statement.span.stop found) := by
  rw [statementText] at htext
  obtain ⟨found, hfound, htext⟩ := Except.bind_eq_ok_iff.mp htext
  refine ⟨found, hfound, ?_⟩
  rw [finished]
  split at htext
  · rename_i hdefault
    rw [if_pos hdefault]
    exact (Except.ok.inj htext).symm
  · rename_i hdefault
    rw [if_neg hdefault]
    exact (Except.ok.inj htext).symm

/-- Of the references from an offset on, the first one is passed over, stays as it
is, or is replaced. -/
theorem replacements_cons_eq_ok {reference : Reference}
    (hfound : bundle.replacements module start stop (reference :: references) =
      .ok found) :
    ((reference.span.start < start ∨ stop < reference.span.stop ∨
        bundle.writtenName module reference.name = .ok reference.name) ∧
      bundle.replacements module start stop references = .ok found) ∨
    ∃ written others,
      start ≤ reference.span.start ∧ written ≠ reference.name ∧
      bundle.writtenName module reference.name = .ok written ∧
      bundle.replacements module reference.span.stop stop references =
        .ok others ∧
      found = ⟨reference, written⟩ :: others := by
  rw [replacements] at hfound
  split at hfound
  · rename_i hout
    simp only [Bool.or_eq_true, decide_eq_true_eq] at hout
    exact .inl ⟨hout.elim .inl (.inr ∘ .inl), hfound⟩
  · rename_i hin
    simp only [Bool.or_eq_true, decide_eq_true_eq, not_or, Nat.not_lt] at hin
    obtain ⟨written, hwritten, hfound⟩ := Except.bind_eq_ok_iff.mp hfound
    split at hfound
    · rename_i hsame
      exact .inl ⟨.inr (.inr (hsame ▸ hwritten)), hfound⟩
    · rename_i hother
      obtain ⟨others, hothers, hfound⟩ := Except.bind_eq_ok_iff.mp hfound
      exact .inr ⟨written, others, hin.1, hother, hwritten, hothers,
        (Except.ok.inj hfound).symm⟩

/-- Replacements are of the given references, by what their names are written
as. -/
theorem writtenName_of_mem_replacements
    (hfound : bundle.replacements module start stop references = .ok found) :
    ∀ replacement ∈ found, replacement.reference ∈ references ∧
      bundle.writtenName module replacement.reference.name =
        .ok replacement.written := by
  induction references generalizing start found with
  | nil =>
      obtain rfl := Except.ok.inj hfound
      exact fun _ hmem => absurd hmem List.not_mem_nil
  | cons reference references ih =>
      intro replacement hmem
      rcases replacements_cons_eq_ok hfound with
        ⟨_, hothers⟩ | ⟨written, others, _, _, hwritten, hothers, rfl⟩
      · obtain ⟨hreference, hname⟩ := ih hothers replacement hmem
        exact ⟨List.mem_cons_of_mem _ hreference, hname⟩
      · rcases List.mem_cons.mp hmem with rfl | hmem
        · exact ⟨List.mem_cons_self, hwritten⟩
        · obtain ⟨hreference, hname⟩ := ih hothers replacement hmem
          exact ⟨List.mem_cons_of_mem _ hreference, hname⟩

/-- Of references in order, each that is written differently is replaced, unless
one that is replaced before it reaches over its start. -/
theorem exists_replacement
    (hsorted : references.Pairwise (·.span.start ≤ ·.span.start))
    (hfound : bundle.replacements module start stop references = .ok found)
    {reference : Reference} (hreference : reference ∈ references)
    (hstart : start ≤ reference.span.start)
    (hstop : reference.span.stop ≤ stop)
    (hwritten : bundle.writtenName module reference.name ≠ .ok reference.name) :
    ∃ replacement ∈ found, replacement.reference = reference ∨
      replacement.reference.span.start ≤ reference.span.start ∧
        reference.span.start < replacement.reference.span.stop := by
  induction references generalizing start found with
  | nil => exact absurd hreference List.not_mem_nil
  | cons first references ih =>
      obtain ⟨hfirst, hsorted⟩ := List.pairwise_cons.mp hsorted
      rcases replacements_cons_eq_ok hfound with
        ⟨hout, hothers⟩ | ⟨written, others, _, _, _, hothers, rfl⟩
      · rcases List.mem_cons.mp hreference with rfl | hreference
        · rcases hout with hbefore | hbehind | hsame
          · exact absurd hstart (Nat.not_le_of_lt hbefore)
          · exact absurd hstop (Nat.not_le_of_lt hbehind)
          · exact absurd hsame hwritten
        · exact ih hsorted hothers hreference hstart
      · rcases List.mem_cons.mp hreference with rfl | hreference
        · exact ⟨_, List.mem_cons_self, .inl rfl⟩
        · by_cases hover : first.span.stop ≤ reference.span.start
          · obtain ⟨replacement, hmem, hreplaced⟩ :=
              ih hsorted hothers hreference hover
            exact ⟨replacement, List.mem_cons_of_mem _ hmem, hreplaced⟩
          · exact ⟨_, List.mem_cons_self,
              .inr ⟨hfirst reference hreference, Nat.lt_of_not_le hover⟩⟩

/-- A place that is recorded is rewritten to what its name is written as, if it is in
the kept part of the statement and no other name reaches over it. -/
theorem rewrites_of_records {statement : Statement} {place : Occurrence}
    {text : List Char}
    (hsorted : statement.references.Pairwise (·.span.start ≤ ·.span.start))
    (hrecords : statement.Records place) (hkeeps : statement.Keeps place)
    (hapart : ∀ reference ∈ statement.references,
      reference.span.start ≤ place.span.start →
      place.span.start < reference.span.stop →
      reference.span = place.span ∧ reference.name = place.name)
    (himport : module.imports.contains place.name = false)
    (hrenamed : bundle.names.written module.path place.name ≠ place.name)
    (htext : bundle.statementText module statement = .ok text) :
    bundle.Rewrites module statement place text := by
  obtain ⟨reference, hreference, hspan, hname⟩ := hrecords
  obtain ⟨found, hfound, rfl⟩ := statementText_eq_ok htext
  have hwritten : bundle.writtenName module place.name =
      .ok (bundle.names.written module.path place.name) := by
    rw [writtenName, himport]
    rfl
  have hother : bundle.writtenName module reference.name ≠
      .ok reference.name := by
    rw [hname, hwritten]
    exact fun hsame => hrenamed (Except.ok.inj hsame)
  obtain ⟨replacement, hmem, hreplaced⟩ := exists_replacement hsorted hfound
    hreference (hspan ▸ hkeeps.1) (hspan ▸ hkeeps.2) hother
  obtain ⟨hlisted, hnew⟩ :=
    writtenName_of_mem_replacements hfound replacement hmem
  have hsame : replacement.reference.span = place.span ∧
      replacement.reference.name = place.name := by
    rcases hreplaced with heq | ⟨hstart, hstop⟩
    · rw [heq]
      exact ⟨hspan, hname⟩
    · rw [hspan] at hstart hstop
      exact hapart _ hlisted hstart hstop
  obtain ⟨earlier, later, rfl⟩ := List.append_of_mem hmem
  refine ⟨earlier, replacement, later, hfound, hsame.1, hsame.2, ?_, ?_⟩
  · rw [hsame.2, hwritten] at hnew
    exact (Except.ok.inj hnew).symm
  · rw [Replacement.apply_append_cons, hsame.1]

end Bundle

section Tokens

variable {first : Nat} {last : TokenStream}

/-- Of two words that are consumed none reaches over the start of the other. -/
theorem Naming.eq_of_overlap (hlast : last.Lexes first) {span other : Span}
    {name otherName : String} (hallows : (ofConsumed first last).Allows span name)
    (hother : (ofConsumed first last).Allows other otherName)
    (htext : span.isEmpty = false) (hstart : other.start ≤ span.start)
    (hstop : span.start < other.stop) : other = span ∧ otherName = name := by
  have hlonger : other.isEmpty = false := by
    rw [Span.isEmpty, decide_eq_false_iff_not]
    omega
  obtain ⟨token, htoken, _, rfl, rfl⟩ := exists_token_of_allows hallows htext
  obtain ⟨next, hnext, _, rfl, rfl⟩ := exists_token_of_allows hother hlonger
  rw [Span.isEmpty, decide_eq_false_iff_not] at htext
  rcases hlast.apart htoken hnext with rfl | hbefore | hbehind
  · exact ⟨rfl, rfl⟩
  · omega
  · omega

theorem Interface.IsKind.exported {text : List Char} {statement : Node}
    {start : Nat} (h : IsKind text statement (.exportedDeclaration start)) :
    ∃ isDefault declaration,
      statement.shape = .exportDeclaration isDefault declaration ∧
        start = declaration.span.start := by
  obtain ⟨before, after, hadd⟩ := h
  unfold addStatement at hadd
  split at hadd
  · obtain ⟨between, _, hadd⟩ := Except.bind_eq_ok_iff.mp hadd
    cases hadd
  all_goals cases hadd
  exact ⟨_, _, rfl, rfl⟩

/-- What an exported declaration declares stands behind its start. -/
theorem Site.start_le_of_exported {statement declaration : Node}
    {isDefault : Bool}
    (hshape : statement.shape = .exportDeclaration isDefault declaration)
    {offset : Nat} (hfrom : declaration.NamesFrom offset) {site : Site}
    (hsite : site ∈ statement.sites none false []) {place : Occurrence}
    (hdeclares : site.Declares place) (htext : place.span.isEmpty = false) :
    offset ≤ place.span.start := by
  obtain ⟨isBlockScoped, hplace, _⟩ := hdeclares
  rw [Node.sites_eq, List.mem_cons, List.mem_flatMap] at hsite
  rcases hsite with rfl | ⟨part, hpart, hsite⟩
  · -- The export itself declares nothing.
    rw [Node.declaringPlaces, hshape] at hplace
    exact absurd hplace List.not_mem_nil
  · rw [Node.parts, hshape] at hpart
    obtain rfl := List.mem_singleton.mp hpart
    exact Node.allows_declaringPlaces (hfrom.at_site hsite) _ hplace htext

/-- What a statement other than a default value declares for the top level stands
in its kept part. -/
theorem Statement.keeps_of_declares {statement : Statement}
    {found : Node × StatementKind} {text : List Char}
    (hkind : statement.kind = found.2) (hspan : statement.span = found.1.span)
    (hfound : Interface.IsKind text found.1 found.2)
    (hvalue : statement.kind.isDefaultValue = false)
    (hlast : last.Lexes first)
    (hfits : (Naming.ofConsumed first last).Fits found.1)
    (hwhole : found.1.span = last.spanSince ⟨first⟩) {site : Site}
    (hsite : site ∈ Site.ofStatement found) {place : Occurrence}
    (hdeclares : site.Declares place) (htext : place.span.isEmpty = false) :
    statement.Keeps place := by
  have hallows := Analysis.allows_of_declares hfits.names hsite hdeclares
  obtain ⟨token, htoken, _, hplace, _⟩ :=
    Naming.exists_token_of_allows hallows htext
  have hencloses := hlast.spanSince_encloses htoken
  rw [← hwhole, ← hspan, hplace] at hencloses
  refine ⟨?_, hencloses.2⟩
  rw [Bundle.keptStart]
  split
  · rename_i start hexported
    rw [← hkind, hexported] at hfound
    obtain ⟨isDefault, declaration, hshape, rfl⟩ := hfound.exported
    have hexported : declaration ∈ found.1.shape.exported? := by
      rw [hshape]
      rfl
    rw [Site.ofStatement] at hsite
    split at hsite
    · exact absurd hsite List.not_mem_nil
    · exact Site.start_le_of_exported hshape (hfits.exported hexported) hsite
        hdeclares htext
  · rename_i start hdefault
    rw [hdefault] at hvalue
    cases hvalue
  · exact hencloses.1

end Tokens

namespace Module

variable {resolver : Resolver} {path : Path} {source : String}
  {module : Module}

/-- A statement defines just the names that are declared at its places for the top
level, but for the slot of a default value.  Every such place is recorded, unless a
block around the place binds the name as well, and it is rewritten where the name is
written differently, unless the module takes the name from another one. -/
theorem declarations_renamed
    (hmodule : ofSource resolver path source = .ok module) :
    ∃ program kinds, Program.parse source = .ok program ∧
      Interface.ofStatements source.toList program.statements =
        .ok (kinds, module.interface) ∧
      ∀ (id : Nat) (statement : Statement),
        module.statements[id]? = some statement →
        ∃ found, (program.statements.zip kinds)[id]? = some found ∧
          (∀ name, name ∈ statement.defines ↔
            found.2.isDefaultValue = true ∧ name = defaultSlot ∨
            ∃ site ∈ Site.ofStatement found, ∃ place,
              site.Declares place ∧ place.name = name) ∧
          ∀ site ∈ Site.ofStatement found, ∀ place, site.Declares place →
            (place.name = "undefined" → place.span.isEmpty = false) →
            site.isBound place.name = false →
            statement.Records place ∧
            ∀ (bundle : Bundle) text,
              bundle.statementText module statement = .ok text →
              statement.kind.isDefaultValue = false →
              module.imports.contains place.name = false →
              bundle.names.written module.path place.name ≠ place.name →
              bundle.Rewrites module statement place text := by
  obtain ⟨_, _, program, hparse, hanalysis⟩ := ofSource_eq_ok hmodule
  obtain ⟨kinds, hkinds, _⟩ := Analysis.map_defines_of_ofProgram hanalysis
  refine ⟨program, kinds, hparse, hkinds, fun id statement hstatement => ?_⟩
  obtain ⟨found, hfound, hkind, hspan, hdefines, hreferences⟩ :=
    Analysis.exists_statement_of_ofProgram hanalysis hkinds hstatement
  have hsorted := Analysis.pairwise_references hanalysis hstatement
  refine ⟨found, hfound, Analysis.mem_defines_iff hfound hdefines,
    fun site hsite place hdeclares hundefined hunbound => ?_⟩
  have hzip := List.mem_of_getElem? hfound
  obtain ⟨first, last, hlast, hfits, hwhole⟩ :=
    Program.exists_tokens_of_parse hparse (List.of_mem_zip hzip).1
  have hallows := Analysis.allows_of_declares hfits.names hsite hdeclares
  have htext : place.span.isEmpty = false :=
    (Naming.isEmpty_of_allows hlast hallows).elim (fun htext => htext)
      hundefined
  have hrecords : statement.Records place := by
    obtain ⟨reference, hreference, hsame⟩ :=
      Site.exists_free_of_declares hsite hdeclares htext hunbound
    exact ⟨reference, hreferences.mem_iff.mpr hreference, hsame⟩
  refine ⟨hrecords, fun bundle text hwritten hvalue himport hrenamed => ?_⟩
  have hisKind : Interface.IsKind source.toList found.1 found.2 :=
    (List.forall₂_iff_zip.mp (Interface.forall₂_ofStatements hkinds)).2 hzip
  have hkeeps := Statement.keeps_of_declares hkind hspan hisKind hvalue hlast
    hfits hwhole hsite hdeclares htext
  refine Bundle.rewrites_of_records hsorted hrecords hkeeps
    (fun reference hreference => ?_) himport hrenamed hwritten
  exact Naming.eq_of_overlap hlast hallows
    (Site.allows_free hfits.names reference (hreferences.mem_iff.mp hreference))
    htext

/-- A module that declares names of the top level in a loop, a block and a
pattern. -/
def declaringWithin : String :=
  "for (var x of y) \x7b function f() \x7b\x7d \x7d\n" ++
    "export let \x7b x: a, b = a \x7d = f;\n"

/-- All its declarations are recorded. -/
theorem declarations_renamed_within :
    ∃ module, ofSource .plain ⟨"/m.js"⟩ declaringWithin = .ok module ∧
      module.statements.map (·.defines) = [["x", "f"], ["a", "b"]] ∧
      ∃ program kinds, Program.parse declaringWithin = .ok program ∧
        ∀ (id : Nat) (statement : Statement),
          module.statements[id]? = some statement →
          ∃ found, (program.statements.zip kinds)[id]? = some found ∧
            ∀ site ∈ Site.ofStatement found, ∀ place, site.Declares place →
              statement.Records place := by
  have hfacts : ((ofSource .plain ⟨"/m.js"⟩ declaringWithin).toOption.any
      fun module =>
        decide (module.statements.map (·.defines) = [["x", "f"], ["a", "b"]]) &&
        (Program.parse declaringWithin).toOption.any fun program =>
          (Interface.ofStatements declaringWithin.toList
            program.statements).toOption.any fun interface =>
              (program.statements.zip interface.1).all fun found =>
                (Site.ofStatement found).all fun site =>
                  site.node.declaringPlaces.all fun place =>
                    decide (place.1.name ≠ "undefined") &&
                      !site.isBound place.1.name) = true := by
    decide +kernel
  obtain ⟨module, hmodule, hfacts⟩ := Except.exists_of_any_toOption hfacts
  rw [Bool.and_eq_true, decide_eq_true_eq] at hfacts
  obtain ⟨hdefines, hfacts⟩ := hfacts
  obtain ⟨program, kinds, hparse, hkinds, hall⟩ := declarations_renamed hmodule
  refine ⟨module, hmodule, hdefines, program, kinds, hparse,
    fun id statement hstatement => ?_⟩
  obtain ⟨found, hfound, _, hrecorded⟩ := hall id statement hstatement
  refine ⟨found, hfound, fun site hsite place hdeclares => ?_⟩
  simp only [hparse, hkinds, Except.toOption, Option.any_some, List.all_eq_true,
    Bool.and_eq_true, decide_eq_true_eq, Bool.not_eq_true'] at hfacts
  obtain ⟨isBlockScoped, hplace, hpasses⟩ := hdeclares
  obtain ⟨hname, hunbound⟩ := hfacts found (List.mem_of_getElem? hfound) site
    hsite (place, isBlockScoped) hplace
  exact (hrecorded site hsite place ⟨isBlockScoped, hplace, hpasses⟩
    (fun hundefined => absurd hundefined hname) hunbound).1

end Module

namespace Bundle

/-- A module whose handler of errors declares anew what it has caught, next to one
that declares the same name. -/
def handling : Files := .ofList
  [(⟨"/a.js"⟩,
     "try \x7b f(); \x7d catch (e) \x7b var e; \x7d\nexport \x7b e \x7d;"),
   (⟨"/b.js"⟩, "export let e = 2;"),
   (⟨"/m.js"⟩,
     "export \x7b e \x7d from './a';\nexport \x7b e as y \x7d from './b';")]

/-- The name is renamed, but not where it is declared, so the bundle declares it
twice. -/
theorem declared_not_renamed :
    ∃ bundle output, build handling .plain .standard ⟨"/m.js"⟩ = .ok bundle ∧
      bundle.generate = .ok output ∧
      output.code =
        "try \x7b f(); \x7d catch (e) \x7b var e; \x7d\nlet e = 2;\n" ∧
      output.exports = [("e", "_e"), ("y", "e")] ∧
      ∃ module ∈ bundle.modules,
        bundle.names.written module.path "e" = "_e" ∧
        (module.path, 0) ∈ bundle.statements ∧
        ∃ statement, module.statements[0]? = some statement ∧
          "e" ∈ statement.defines ∧
          ∃ program kinds found,
            Program.parse module.source = .ok program ∧
            Interface.ofStatements module.source.toList program.statements =
              .ok (kinds, module.interface) ∧
            (program.statements.zip kinds)[0]? = some found ∧
            ∃ site ∈ Site.ofStatement found, ∃ place,
              site.Declares place ∧ place.name = "e" ∧
              ¬ statement.Records place := by
  have hfacts : ((build handling .plain .standard
      ⟨"/m.js"⟩).toOption.any fun bundle =>
        (bundle.generate.toOption.any fun output =>
          decide (output.code =
            "try \x7b f(); \x7d catch (e) \x7b var e; \x7d\nlet e = 2;\n") &&
          decide (output.exports = [("e", "_e"), ("y", "e")])) &&
        bundle.modules.any fun module =>
          decide (bundle.names.written module.path "e" = "_e") &&
          bundle.statements.contains (module.path, 0) &&
          module.statements[0]?.any fun statement =>
            !statement.kind.isDefaultValue &&
              statement.defines.contains "e" &&
              statement.references.all (·.name ≠ "e")) = true := by
    decide +kernel
  obtain ⟨bundle, hbuild, hfacts⟩ := Except.exists_of_any_toOption hfacts
  obtain ⟨hcode, hfacts⟩ := Bool.and_eq_true_iff.mp hfacts
  obtain ⟨output, hgenerate, hcode⟩ := Except.exists_of_any_toOption hcode
  simp only [Bool.and_eq_true, decide_eq_true_eq] at hcode
  simp only [Bool.and_eq_true, List.any_eq_true, decide_eq_true_eq,
    Option.any_eq_true, List.all_eq_true, Bool.not_eq_true',
    List.contains_iff_mem] at hfacts
  obtain ⟨module, hmodule, ⟨hwritten, hkept⟩, statement, hstatement,
    ⟨hkind, hdefines⟩, hreferences⟩ := hfacts
  obtain ⟨hreachable, _, entry, walk, shaker, hassembled⟩ := build_eq_ok hbuild
  have hfaithful := hreachable.isFaithful
  obtain ⟨program, hparse, hanalysis⟩ := hfaithful.ofProgram_eq_ok
    (hassembled.module_loaded hfaithful hmodule)
  obtain ⟨kinds, hkinds, _⟩ := Analysis.map_defines_of_ofProgram hanalysis
  obtain ⟨found, hfound, hsame, _, hdeclared, _⟩ :=
    Analysis.exists_statement_of_ofProgram hanalysis hkinds hstatement
  refine ⟨bundle, output, hbuild, hgenerate, hcode.1, hcode.2, module, hmodule,
    hwritten, hkept, statement, hstatement, hdefines, program, kinds, found,
    hparse, hkinds, hfound, ?_⟩
  rw [Analysis.mem_defines_iff hfound hdeclared] at hdefines
  rcases hdefines with ⟨hdefault, _⟩ | ⟨site, hsite, place, hdeclares, hname⟩
  · rw [hsame] at hkind
    exact absurd hdefault (Bool.eq_false_iff.mp hkind)
  · refine ⟨site, hsite, place, hdeclares, hname, ?_⟩
    rintro ⟨reference, hreference, _, heq⟩
    exact hreferences reference hreference (heq.trans hname)

end Bundle

end Bundler
