import Bundler.Proofs.Analysis.Sources
import Bundler.Proofs.Graph.Imports
import Bundler.Proofs.Graph.Reads
import Bundler.Proofs.Parser.Sourced
import Bundler.Proofs.Path

/-!
# Places of modules

The modules that imports lead to lie at few places: at the normal path of a file,
at an absolute path that some text spells out, or where the resolver redirects to.
There are no more of them than a loader counts on.
-/

namespace Bundler

namespace Interface

variable {first second : Interface} {source : String} {name : ImportedName}

theorem sources_addImport {bound : Occurrence}
    (hadd : first.addImport source name bound = .ok second) :
    second.sources = first.sources := by
  rw [addImport] at hadd
  split at hadd
  · cases hadd
  · rw [← Except.ok.inj hadd]

theorem sources_foldl {α : Type} {step : Interface → α → Interface}
    (hstep : ∀ interface value, (step interface value).sources =
      interface.sources) (values : List α) (interface : Interface) :
    (values.foldl step interface).sources = interface.sources := by
  induction values generalizing interface with
  | nil => rfl
  | cons value values ih => rw [List.foldl_cons, ih, hstep]

theorem sources_foldlM {α : Type}
    {step : Interface → α → Except Occurrence Interface} {values : List α}
    (hstep : ∀ value before after, step before value = .ok after →
      after.sources = before.sources)
    (hfold : values.foldlM step first = .ok second) :
    second.sources = first.sources :=
  Except.foldlM_induction (·.sources = first.sources) rfl
    (fun value _ before after hbefore hrun =>
      (hstep value before after hrun).trans hbefore) hfold

theorem sources_addImports {pattern : Node}
    (hadd : first.addImports source name pattern = .ok second) :
    second.sources = first.sources :=
  sources_foldlM (fun _ _ _ => sources_addImport) hadd

theorem sources_addImportItem {item : Node}
    (hadd : first.addImportItem source item = .ok second) :
    second.sources = first.sources := by
  rw [addImportItem] at hadd
  split at hadd
  · exact sources_addImports hadd
  · rw [Except.ok.inj hadd]

/-- An import statement lists no source but its own. -/
theorem sources_addImportStatement {defaultName : Option Node}
    {names : Option (ImportNames Node)}
    (hadd : first.addImportStatement defaultName names source = .ok second) :
    second.sources = pushNew first.sources source := by
  obtain ⟨between, hbetween, hnames⟩ : ∃ between : Interface,
      between.sources = pushNew first.sources source ∧
      between.addClause names source = .ok second := by
    cases defaultName with
    | none => exact ⟨_, rfl, hadd⟩
    | some pattern =>
        obtain ⟨between, hdefault, hnames⟩ := Except.bind_eq_ok_iff.mp hadd
        exact ⟨between, sources_addImports hdefault, hnames⟩
  rw [← hbetween]
  cases names with
  | none => rw [Except.ok.inj hnames]
  | some names =>
      cases names with
      | all asName => exact sources_addImports hnames
      | items items =>
          exact sources_foldlM (fun _ _ _ => sources_addImportItem) hnames

theorem sources_addExportItem (interface : Interface) (origin : Option String)
    (item : Node) :
    (interface.addExportItem origin item).sources = interface.sources := by
  unfold addExportItem
  split <;> rfl

theorem sources_addExportItems (interface : Interface) (items : List Node)
    (origin : Option String) :
    (interface.addExportItems items origin).sources =
      match origin with
      | none => interface.sources
      | some source => pushNew interface.sources source := by
  unfold addExportItems
  cases origin with
  | none => exact sources_foldl (sources_addExportItem · none ·) items interface
  | some source =>
      exact sources_foldl (sources_addExportItem · (some source) ·) items
        (interface.addSource source)

theorem sources_addExportAll (interface : Interface)
    (asName : Option ClauseName) (source : String) (span : Span) :
    (interface.addExportAll asName source span).sources =
      pushNew interface.sources source := by
  cases asName <;> rfl

theorem sources_addDeclaration (interface : Interface) (isDefault : Bool)
    (declaration : Node) :
    (interface.addDeclaration isDefault declaration).sources =
      interface.sources := by
  unfold addDeclaration
  split
  iterate 2
    split
    · rfl
    · rfl
  · refine sources_foldl ?_ _ interface
    exact fun _ _ => rfl
  · rfl

/-- A statement lists no source but the one that it names. -/
theorem mem_sources_addStatement {text : List Char} {statement : Node}
    {kind : StatementKind}
    (hadd : first.addStatement text statement = .ok (kind, second))
    (hsource : source ∈ second.sources) :
    source ∈ first.sources ∨ statement.source? = some source := by
  unfold addStatement at hadd
  split at hadd
  · obtain ⟨between, hstatement, hadd⟩ := Except.bind_eq_ok_iff.mp hadd
    obtain ⟨rfl, rfl⟩ := Prod.mk.inj (Except.ok.inj hadd)
    rw [sources_addImportStatement hstatement, mem_pushNew] at hsource
    exact hsource.imp_right fun heq => congrArg some heq.symm
  all_goals obtain ⟨rfl, rfl⟩ := Prod.mk.inj (Except.ok.inj hadd)
  · rename_i items origin
    rw [sources_addExportItems] at hsource
    cases origin with
    | none => exact .inl hsource
    | some origin =>
        exact (mem_pushNew.mp hsource).imp_right fun heq =>
          congrArg some heq.symm
  · rw [sources_addExportAll, mem_pushNew] at hsource
    exact hsource.imp_right fun heq => congrArg some heq.symm
  · exact .inl hsource
  · rw [sources_addDeclaration] at hsource
    exact .inl hsource
  · exact .inl hsource

/-- Every source of an interface is named by a statement. -/
theorem mem_sources_ofStatements {text : List Char} {statements : List Node}
    {kinds : List StatementKind} {interface : Interface}
    (hstatements : ofStatements text statements = .ok (kinds, interface))
    (hsource : source ∈ interface.sources) :
    source ∈ statements.filterMap Node.source? := by
  rw [ofStatements] at hstatements
  obtain ⟨⟨reversed, _⟩, hfold, hresult⟩ :=
    Except.bind_eq_ok_iff.mp hstatements
  obtain ⟨rfl, rfl⟩ := Prod.mk.inj (Except.ok.inj hresult)
  refine Except.foldlM_induction
    (fun state : List StatementKind × Interface => ∀ source,
      source ∈ state.2.sources → source ∈ statements.filterMap Node.source?)
    (fun _ hsource => absurd hsource List.not_mem_nil) ?_ hfold source hsource
  rintro statement hstatement ⟨kinds, before⟩ _ hbefore hstep source hsource
  obtain ⟨⟨kind, after⟩, hadd, hstep⟩ := Except.bind_eq_ok_iff.mp hstep
  obtain rfl := Except.ok.inj hstep
  rcases mem_sources_addStatement hadd hsource with hold | hnew
  · exact hbefore source hold
  · exact List.mem_filterMap.mpr ⟨statement, hstatement, hnew⟩

end Interface

namespace Files

/-- Files that are read with the texts of some held ones, which with their bytes
are no more than the files count on. -/
structure Holds (files : Files) (held : List (Path × String)) : Prop where
  size_le : held.length + totalSize (held.map (·.2)) ≤ files.bound
  read : ∀ {path : Path} {text : String}, files.read path = .ok text →
    ∃ entry ∈ held, entry.1.normalize = path.normalize ∧ entry.2 = text

/-- What is stored under a key was inserted last, or was there before. -/
theorem get?_foldl_insert {files : List (Path × String)} {key text : String}
    {start : NameMap String}
    (hget : (files.foldl (fun stored (entry : Path × String) =>
      stored.insert entry.1.normalize.text entry.2) start).get? key =
        some text) :
    (∃ entry ∈ files, entry.1.normalize.text = key ∧ entry.2 = text) ∨
      start.get? key = some text := by
  induction files generalizing start with
  | nil => exact .inr hget
  | cons entry files ih =>
      rcases ih hget with ⟨found, hfound, hkey⟩ | hstart
      · exact .inl ⟨found, List.mem_cons_of_mem entry hfound, hkey⟩
      · rw [NameMap.get?_insert] at hstart
        split at hstart
        · rename_i hkey
          exact .inl ⟨entry, List.mem_cons_self, hkey.symm,
            Option.some.inj hstart⟩
        · exact .inr hstart

/-- Files in memory are held. -/
theorem holds_ofList (files : List (Path × String)) :
    (ofList files).Holds files := by
  refine ⟨Nat.le_refl _, fun {path text} hread => ?_⟩
  simp only [ofList] at hread
  split at hread
  · rename_i found hfound
    rcases get?_foldl_insert hfound with ⟨entry, hentry, hkey, htext⟩ | hnone
    · exact ⟨entry, hentry, congrArg Path.mk hkey,
        htext.trans (Except.ok.inj hread)⟩
    · cases hnone
  · cases hread

/-- Of files whose outcomes are known those are held that can be read. -/
theorem holds_ofOutcomes (absent : String)
    (outcomes : List (Path × Except String String)) :
    (ofOutcomes absent outcomes).Holds (outcomes.filterMap fun entry =>
      entry.2.toOption.map (entry.1, ·)) := by
  constructor
  · have htexts : (outcomes.filterMap fun entry =>
        entry.2.toOption.map (entry.1, ·)).map (·.2) =
          outcomes.filterMap (·.2.toOption) := by
      rw [List.map_filterMap]
      refine List.filterMap_congr fun entry _ => ?_
      cases entry.2 <;> rfl
    rw [htexts]
    exact Nat.add_le_add_right (List.length_filterMap_le _ _) _
  · intro path text hread
    simp only [ofOutcomes] at hread
    split at hread
    · rename_i found outcome hfound
      have hpath : found = path := by simpa using List.find?_some hfound
      refine ⟨(found, text), List.mem_filterMap.mpr
        ⟨_, List.mem_of_find?_eq_some hfound, ?_⟩, by rw [hpath], rfl⟩
      rw [hread]
      rfl
    · cases hread

end Files

/-- The paths that the statements of a text spell out. -/
def spelledPaths (text : String) : List Path :=
  (Program.parse text).toOption.elim [] fun program =>
    (program.statements.filterMap Node.source?).map Path.mk

theorem length_spelledPaths_le (text : String) :
    (spelledPaths text).length ≤ text.utf8ByteSize := by
  rw [spelledPaths]
  generalize hparse : Program.parse text = outcome
  cases outcome with
  | ok program =>
      rw [Except.toOption, Option.elim_some, List.length_map]
      exact Program.length_sources_le hparse
  | error failure => exact Nat.zero_le _

theorem length_flatMap_spelledPaths_le (held : List (Path × String)) :
    (held.flatMap (spelledPaths ·.2)).length ≤
      Files.totalSize (held.map (·.2)) := by
  induction held with
  | nil => exact Nat.le_refl _
  | cons entry held ih =>
      rw [List.flatMap_cons, List.length_append]
      exact Nat.add_le_add (length_spelledPaths_le entry.2) ih

namespace Loader

/-- The places that imports can lead to, if the given files are held. -/
def places (held : List (Path × String)) (resolver : Resolver) : List Path :=
  held.map (·.1.normalize) ++ held.flatMap (spelledPaths ·.2) ++
    resolver.redirects.filterMap (·.2)

/-- There are no more places than a loader counts on. -/
theorem length_places_lt {held : List (Path × String)} {loader : Loader}
    (hheld : loader.files.Holds held) :
    (places held loader.resolver).length + 1 < loader.capacity := by
  have hspelled := length_flatMap_spelledPaths_le held
  have hredirects :=
    List.length_filterMap_le (·.2) loader.resolver.redirects
  have hsize := hheld.size_le
  rw [places, List.length_append, List.length_append, List.length_map,
    capacity]
  omega

variable {loader : Loader} {held : List (Path × String)}
  {module dependency : Module} {source : String} {path : Path}

/-- Every source of a module is spelt out in its text. -/
theorem IsFaithful.mem_spelledPaths (hfaithful : loader.IsFaithful)
    (hmodule : loader.module path = .ok module)
    (hsource : source ∈ module.interface.sources) :
    ⟨source⟩ ∈ spelledPaths module.source := by
  obtain ⟨program, hparse, hanalysis⟩ := hfaithful.ofProgram_eq_ok hmodule
  obtain ⟨kinds, usages, hkinds, _⟩ := Analysis.ofProgram_eq_ok hanalysis
  rw [spelledPaths, hparse]
  exact List.mem_map.mpr
    ⟨source, Interface.mem_sources_ofStatements hkinds hsource, rfl⟩

/-- What an import leads to, if it can be loaded, lies at one of the places. -/
theorem IsFaithful.exists_place (hfaithful : loader.IsFaithful)
    (hheld : loader.files.Holds held)
    (hmodule : loader.module module.path = .ok module)
    (hmem : (source, .internal path) ∈ module.dependencies)
    (hfound : loader.module path = .ok dependency) :
    ∃ place ∈ places held loader.resolver,
      place.same dependency.path = true := by
  have hparts := (hfaithful.module_eq_ok hfound).1
  obtain ⟨hsource, hresolve⟩ :=
    hfaithful.resolve_of_mem_dependencies hmodule hmem
  have hself : path.same dependency.path = true := by
    simp [Path.same, hparts]
  rw [Resolver.resolve] at hresolve
  split at hresolve
  · rename_i redirect hredirect
    exact ⟨path, List.mem_append_right _ (List.mem_filterMap.mpr
      ⟨_, List.mem_of_find?_eq_some hredirect, hresolve⟩), hself⟩
  · rcases Path.isNormal_of_followDefault hresolve with
      hnormal | ⟨rfl, habsolute⟩
    · obtain ⟨entry, hentry, hplace, _⟩ :=
        hheld.read (hfaithful.read_path hfound)
      refine ⟨entry.1.normalize, List.mem_append_left _
        (List.mem_append_left _ (List.mem_map.mpr ⟨entry, hentry, rfl⟩)), ?_⟩
      have hsame : dependency.path.normalize.parts = path.parts := by
        rw [← hnormal, Path.normalize, Path.normalize, hparts]
      rw [hplace, Path.same, hsame, hparts, decide_eq_true_eq]
    · obtain ⟨entry, hentry, _, htext⟩ :=
        hheld.read (hfaithful.read_path hmodule)
      have hspelled := hfaithful.mem_spelledPaths hmodule hsource
      rw [← htext] at hspelled
      exact ⟨⟨source⟩, List.mem_append_left _ (List.mem_append_right _
        (List.mem_flatMap.mpr ⟨entry, hentry, hspelled⟩)), hself⟩

end Loader

end Bundler
