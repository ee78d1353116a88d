import Bundler.Proofs.Graph.Reachable

/-!
# Sources of a module

Whatever a module names of another one, it names by a source that its interface
lists: the source of an import, of a star export or of an import statement.  The
dependencies of the module are made of that list, so a source of an import
leads to one of them.
-/

namespace Bundler

namespace Interface

variable {interface first second third : Interface}

/-- Imports and star exports come from sources that are listed. -/
structure IsSourced (interface : Interface) : Prop where
  imports : ∀ {name : String} {imported : Import},
    interface.imports.get? name = some imported →
    imported.source ∈ interface.sources
  stars : ∀ source ∈ interface.starSources, source ∈ interface.sources

/-- The passage from an interface to one with more in it. -/
structure Adds (before after : Interface) : Prop where
  sourced : before.IsSourced → after.IsSourced
  sources : ∀ source ∈ before.sources, source ∈ after.sources

namespace Adds

theorem refl (interface : Interface) : Adds interface interface :=
  ⟨id, fun _ => id⟩

theorem trans (hfirst : Adds first second) (hsecond : Adds second third) :
    Adds first third where
  sourced hsourced := hsecond.sourced (hfirst.sourced hsourced)
  sources source hsource := hsecond.sources source (hfirst.sources source hsource)

/-- What each step of a fold adds to is added to by the fold. -/
theorem foldlM {α : Type} {step : Interface → α → Except Occurrence Interface}
    {values : List α} {source : String} (hsource : source ∈ first.sources)
    (hstep : ∀ value ∈ values, ∀ before after, source ∈ before.sources →
      step before value = .ok after → Adds before after)
    (hfold : values.foldlM step first = .ok second) : Adds first second := by
  apply Except.foldlM_induction (Adds first) (.refl first) ?_ hfold
  intro value hvalue before after hbefore hrun
  exact hbefore.trans
    (hstep value hvalue before after (hbefore.sources source hsource) hrun)

end Adds

theorem isSourced_empty : empty.IsSourced where
  imports hget := by cases hget
  stars source hsource := absurd hsource List.not_mem_nil

section Operations

variable {source : String} {name : ImportedName}

theorem adds_addSource (source : String) :
    Adds interface (interface.addSource source) where
  sourced hsourced :=
    ⟨fun hget => mem_pushNew.mpr (.inl (hsourced.imports hget)),
      fun star hstar => mem_pushNew.mpr (.inl (hsourced.stars star hstar))⟩
  sources _ hsource := mem_pushNew.mpr (.inl hsource)

theorem mem_sources_addSource :
    source ∈ (interface.addSource source).sources :=
  mem_pushNew.mpr (.inr rfl)

theorem adds_addStar (hsource : source ∈ interface.sources) :
    Adds interface (interface.addStar source) where
  sourced hsourced :=
    ⟨hsourced.imports, fun star hstar =>
      (mem_pushNew.mp hstar).elim (hsourced.stars star) (· ▸ hsource)⟩
  sources _ := id

theorem adds_addExport (exported localName : String) (span : Span) :
    Adds interface (interface.addExport exported localName span) where
  sourced hsourced := ⟨hsourced.imports, hsourced.stars⟩
  sources _ := id

/-- An import of a listed source may be inserted. -/
theorem adds_insertImport (hsource : source ∈ interface.sources)
    (key : String) (span : Span) :
    Adds interface { interface with
      imports := interface.imports.insert key ⟨source, name, span⟩ } where
  sourced hsourced := by
    refine ⟨fun {asked imported} hget => ?_, hsourced.stars⟩
    rw [NameMap.get?_insert] at hget
    split at hget
    · rw [← Option.some.inj hget]
      exact hsource
    · exact hsourced.imports hget
  sources _ := id

theorem adds_addImport (hsource : source ∈ first.sources)
    (bound : Occurrence) (hadd : first.addImport source name bound = .ok second) :
    Adds first second := by
  rw [addImport] at hadd
  split at hadd
  · cases hadd
  · obtain rfl := Except.ok.inj hadd
    exact adds_insertImport hsource bound.name bound.span

theorem adds_addImports (hsource : source ∈ first.sources) (pattern : Node)
    (hadd : first.addImports source name pattern = .ok second) :
    Adds first second :=
  Adds.foldlM hsource
    (fun bound _ _ _ hbefore => adds_addImport hbefore bound) hadd

theorem adds_passOn (hsource : source ∈ interface.sources)
    (exported : String) (span : Span) :
    Adds interface (interface.passOn source name exported span) :=
  (adds_insertImport hsource (passedOnKey source name) span).trans
    (adds_addExport exported (passedOnKey source name) span)

theorem adds_addImportItem (hsource : source ∈ first.sources) (item : Node)
    (hadd : first.addImportItem source item = .ok second) :
    Adds first second := by
  rw [addImportItem] at hadd
  split at hadd
  · exact adds_addImports hsource _ hadd
  · obtain rfl := Except.ok.inj hadd
    exact .refl first

/-- Adds the names that the clause of an import statement binds. -/
def addClause (interface : Interface) (names : Option (ImportNames Node))
    (source : String) : Except Occurrence Interface :=
  match names with
  | none => .ok interface
  | some (.all asName) => interface.addImports source .allExports asName
  | some (.items items) => items.foldlM (·.addImportItem source ·) interface

/-- An import statement lists its source and binds names to imports of it. -/
theorem adds_addImportStatement {defaultName : Option Node}
    {names : Option (ImportNames Node)}
    (hadd : first.addImportStatement defaultName names source = .ok second) :
    Adds first second ∧ source ∈ second.sources := by
  have hlisted : source ∈ (first.addSource source).sources :=
    mem_sources_addSource
  obtain ⟨between, hbetween, hnames⟩ : ∃ between,
      Adds (first.addSource source) between ∧
      between.addClause names source = .ok second := by
    cases defaultName with
    | none => exact ⟨_, .refl _, hadd⟩
    | some pattern =>
        obtain ⟨between, hdefault, hnames⟩ := Except.bind_eq_ok_iff.mp hadd
        exact ⟨between, adds_addImports hlisted pattern hdefault, hnames⟩
  have hstill := hbetween.sources source hlisted
  have hsecond : Adds between second := by
    cases names with
    | none =>
        obtain rfl := Except.ok.inj hnames
        exact .refl _
    | some names =>
        cases names with
        | all asName => exact adds_addImports hstill asName hnames
        | items items =>
            exact Adds.foldlM hstill
              (fun item _ _ _ hbefore => adds_addImportItem hbefore item)
              hnames
  exact ⟨((adds_addSource source).trans hbetween).trans hsecond,
    hsecond.sources source hstill⟩

theorem adds_addExportItem (source : Option String) (item : Node)
    (hsource : ∀ listed ∈ source, listed ∈ interface.sources) :
    Adds interface (interface.addExportItem source item) := by
  unfold addExportItem
  split
  · exact adds_addExport _ _ _
  · exact adds_passOn (hsource _ rfl) _ _
  · exact .refl interface

theorem adds_addExportItems (items : List Node) (source : Option String) :
    Adds interface (interface.addExportItems items source) := by
  have hitems : ∀ start : Interface,
      (∀ listed ∈ source, listed ∈ start.sources) →
      Adds start (items.foldl (·.addExportItem source ·) start) :=
    fun start hstart => List.foldlRecOn items _ (.refl start)
      fun later hlater item _ => hlater.trans (adds_addExportItem source item
        fun listed hlisted => hlater.sources listed (hstart listed hlisted))
  unfold addExportItems
  cases source with
  | none => exact hitems interface (by simp)
  | some source =>
      refine (adds_addSource source).trans (hitems _ ?_)
      rintro _ ⟨⟩
      exact mem_sources_addSource

theorem adds_addExportAll (asName : Option ClauseName) (source : String)
    (span : Span) :
    Adds interface (interface.addExportAll asName source span) := by
  apply (adds_addSource source).trans
  cases asName with
  | none => exact adds_addStar mem_sources_addSource
  | some asName =>
      exact adds_passOn mem_sources_addSource asName.text span

theorem adds_addDeclaration (isDefault : Bool) (declaration : Node) :
    Adds interface (interface.addDeclaration isDefault declaration) := by
  unfold addDeclaration
  split
  iterate 2
    split
    · exact .refl interface
    · exact adds_addExport _ _ _
  · exact List.foldlRecOn _ _ (.refl interface) fun _ hlater bound _ =>
      hlater.trans (adds_addExport bound.name bound.name bound.span)
  · exact .refl interface

/-- A statement adds to the interface, and if it is an import its source is
listed. -/
theorem adds_addStatement {text : List Char} {statement : Node}
    {kind : StatementKind}
    (hadd : first.addStatement text statement = .ok (kind, second)) :
    Adds first second ∧ ∀ source isBare, kind = .importing source isBare →
      source ∈ second.sources := by
  unfold addStatement at hadd
  split at hadd
  · obtain ⟨between, hstatement, hadd⟩ := Except.bind_eq_ok_iff.mp hadd
    obtain ⟨rfl, rfl⟩ := Prod.mk.inj (Except.ok.inj hadd)
    obtain ⟨hadds, hlisted⟩ := adds_addImportStatement hstatement
    refine ⟨hadds, ?_⟩
    rintro source isBare hkind
    rw [← (StatementKind.importing.inj hkind).1]
    exact hlisted
  all_goals
    obtain ⟨rfl, rfl⟩ := Prod.mk.inj (Except.ok.inj hadd)
    refine ⟨?_, fun _ _ hkind => by cases hkind⟩
  · exact adds_addExportItems _ _
  · exact adds_addExportAll _ _ _
  · exact adds_addExport _ _ _
  · exact adds_addDeclaration _ _
  · exact .refl first

end Operations

/-- The interface of a module is sourced, and lists the sources of its import
statements. -/
theorem isSourced_ofStatements {text : List Char} {statements : List Node}
    {kinds : List StatementKind}
    (hstatements : ofStatements text statements = .ok (kinds, interface)) :
    interface.IsSourced ∧ ∀ source isBare,
      .importing source isBare ∈ kinds → source ∈ interface.sources := by
  rw [ofStatements] at hstatements
  obtain ⟨⟨reversed, _⟩, hfold, hresult⟩ :=
    Except.bind_eq_ok_iff.mp hstatements
  obtain ⟨rfl, rfl⟩ := Prod.mk.inj (Except.ok.inj hresult)
  simp only [List.mem_reverse]
  refine Except.foldlM_induction
    (fun state : List StatementKind × Interface => state.2.IsSourced ∧
      ∀ source isBare, .importing source isBare ∈ state.1 →
        source ∈ state.2.sources)
    ⟨isSourced_empty, by simp⟩ ?_ hfold
  rintro statement _ ⟨kinds, before⟩ _ ⟨hsourced, hlisted⟩ hstep
  obtain ⟨⟨kind, after⟩, hadd, hstep⟩ := Except.bind_eq_ok_iff.mp hstep
  obtain rfl := Except.ok.inj hstep
  obtain ⟨hadds, hkind⟩ := adds_addStatement hadd
  refine ⟨hadds.sourced hsourced, fun source isBare hmem => ?_⟩
  rcases List.mem_cons.mp hmem with hnew | hold
  · exact hkind source isBare hnew.symm
  · exact hadds.sources source (hlisted source isBare hold)

end Interface

end Bundler
