import Bundler.Proofs.Analysis.Definers
import Bundler.Proofs.Build.Claims
import Bundler.Proofs.Build.Kept

/-!
# Unique names

Among the claims to a name, all but the last are given fresh names, one after the
other.  A fresh name is none that is wanted, none of a function or block, and none
that was given before.  So in the end no two claims are granted the same name, and
the last claim to a name keeps it.
-/

namespace Bundler

namespace Renaming

/-- The claims that lose the names they want, in the order in which other names
are given to them. -/
def losersOf (occupancy : Occupancy) : List Claim :=
  occupancy.entries.flatMap fun wanted =>
    wanted.2.dropLast.map fun occupant => (wanted.1, occupant)

/-- Gives a claim another name. -/
def renameClaim (state : Renaming) (claim : Claim) : Renaming :=
  state.rename claim.1 claim.2

theorem foldl_renameOthers (occupancy : Occupancy) (state : Renaming) :
    occupancy.entries.foldl renameOthers state =
      (losersOf occupancy).foldl renameClaim state := by
  rw [losersOf, List.foldl_flatMap]
  simp only [List.foldl_map]
  rfl

variable {claims losers : List Claim} {base : List String} {state : Renaming}
  {claim other : Claim}

/-- All claims to a name lose it but for the last. -/
theorem mem_losersOf :
    claim ∈ losersOf (.ofClaims claims) ↔
      claim ∈ (Occupancy.rivals claims claim.1).dropLast := by
  have hrivals : claim ∈ (Occupancy.rivals claims claim.1).dropLast ↔
      claim.2 ∈ ((Occupancy.rivals claims claim.1).map (·.2)).dropLast := by
    rw [← List.map_dropLast, List.mem_map]
    constructor
    · exact fun hclaim => ⟨claim, hclaim, rfl⟩
    · rintro ⟨other, hother, hsame⟩
      have hname : other.1 = claim.1 :=
        (Occupancy.mem_rivals.mp (List.dropLast_subset _ hother)).2
      rwa [Prod.ext hname hsame] at hother
  rw [hrivals, ← Occupancy.get?_ofClaims, losersOf, List.mem_flatMap]
  constructor
  · rintro ⟨⟨name, group⟩, hentry, hclaim⟩
    obtain ⟨occupant, hoccupant, rfl⟩ := List.mem_map.mp hclaim
    rw [(NameMap.mem_entries_iff Occupancy.nodup_keys_ofClaims).mp hentry]
    exact hoccupant
  · intro hclaim
    cases hgroup : (Occupancy.ofClaims claims).get? claim.1 with
    | none => simp [hgroup] at hclaim
    | some group =>
        rw [hgroup] at hclaim
        exact ⟨(claim.1, group),
          (NameMap.mem_entries_iff Occupancy.nodup_keys_ofClaims).mpr hgroup,
          List.mem_map.mpr ⟨claim.2, hclaim, rfl⟩⟩

theorem mem_of_mem_losersOf (hloser : claim ∈ losersOf (.ofClaims claims)) :
    claim ∈ claims :=
  (Occupancy.mem_rivals.mp
    (List.dropLast_subset _ (mem_losersOf.mp hloser))).1

/-- The claim that does not lose a name is the last one to it. -/
theorem notMem_losersOf (hclaim : claim ∈ claims) :
    claim ∉ losersOf (.ofClaims claims) ↔
      (Occupancy.rivals claims claim.1).getLast? = some claim := by
  have hrival : claim ∈ Occupancy.rivals claims claim.1 :=
    Occupancy.mem_rivals.mpr ⟨hclaim, rfl⟩
  have hnodup : (Occupancy.rivals claims claim.1).Nodup :=
    Occupancy.nodup_rivals
  rw [mem_losersOf]
  generalize Occupancy.rivals claims claim.1 = rivals at hrival hnodup ⊢
  rcases List.eq_nil_or_concat' rivals with rfl | ⟨others, last, rfl⟩
  · exact absurd hrival List.not_mem_nil
  · rw [List.dropLast_concat, List.getLast?_concat, Option.some_inj]
    constructor
    · intro hnot
      exact (List.mem_singleton.mp
        ((List.mem_append.mp hrival).resolve_left hnot)).symm
    · rintro rfl hmem
      exact (List.disjoint_of_nodup_append hnodup) hmem
        List.mem_cons_self

/-- If unknown names come last among the claims, they are never lost. -/
theorem ne_unknown_of_mem_losersOf
    (hlast : claims.Pairwise
      fun first second => first.2 = .unknown → second.2 = .unknown)
    (hloser : claim ∈ losersOf (.ofClaims claims)) : claim.2 ≠ .unknown := by
  intro hunknown
  have hrivals : (Occupancy.rivals claims claim.1).Pairwise
      fun first second => first.2 = .unknown → second.2 = .unknown :=
    hlast.sublist (List.filter_sublist.trans (eraseDups_sublist claims))
  have hnames : ∀ other ∈ Occupancy.rivals claims claim.1,
      other.1 = claim.1 := fun other hother =>
    (Occupancy.mem_rivals.mp hother).2
  have hnodup : (Occupancy.rivals claims claim.1).Nodup :=
    Occupancy.nodup_rivals
  rw [mem_losersOf] at hloser
  generalize Occupancy.rivals claims claim.1 = rivals
    at hloser hrivals hnames hnodup
  rcases List.eq_nil_or_concat' rivals with rfl | ⟨others, last, rfl⟩
  · exact absurd hloser List.not_mem_nil
  · rw [List.dropLast_concat] at hloser
    have hlastUnknown : last.2 = .unknown :=
      (List.pairwise_append.mp hrivals).2.2 claim hloser last
        List.mem_cons_self hunknown
    have hlastName : last.1 = claim.1 :=
      hnames last (List.mem_append_right _ List.mem_cons_self)
    have hsame : last = claim :=
      Prod.ext hlastName (hlastUnknown.trans hunknown.symm)
    exact List.disjoint_of_nodup_append hnodup hloser
      (hsame ▸ List.mem_cons_self)

theorem granted_renameClaim (hknown : claim.2 ≠ .unknown) :
    (renameClaim state claim).names.granted claim =
      Identifier.freeName state.taken ("_" ++ claim.1) := by
  obtain ⟨wanted, occupant⟩ := claim
  cases occupant with
  | binding path name =>
      exact Names.written_rename.trans (if_pos ⟨rfl, rfl⟩)
  | external specifier =>
      exact Names.writtenExternal_renameExternal.trans (if_pos rfl)
  | unknown => exact absurd rfl hknown

theorem granted_renameClaim_of_ne (hother : other.2 ≠ claim.2) :
    (renameClaim state claim).names.granted other =
      state.names.granted other := by
  obtain ⟨wanted, occupant⟩ := claim
  cases occupant with
  | binding path name => exact Names.granted_rename hother
  | external specifier => exact Names.granted_renameExternal hother
  | unknown => rfl

/-- Some of the claims have lost the names they wanted: they are granted fresh
names that differ from each other, and the others what they want. -/
structure Settles (claims : List Claim) (base : List String)
    (losers : List Claim) (state : Renaming) : Prop where
  taken : ∀ name ∈ base, name ∈ state.taken
  given : ∀ claim ∈ losers, state.names.granted claim ∈ state.taken
  fresh : ∀ claim ∈ losers, state.names.granted claim ∉ base
  apart : ∀ claim ∈ losers, ∀ other ∈ losers, claim ≠ other →
    state.names.granted claim ≠ state.names.granted other
  kept : ∀ claim ∈ claims, claim ∉ losers →
    state.names.granted claim = claim.1

section Step

variable (hdistinct : ∀ claim ∈ claims, ∀ other ∈ claims,
  claim.2 = other.2 → claim.2 ≠ .unknown → claim = other)
include hdistinct

/-- The next claim that loses its name is granted one that nobody has. -/
theorem Settles.renameClaim (hsettles : state.Settles claims base losers)
    (hwithin : ∀ loser ∈ losers, loser ∈ claims)
    (hclaim : claim ∈ claims) (hknown : claim.2 ≠ .unknown) :
    (state.renameClaim claim).Settles claims base (losers ++ [claim]) := by
  have hgranted : (state.renameClaim claim).names.granted claim =
      Identifier.freeName state.taken ("_" ++ claim.1) :=
    granted_renameClaim hknown
  have hfree := Identifier.freeName_notMem state.taken ("_" ++ claim.1)
  rw [← hgranted] at hfree
  have hsame : ∀ other ∈ claims, other ≠ claim →
      (state.renameClaim claim).names.granted other =
        state.names.granted other := fun other hother hdiffers =>
    granted_renameClaim_of_ne fun hsame =>
      hdiffers (hdistinct claim hclaim other hother hsame.symm hknown).symm
  have htaken : (state.renameClaim claim).taken =
      (state.renameClaim claim).names.granted claim :: state.taken := by
    rw [hgranted]
    rfl
  -- What was given before is taken, so it differs from what is given now.
  have hold : ∀ loser ∈ losers, loser ≠ claim →
      (state.renameClaim claim).names.granted loser ≠
        (state.renameClaim claim).names.granted claim := by
    intro loser hloser hdiffers heq
    rw [hsame loser (hwithin loser hloser) hdiffers] at heq
    exact hfree (heq ▸ hsettles.given loser hloser)
  have hcases : ∀ loser ∈ losers ++ [claim],
      loser = claim ∨ loser ∈ losers ∧ loser ≠ claim := by
    intro loser hloser
    by_cases hthis : loser = claim
    · exact .inl hthis
    · exact .inr ⟨(List.mem_append.mp hloser).resolve_right
        fun hlast => hthis (List.mem_singleton.mp hlast), hthis⟩
  constructor
  · intro name hname
    rw [htaken]
    exact List.mem_cons_of_mem _ (hsettles.taken name hname)
  · intro loser hloser
    rw [htaken]
    rcases hcases loser hloser with rfl | ⟨hloser, hdiffers⟩
    · exact List.mem_cons_self
    · rw [hsame loser (hwithin loser hloser) hdiffers]
      exact List.mem_cons_of_mem _ (hsettles.given loser hloser)
  · intro loser hloser
    rcases hcases loser hloser with rfl | ⟨hloser, hdiffers⟩
    · exact fun hbase => hfree (hsettles.taken _ hbase)
    · rw [hsame loser (hwithin loser hloser) hdiffers]
      exact hsettles.fresh loser hloser
  · intro first hfirst second hsecond hdiffers
    rcases hcases first hfirst with rfl | ⟨hfirst, hother⟩
    · rcases hcases second hsecond with rfl | ⟨hsecond, hother⟩
      · exact absurd rfl hdiffers
      · exact (hold second hsecond hother).symm
    · rcases hcases second hsecond with heq | ⟨hsecond, hthis⟩
      · rw [heq]
        exact hold first hfirst hother
      · rw [hsame first (hwithin first hfirst) hother,
          hsame second (hwithin second hsecond) hthis]
        exact hsettles.apart first hfirst second hsecond hdiffers
  · intro other hother hkept
    rw [List.mem_append, List.mem_singleton, not_or] at hkept
    rw [hsame other hother hkept.2]
    exact hsettles.kept other hother hkept.1

theorem Settles.foldl {later : List Claim}
    (hsettles : state.Settles claims base losers)
    (hwithin : ∀ loser ∈ losers ++ later, loser ∈ claims)
    (hknown : ∀ loser ∈ later, loser.2 ≠ .unknown) :
    (later.foldl Renaming.renameClaim state).Settles claims base
      (losers ++ later) := by
  induction later generalizing losers state with
  | nil => simpa using hsettles
  | cons claim later ih =>
      have hfirst : (state.renameClaim claim).Settles claims base
          (losers ++ [claim]) :=
        hsettles.renameClaim hdistinct
          (fun loser hloser => hwithin loser (List.mem_append_left _ hloser))
          (hwithin claim (List.mem_append_right _ List.mem_cons_self))
          (hknown claim List.mem_cons_self)
      rw [List.append_cons] at hwithin ⊢
      exact ih hfirst hwithin
        fun loser hloser => hknown loser (List.mem_cons_of_mem _ hloser)

end Step

section Settled

variable (hsettles : state.Settles claims (Occupancy.ofClaims claims).keys
  (losersOf (.ofClaims claims)))
include hsettles

/-- Once all is settled, just the last claim to a name keeps it. -/
theorem Settles.granted_eq_iff (hclaim : claim ∈ claims) :
    state.names.granted claim = claim.1 ↔
      (Occupancy.rivals claims claim.1).getLast? = some claim := by
  rw [← notMem_losersOf hclaim]
  constructor
  · intro hkeeps hloser
    apply hsettles.fresh claim hloser
    rw [hkeeps]
    exact Occupancy.mem_keys_ofClaims.mpr ⟨claim, hclaim, rfl⟩
  · exact hsettles.kept claim hclaim

/-- Once all is settled, no two claims are granted the same name. -/
theorem Settles.granted_ne (hclaim : claim ∈ claims) (hother : other ∈ claims)
    (hdiffers : claim ≠ other) :
    state.names.granted claim ≠ state.names.granted other := by
  -- A name that is kept is wanted, and no fresh name is.
  have hkept : ∀ first ∈ losersOf (.ofClaims claims), ∀ second ∈ claims,
      second ∉ losersOf (.ofClaims claims) →
        state.names.granted first ≠ state.names.granted second := by
    intro first hfirst second hsecond hwins heq
    apply hsettles.fresh first hfirst
    rw [heq, hsettles.kept second hsecond hwins]
    exact Occupancy.mem_keys_ofClaims.mpr ⟨second, hsecond, rfl⟩
  by_cases hfirst : claim ∈ losersOf (.ofClaims claims)
  · by_cases hsecond : other ∈ losersOf (.ofClaims claims)
    · exact hsettles.apart claim hfirst other hsecond hdiffers
    · exact hkept claim hfirst other hother hsecond
  · by_cases hsecond : other ∈ losersOf (.ofClaims claims)
    · exact (hkept other hsecond claim hclaim hfirst).symm
    · rw [hsettles.kept claim hclaim hfirst,
        hsettles.kept other hother hsecond]
      intro hname
      rw [notMem_losersOf hclaim] at hfirst
      rw [notMem_losersOf hother, ← hname, hfirst] at hsecond
      exact hdiffers (Option.some.inj hsecond)

end Settled

end Renaming

namespace Names

variable {context : NameContext} {names : Names}

/-- What settling conflicts grants to the claims of a context. -/
theorem deconflict_settles (hproper : context.IsProper)
    (hsame : initial.SameWritten names) :
    ∃ taken, Renaming.Settles (context.claims names)
      (Occupancy.ofClaims (context.claims names)).keys
      (Renaming.losersOf (.ofClaims (context.claims names)))
      ⟨names.deconflict context, taken⟩ := by
  have hrecords := Settling.records_collect hproper hsame
  rw [deconflict, hrecords.occupancy, Renaming.foldl_renameOthers]
  generalize context.modules.flatMap (·.tree.nestedNames) = nested
  have hstart : Renaming.Settles (context.claims names)
      (Occupancy.ofClaims (context.claims names)).keys []
      ⟨(Settling.collect context names).names,
        (Occupancy.ofClaims (context.claims names)).keys ++ nested⟩ :=
    { taken := fun name hname => List.mem_append_left nested hname
      given := by simp
      fresh := by simp
      apart := by simp
      kept := fun claim hclaim _ => hrecords.granted claim hclaim }
  refine ⟨_, hstart.foldl ?_ ?_ ?_⟩
  · exact fun claim hclaim other hother =>
      NameContext.claim_eq_of_same hproper.once hclaim hother
  · exact fun claim => Renaming.mem_of_mem_losersOf
  · exact fun claim => Renaming.ne_unknown_of_mem_losersOf
      (NameContext.pairwise_claims context names)

/-- Settling conflicts leaves what was suggested. -/
theorem sameSuggested_deconflict (hproper : context.IsProper)
    (hsame : initial.SameWritten names) :
    names.SameSuggested (names.deconflict context) := by
  have hrecords := Settling.records_collect hproper hsame
  rw [deconflict, hrecords.occupancy, Renaming.foldl_renameOthers]
  refine List.foldlRecOn _ Renaming.renameClaim
    (motive := fun later : Renaming => names.SameSuggested later.names)
    hrecords.suggested fun later hlater claim _ => hlater.trans ?_
  obtain ⟨wanted, occupant⟩ := claim
  cases occupant with
  | binding path name => exact sameSuggested_rename
  | external specifier => exact sameSuggested_renameExternal
  | unknown => exact .refl later.names

end Names

namespace NameContext

/-- The claims of a context depend on suggestions only. -/
theorem claims_eq {names later : Names} (hsame : names.SameSuggested later)
    (context : NameContext) : context.claims later = context.claims names := by
  have hmodules :
      context.moduleClaims later = context.moduleClaims names := by
    funext module
    simp only [moduleClaims, Names.initialName_eq hsame]
  simp only [claims, hmodules, Names.preferredExternal_eq hsame]

end NameContext

namespace Bundle

/-- What settled the names of a bundle. -/
def nameContext (bundle : Bundle) : NameContext :=
  { modules := bundle.modules
    statements := withContents bundle.modules bundle.statements
    namespaces := bundle.namespaces.map (·.1)
    externals := bundle.externals }

/-- The claims to names of a bundle in the order in which they come up. -/
def claims (bundle : Bundle) : List Claim :=
  (bundle.nameContext.claims bundle.names).eraseDups

theorem mem_withContents {modules : List Module} {included : List StatementId}
    {found : Module × Statement} :
    found ∈ withContents modules included ↔
      ∃ id, found.1 ∈ modules ∧ (found.1.path, id) ∈ included ∧
        found.1.statements[id]? = some found.2 := by
  simp only [withContents, List.mem_flatMap, List.mem_filterMap, mem_keptIn,
    Option.map_eq_some_iff]
  constructor
  · rintro ⟨module, hmodule, id, hincluded, statement, hstatement, rfl⟩
    exact ⟨id, hmodule, hincluded, hstatement⟩
  · rintro ⟨id, hmodule, hincluded, hstatement⟩
    exact ⟨found.1, hmodule, id, hincluded, found.2, hstatement, rfl⟩

/-- All that stands at the top level of a bundle claims its initial name: what the
kept statements define, default slots among it, the objects that are used, the
modules that are not bundled, and the names that a kept statement reads or refers
to and its module does not know. -/
structure ClaimsAll (bundle : Bundle) : Prop where
  definition : ∀ module ∈ bundle.modules, ∀ id statement,
    (module.path, id) ∈ bundle.statements →
    module.statements[id]? = some statement →
    ∀ name ∈ statement.defines,
      (bundle.names.initialName module name, .binding module.path name) ∈
        bundle.claims
  object : ∀ module ∈ bundle.modules,
    module.path ∈ bundle.namespaces.map (·.1) →
      (bundle.names.initialName module namespaceSlot,
        .binding module.path namespaceSlot) ∈ bundle.claims
  external : ∀ specifier ∈ bundle.externals,
    (bundle.names.preferredExternal specifier, .external specifier) ∈
      bundle.claims
  unknown : ∀ module ∈ bundle.modules, ∀ id statement,
    (module.path, id) ∈ bundle.statements →
    module.statements[id]? = some statement →
    ∀ name, name ∈ statement.dependsOn ∨
        name ∈ statement.references.map (·.name) →
      module.imports.contains name = false →
      module.definitions.contains name = false →
        (name, .unknown) ∈ bundle.claims

theorem mem_claims_iff {bundle : Bundle} {claim : Claim} :
    claim ∈ bundle.claims ↔
      claim ∈ bundle.nameContext.claims bundle.names := List.mem_eraseDups

section Assembled

variable {bundle : Bundle} {entry : Module} {walk : ModuleWalk}
  {shaker : Shaker} (hfaithful : bundle.loader.IsFaithful)
  (hassembled : bundle.IsAssembled entry walk shaker)
include hfaithful hassembled

theorem IsAssembled.nameContext_eq :
    bundle.nameContext = contextOf walk shaker := by
  have honce := (hassembled.isPostorder hfaithful).once
  have hnodup := (hassembled.isSound hfaithful).nodup
  rw [hassembled.modules] at honce
  have hstatements : withContents walk.modules
      (inOrder walk.modules shaker.included) =
        withContents walk.modules shaker.included := by
    simp only [withContents, List.flatMap_def]
    congr 1
    apply List.map_congr_left
    intro module hmodule
    rw [keptIn_inOrder hnodup honce hmodule]
  rw [nameContext, contextOf, hassembled.modules, hassembled.statements,
    hassembled.namespaces, hassembled.externals, hstatements]

theorem IsAssembled.isProper : bundle.nameContext.IsProper where
  once := (hassembled.isPostorder hfaithful).once
  plain found hfound := by
    obtain ⟨id, hmodule, _, hstatement⟩ := mem_withContents.mp hfound
    exact Module.namespaceSlot_notMem_defines hfaithful
      (hassembled.module_loaded hfaithful hmodule)
      (List.mem_of_getElem? hstatement)

/-- What a bundle grants to the claims to its names. -/
theorem IsAssembled.settles (hproper : bundle.nameContext.IsProper) :
    ∃ taken, Renaming.Settles (bundle.nameContext.claims bundle.names)
      (Occupancy.ofClaims (bundle.nameContext.claims bundle.names)).keys
      (Renaming.losersOf (.ofClaims
        (bundle.nameContext.claims bundle.names)))
      ⟨bundle.names, taken⟩ := by
  have hwritten : Names.initial.SameWritten shaker.names :=
    (Shaking.shake_does hfaithful hassembled.loaded
      hassembled.shaken).2.1.written
  have hsettled : bundle.names =
      shaker.names.deconflict bundle.nameContext := by
    rw [hassembled.nameContext_eq hfaithful]
    exact hassembled.settled
  have hclaims : bundle.nameContext.claims bundle.names =
      bundle.nameContext.claims shaker.names := by
    rw [hsettled]
    exact NameContext.claims_eq
      (Names.sameSuggested_deconflict hproper hwritten) _
  rw [hclaims, hsettled]
  exact Names.deconflict_settles hproper hwritten

theorem IsAssembled.claimsAll : bundle.ClaimsAll where
  definition module hmodule id statement hkept hstatement name hname := by
    rw [mem_claims_iff]
    apply NameContext.mem_claims_of_module hmodule
    refine List.mem_map.mpr ⟨name, List.mem_append_left _ ?_, rfl⟩
    refine List.mem_flatMap.mpr ⟨(module, statement), ?_, hname⟩
    exact List.mem_filter.mpr ⟨mem_withContents.mpr
      ⟨id, hmodule, hkept, hstatement⟩, decide_eq_true rfl⟩
  object module hmodule hused := by
    rw [mem_claims_iff]
    apply NameContext.mem_claims_of_module hmodule
    refine List.mem_map.mpr ⟨namespaceSlot, List.mem_append_right _ ?_, rfl⟩
    have hcontains : bundle.nameContext.namespaces.contains module.path =
        true := List.contains_iff_mem.mpr hused
    rw [if_pos hcontains]
    exact List.mem_singleton.mpr rfl
  external specifier hspecifier :=
    mem_claims_iff.mpr (NameContext.mem_claims_of_external hspecifier)
  unknown module hmodule id statement hkept hstatement name hname himported
      hdefined := by
    have hmember := List.mem_of_getElem? hstatement
    have hloaded := hassembled.module_loaded hfaithful hmodule
    have hreads : name ∈ statement.dependsOn := by
      refine hname.elim (fun hread => hread) fun hrefers => ?_
      obtain ⟨reference, hreference, rfl⟩ := List.mem_map.mp hrefers
      apply (Module.reads_or_declares hfaithful hloaded hmember
        hreference).resolve_right
      intro hdefines
      obtain ⟨first, hfirst⟩ :=
        (hfaithful.hasTables hloaded).isSome_get?_definitions hmember hdefines
      rw [NameMap.contains, hfirst] at hdefined
      cases hdefined
    have hcontent : (module, statement) ∈ bundle.nameContext.statements :=
      mem_withContents.mpr ⟨id, hmodule, hkept, hstatement⟩
    rw [mem_claims_iff]
    apply NameContext.mem_claims_of_unknown hcontent
    rw [NameContext.unknownNames, List.mem_filter]
    exact ⟨hreads, by rw [himported, hdefined]; rfl⟩

end Assembled

variable {files : Files} {resolver : Resolver} {options : BundleOptions}
  {path : Path} {bundle : Bundle}

/-- All that stands at the top level of a bundle claims a name, and what the
claims are granted differs.  Of several claims to one name just the last keeps it,
and one that has no rival is not renamed.  Unknown names keep what they are.
Looking for a free name comes to an end. -/
theorem names_unique
    (hbuild : build files resolver options path = .ok bundle) :
    bundle.ClaimsAll ∧
      (bundle.claims.map bundle.names.granted).Nodup ∧
      (∀ claim ∈ bundle.claims, bundle.names.granted claim = claim.1 ↔
        (bundle.claims.filter (·.1 = claim.1)).getLast? = some claim) ∧
      (∀ claim ∈ bundle.claims,
        (∀ other ∈ bundle.claims, other.1 = claim.1 → other = claim) →
          bundle.names.granted claim = claim.1) ∧
      ∀ taken name, ∃ count ≤ taken.length,
        Identifier.freeName taken name = ("_" ++ ·)^[count] name ∧
          Identifier.freeName taken name ∉ taken ∧
          ∀ fewer < count, ("_" ++ ·)^[fewer] name ∈ taken := by
  obtain ⟨hreachable, _, entry, walk, shaker, hassembled⟩ := build_eq_ok hbuild
  have hfaithful := hreachable.isFaithful
  obtain ⟨taken, hsettles⟩ :=
    hassembled.settles hfaithful (hassembled.isProper hfaithful)
  have hlast : ∀ claim ∈ bundle.claims,
      bundle.names.granted claim = claim.1 ↔
        (bundle.claims.filter (·.1 = claim.1)).getLast? = some claim :=
    fun claim hclaim => hsettles.granted_eq_iff (mem_claims_iff.mp hclaim)
  refine ⟨hassembled.claimsAll hfaithful, ?_, hlast, ?_,
    Identifier.freeName_spec⟩
  · apply (nodup_eraseDups _).map_on
    intro claim hclaim other hother heq
    by_contra hdiffers
    exact hsettles.granted_ne (mem_claims_iff.mp hclaim)
      (mem_claims_iff.mp hother) hdiffers heq
  · intro claim hclaim hrival
    have hrivals : claim ∈ bundle.claims.filter (·.1 = claim.1) :=
      List.mem_filter.mpr ⟨hclaim, decide_eq_true rfl⟩
    obtain ⟨last, hfound⟩ := Option.ne_none_iff_exists'.mp
      (mt List.getLast?_eq_none_iff.mp (List.ne_nil_of_mem hrivals))
    obtain ⟨hother, hname⟩ :=
      List.mem_filter.mp (List.mem_of_getLast? hfound)
    rw [hlast claim hclaim, hfound,
      hrival last hother (of_decide_eq_true hname)]

/-- Two modules that each declare `x`, one of them under an alias of the other. -/
def sameNames : Files := .ofList
  [(⟨"/a.js"⟩, "export let x = 1;"),
   (⟨"/m.js"⟩, "import \x7b x as y \x7d from './a';\nlet x = y();")]

theorem names_unique_shared :
    ∃ bundle, build sameNames .plain .standard ⟨"/m.js"⟩ = .ok bundle ∧
      bundle.claims = [("x", .binding ⟨"/a.js"⟩ "x"),
        ("x", .binding ⟨"/m.js"⟩ "x")] ∧
      bundle.claims.map bundle.names.granted = ["_x", "x"] ∧
      (bundle.claims.map bundle.names.granted).Nodup := by
  have hfacts : ((build sameNames .plain .standard
      ⟨"/m.js"⟩).toOption.any fun bundle =>
        decide (bundle.claims = [("x", .binding ⟨"/a.js"⟩ "x"),
          ("x", .binding ⟨"/m.js"⟩ "x")]) &&
        decide (bundle.claims.map bundle.names.granted = ["_x", "x"])) =
      true := by
    decide +kernel
  obtain ⟨bundle, hbuild, hfacts⟩ := Except.exists_of_any_toOption hfacts
  obtain ⟨hclaims, hgranted⟩ := Bool.and_eq_true_iff.mp hfacts
  exact ⟨bundle, hbuild, of_decide_eq_true hclaims, of_decide_eq_true hgranted,
    (names_unique hbuild).2.1⟩

end Bundle

end Bundler
