import Bundler.Proofs.Graph.Trails
import Mathlib.Data.Finset.Card
import Mathlib.Data.Finset.Prod

/-!
# The search for an export

The search answers with the first end of a trail, in the order of the numbers of
steps.  It keeps the places it has come by, and when it fails they are exhausted:
so to pass over them on behalf of a later star export is right, also if they
were given up before that star was tried.  If no trail ends, the export is
missing, and any other failure is that of a module which cannot be had.
-/

namespace Bundler

namespace BundleError

/-- The errors in a module by itself, found without a look at any other one. -/
def IsOwn : BundleError → Prop
  | .missingExport _ _ _ | .unsettled _ => False
  | _ => True

end BundleError

theorem Analysis.isOwn_of_ofProgram {path : Path} {source : String}
    {program : Program} {error : BundleError}
    (herror : ofProgram path source program = .error error) : error.IsOwn := by
  simp only [ofProgram, bind, Except.bind, Except.mapError, throw, throwThe,
    MonadExceptOf.throw, pure, Except.pure] at herror
  grind [BundleError.IsOwn]

theorem Module.isOwn_of_ofSource {resolver : Resolver} {path : Path}
    {source : String} {error : BundleError}
    (herror : ofSource resolver path source = .error error) : error.IsOwn := by
  simp only [ofSource, bind, Except.bind, Except.mapError, pure,
    Except.pure] at herror
  grind [BundleError.IsOwn, Analysis.isOwn_of_ofProgram]

namespace LinkFailure

/-- The failures to get a module. -/
inductive IsLoading : LinkFailure → Prop
  | unloaded (path : Path) : IsLoading (.unloaded path)
  | refused {error : BundleError} : error.IsOwn → IsLoading (.refused error)

theorem IsLoading.not_missing {failure : LinkFailure}
    (hloading : failure.IsLoading) : failure.isMissingExport = false := by
  cases hloading with
  | unloaded path => rfl
  | @refused error hown => cases error <;> first | rfl | exact hown.elim

end LinkFailure

namespace Loader

variable {loader : Loader} {path : Path} {module dependency : Module}
  {name source specifier : String} {failure : LinkFailure}

namespace IsFaithful

variable (hfaithful : loader.IsFaithful)
include hfaithful

theorem isLoading_of_module (herror : loader.module path = .error failure) :
    failure.IsLoading := by
  rw [Loader.module] at herror
  split at herror
  · cases herror
    exact .unloaded path
  · rename_i error hfind
    cases herror
    obtain ⟨entry, hentry, houtcome⟩ := Option.map_eq_some_iff.mp hfind
    have hread : loader.readModule entry.1 = .error error := by
      rw [← hfaithful entry (List.mem_of_find?_eq_some hentry), houtcome]
    rw [readModule] at hread
    split at hread
    · cases hread
      exact .refused trivial
    · exact .refused (Module.isOwn_of_ofSource hread)
  · cases herror

theorem isLoading_of_target
    (herror : loader.target module source = .error failure) :
    failure.IsLoading := by
  rw [Loader.target] at herror
  split at herror
  · rename_i path _
    cases hfound : loader.module path with
    | error other =>
        rw [hfound] at herror
        cases herror
        exact hfaithful.isLoading_of_module hfound
    | ok module =>
        rw [hfound] at herror
        cases herror
  · cases herror

/-- A module that a source leads to is found under its own path. -/
theorem module_of_target
    (htarget : loader.target module source = .ok (.internal dependency)) :
    loader.module dependency.path = .ok dependency := by
  obtain ⟨_, hfound⟩ := Loader.module_of_target htarget
  exact hfaithful.module_path hfound

end IsFaithful

/-- A module is in the way that cannot be had. -/
inductive Blocks (loader : Loader) : Path × String → LinkFailure → Prop
  | passOn {path : Path} {module : Module} {name : String}
      {exported : Export} {imported : Import} {failure : LinkFailure} :
      loader.module path = .ok module →
      module.exports.get? name = some exported →
      module.imports.get? exported.localName = some imported →
      loader.target module imported.source = .error failure →
      Blocks loader (path, name) failure
  | star {path : Path} {module : Module} {name source : String}
      {failure : LinkFailure} :
      loader.module path = .ok module → module.exports.get? name = none →
      name ≠ defaultSlot → source ∈ module.starSources →
      loader.target module source = .error failure →
      Blocks loader (path, name) failure

theorem Blocks.isLoading (hfaithful : loader.IsFaithful)
    {place : Path × String} (hblocks : loader.Blocks place failure) :
    failure.IsLoading := by
  cases hblocks with
  | passOn _ _ _ htarget => exact hfaithful.isLoading_of_target htarget
  | star _ _ _ _ htarget => exact hfaithful.isLoading_of_target htarget

/-- Steps lead from a place to another one. -/
def Leads (loader : Loader) : Path × String → Path × String → Prop :=
  Relation.ReflTransGen fun place next =>
    ∃ number, loader.Step place number next

/-- What a search from a place comes to that does not go by places met before:
the first end of a trail, or the exhaustion of what it comes by, or a module that
cannot be had. -/
inductive Explores (loader : Loader) (met : List (Path × String))
    (start : Path × String) :
    EStateM.Result LinkFailure (List (Path × String)) Binding → Prop
  | found {route : List Nat} {binding : Binding}
      {after : List (Path × String)} :
      loader.EndsFirst met start route binding →
      Explores loader met start (.ok binding after)
  | missing {failure : LinkFailure} {after : List (Path × String)} :
      failure.isMissingExport = true → loader.Exhausts met after →
      start ∈ after → Explores loader met start (.error failure after)
  | blocked {place : Path × String} {failure : LinkFailure}
      {after : List (Path × String)} :
      loader.Leads start place → loader.Blocks place failure →
      Explores loader met start (.error failure after)

section Equations

variable {find : Module → Search Binding} {missing : LinkFailure}
  {fallback : Option String} {sources : List String}
  {met : List (Path × String)}

theorem searchExport_succ (steps : Nat) (importer : Path) :
    loader.searchExport (steps + 1) module name importer met =
      let missing : LinkFailure :=
        .refused (.missingExport module.path importer name)
      if (module.path, name) ∈ met then .error missing met
      else
        match module.exports.get? name with
        | some exported => loader.followName (loader.searchExport steps) module
            exported.localName ((module.path, name) :: met)
        | none =>
            if name = defaultSlot then
              .error missing ((module.path, name) :: met)
            else loader.searchStars
              (fun dependency =>
                loader.searchExport steps dependency name module.path)
              module name missing none module.starSources
              ((module.path, name) :: met) := by
  have hmodify : (modify ((module.path, name) :: ·) : Search PUnit) met =
      .ok PUnit.unit ((module.path, name) :: met) := rfl
  rw [searchExport]
  dsimp only
  rw [Outcome.get_bind]
  by_cases hmet : (module.path, name) ∈ met
  · rw [if_pos hmet, if_pos (List.contains_iff_mem.mpr hmet)]
    rfl
  · rw [if_neg hmet, if_neg (by simpa using hmet)]
    refine (Outcome.bind_of_ok hmodify).trans ?_
    cases module.exports.get? name with
    | some exported => rfl
    | none =>
        dsimp only
        split <;> rfl

theorem searchStars_of_error
    (htarget : loader.target module source = .error failure) :
    loader.searchStars find module name missing fallback (source :: sources)
      met = .error failure met := by
  rw [searchStars]
  exact Outcome.bind_of_error (by rw [htarget]; rfl)

theorem searchStars_of_external
    (htarget : loader.target module source = .ok (.external specifier)) :
    loader.searchStars find module name missing fallback (source :: sources)
      met = loader.searchStars find module name missing
        (fallback.or (some specifier)) sources met := by
  have htargeted : Search.ofExcept (loader.target module source) met =
      .ok (.external specifier) met := by
    rw [htarget]
    rfl
  rw [searchStars]
  exact Outcome.bind_of_ok htargeted

theorem searchStars_of_internal
    (htarget : loader.target module source = .ok (.internal dependency)) :
    loader.searchStars find module name missing fallback (source :: sources)
      met =
      match find dependency met with
      | .ok binding after => .ok binding after
      | .error failure after =>
          if failure.isMissingExport then
            loader.searchStars find module name missing fallback sources after
          else .error failure after := by
  have htargeted : Search.ofExcept (loader.target module source) met =
      .ok (.internal dependency) met := by
    rw [htarget]
    rfl
  rw [searchStars, Outcome.bind_of_ok htargeted]
  dsimp only
  cases hfind : find dependency met with
  | ok binding after =>
      have hrun : Search.orMissing (find dependency) met =
          .ok (some binding) after := by simp only [Search.orMissing, hfind]
      rw [Outcome.bind_of_ok hrun]
      rfl
  | error failure after =>
      cases hmissing : failure.isMissingExport with
      | true =>
          have hrun : Search.orMissing (find dependency) met =
              .ok none after := by
            simp only [Search.orMissing, hfind, hmissing, if_true]
          rw [Outcome.bind_of_ok hrun]
          simp [hmissing]
      | false =>
          have hrun : Search.orMissing (find dependency) met =
              .error failure after := by
            simp only [Search.orMissing, hfind, hmissing, Bool.false_eq_true,
              if_false]
          rw [Outcome.bind_of_error hrun]
          simp [hmissing]

end Equations

section Stars

variable {met between : List (Path × String)} {sources done : List String}
  {place next : Path × String} {number : Nat} {binding : Binding}

/-- Where a module has no export of its own. -/
structure IsPassing (loader : Loader) (module : Module) (name : String) :
    Prop where
  loaded : loader.module module.path = .ok module
  absent : module.exports.get? name = none
  named : name ≠ defaultSlot

namespace IsPassing

variable (hpassing : loader.IsPassing module name)
include hpassing

theorem not_stops : ¬ loader.Stops (module.path, name) binding := by
  have hloaded := hpassing.loaded
  have habsent := hpassing.absent
  rintro ⟨⟩ <;> grind

theorem step_iff : loader.Step (module.path, name) number next ↔
    ∃ source dependency, module.starSources[number]? = some source ∧
      loader.target module source = .ok (.internal dependency) ∧
      next = (dependency.path, name) := by
  have hloaded := hpassing.loaded
  have habsent := hpassing.absent
  constructor
  · rintro (_ | ⟨⟨⟩⟩) <;> grind
  · rintro ⟨source, dependency, hsource, htarget, rfl⟩
    exact .star (.star hloaded habsent hpassing.named hsource htarget)

theorem fallsBack_iff :
    loader.FallsBack (module.path, name) number specifier ↔
      number = module.starSources.length ∧
        loader.externalStar? module = some specifier := by
  have hloaded := hpassing.loaded
  constructor
  · rintro ⟨hmodule, _, _, hstar⟩
    grind
  · rintro ⟨rfl, hstar⟩
    exact .outside hloaded hpassing.absent hpassing.named hstar

/-- The first star behind which a trail ends is that of the first end. -/
theorem endsFirst_star (hnew : (module.path, name) ∉ met)
    (hexhausts : loader.Exhausts ((module.path, name) :: met) between)
    (hsplit : done ++ source :: sources = module.starSources)
    (hdone : ∀ source ∈ done, ∀ dependency : Module,
      loader.target module source = .ok (.internal dependency) →
      (dependency.path, name) ∈ between)
    (htarget : loader.target module source = .ok (.internal dependency))
    {route : List Nat}
    (hfirst : loader.EndsFirst between (dependency.path, name) route binding) :
    loader.EndsFirst met (module.path, name) (done.length :: route)
      binding := by
  have hsource : module.starSources[done.length]? = some source := by
    rw [← hsplit, List.getElem?_append_right (Nat.le_refl _), Nat.sub_self]
    rfl
  constructor
  · exact .step hnew (hpassing.step_iff.mpr ⟨source, dependency, hsource,
      htarget, rfl⟩) (hfirst.ends.weaken hexhausts.subset)
  · intro other bound hother
    obtain ⟨_, ⟨_, hstops⟩ | ⟨number, _, hfalls, rfl, _⟩ |
      ⟨number, next, rest, hstep, rfl, hrest⟩⟩ := hother.start_cases
    · exact absurd hstops hpassing.not_stops
    · obtain ⟨rfl, _⟩ := hpassing.fallsBack_iff.mp hfalls
      exact List.cons_le_cons_iff.mpr
        (.inl (List.getElem?_eq_some_iff.mp hsource).1)
    · obtain ⟨earlier, found, hearlier, hfound, rfl⟩ :=
        hpassing.step_iff.mp hstep
      refine List.cons_le_cons_iff.mpr ?_
      rcases Nat.lt_trichotomy number done.length with hless | rfl | hlater
      · have hmem : earlier ∈ done := by
          rw [← hsplit, List.getElem?_append_left hless] at hearlier
          exact List.mem_of_getElem? hearlier
        exact absurd hrest
          (hexhausts.not_ends (hdone earlier hmem found hfound))
      · obtain rfl := Option.some.inj (hsource.symm.trans hearlier)
        obtain rfl := Target.internal.inj
          (Except.ok.inj (htarget.symm.trans hfound))
        exact .inr ⟨rfl, hfirst.first _ _ (hexhausts.avoids hrest)⟩
      · exact .inl hlater

theorem searchStars_explores (hfaithful : loader.IsFaithful)
    (hnew : (module.path, name) ∉ met) {find : Module → Search Binding}
    {missing : LinkFailure} (hmissing : missing.isMissingExport = true)
    (hfind : ∀ dependency : Module,
      loader.module dependency.path = .ok dependency →
      (∃ number, loader.Step (module.path, name) number
        (dependency.path, name)) →
      ∀ between, (module.path, name) :: met ⊆ between →
        loader.Explores between (dependency.path, name)
          (find dependency between))
    (hsplit : done ++ sources = module.starSources)
    (hexhausts : loader.Exhausts ((module.path, name) :: met) between)
    (hdone : ∀ source ∈ done, ∀ dependency : Module,
      loader.target module source = .ok (.internal dependency) →
      (dependency.path, name) ∈ between) :
    loader.Explores met (module.path, name)
      (loader.searchStars find module name missing
        (done.findSome? (loader.outside? module)) sources between) := by
  induction sources generalizing done between with
  | nil =>
      rw [List.append_nil] at hsplit
      subst hsplit
      have hall : ∀ number next,
          loader.Step (module.path, name) number next → next ∈ between := by
        intro number next hstep
        obtain ⟨source, dependency, hsource, htarget, rfl⟩ :=
          hpassing.step_iff.mp hstep
        exact hdone source (List.mem_of_getElem? hsource) dependency htarget
      cases hstar : module.starSources.findSome? (loader.outside? module) with
      | none =>
          refine .missing hmissing (hexhausts.close hall
            (fun _ => hpassing.not_stops) ?_)
            (hexhausts.subset List.mem_cons_self)
          intro number specifier hfalls
          have hfound := (hpassing.fallsBack_iff.mp hfalls).2
          rw [externalStar?, hstar] at hfound
          cases hfound
      | some specifier =>
          have hfalls : loader.FallsBack (module.path, name)
              module.starSources.length specifier :=
            hpassing.fallsBack_iff.mpr ⟨rfl, hstar⟩
          have hends : loader.Ends met (module.path, name)
              [module.starSources.length]
              (.external specifier (.named name)) :=
            .outside (.here hnew) hfalls
          refine .found ⟨hends, fun other bound hother => ?_⟩
          obtain ⟨_, ⟨_, hstops⟩ | ⟨number, _, hfalls, rfl, _⟩ |
            ⟨number, next, rest, hstep, rfl, hrest⟩⟩ := hother.start_cases
          · exact absurd hstops hpassing.not_stops
          · rw [(hpassing.fallsBack_iff.mp hfalls).1]
            exact List.le_refl _
          · exact absurd hrest (hexhausts.not_ends (hall number next hstep))
  | cons source sources ih =>
      have hnext : (done ++ [source]) ++ sources = module.starSources := by
        rw [← hsplit, List.append_assoc, List.singleton_append]
      have hsource : source ∈ module.starSources := by
        rw [← hsplit]
        simp
      have hothers : ∀ after, between ⊆ after →
          (∀ dependency : Module,
            loader.target module source = .ok (.internal dependency) →
            (dependency.path, name) ∈ after) →
          ∀ other ∈ done ++ [source], ∀ dependency : Module,
            loader.target module other = .ok (.internal dependency) →
            (dependency.path, name) ∈ after := by
        intro after hmore hlast other hother dependency htarget
        rcases List.mem_append.mp hother with hold | hnew
        · exact hmore (hdone other hold dependency htarget)
        · exact hlast dependency (List.mem_singleton.mp hnew ▸ htarget)
      cases htarget : loader.target module source with
      | error failure =>
          rw [searchStars_of_error htarget]
          exact .blocked .refl (.star hpassing.loaded hpassing.absent
            hpassing.named hsource htarget)
      | ok target =>
          cases target with
          | external specifier =>
              have hfallback : (done ++ [source]).findSome?
                  (loader.outside? module) =
                    (done.findSome? (loader.outside? module)).or
                      (some specifier) := by
                simp [List.findSome?_append, outside?, htarget]
              rw [searchStars_of_external htarget, ← hfallback]
              refine ih hnext hexhausts (hothers between
                (List.Subset.refl _) ?_)
              intro dependency hinternal
              rw [htarget] at hinternal
              cases hinternal
          | internal dependency =>
              have hloaded := hfaithful.module_of_target htarget
              have hindex : module.starSources[done.length]? =
                  some source := by
                rw [← hsplit, List.getElem?_append_right (Nat.le_refl _),
                  Nat.sub_self]
                rfl
              have hstep : loader.Step (module.path, name) done.length
                  (dependency.path, name) :=
                hpassing.step_iff.mpr
                  ⟨source, dependency, hindex, htarget, rfl⟩
              have hfallback : (done ++ [source]).findSome?
                  (loader.outside? module) =
                    done.findSome? (loader.outside? module) := by
                simp [List.findSome?_append, outside?, htarget]
              have hfound := hfind dependency hloaded ⟨_, hstep⟩ between
                hexhausts.subset
              rw [searchStars_of_internal htarget]
              generalize find dependency between = result at hfound
              cases hfound with
              | found hfirst =>
                  exact .found (hpassing.endsFirst_star hnew hexhausts hsplit
                    hdone htarget hfirst)
              | @missing failure after hmissing hmore hmem =>
                  simp only [hmissing, if_true]
                  rw [← hfallback]
                  refine ih hnext (hexhausts.trans hmore) (hothers after
                    hmore.subset ?_)
                  intro other hother
                  rw [htarget] at hother
                  obtain rfl := Target.internal.inj (Except.ok.inj hother)
                  exact hmem
              | blocked hleads hblocks =>
                  simp only [(hblocks.isLoading hfaithful).not_missing,
                    Bool.false_eq_true, if_false]
                  exact .blocked (.head ⟨_, hstep⟩ hleads) hblocks

end IsPassing

end Stars

section Own

variable {met : List (Path × String)} {exported : Export}

/-- Where there is one way on, a search comes to what it comes to there. -/
theorem Explores.of_only {start next : Path × String} {number : Nat}
    {result : EStateM.Result LinkFailure (List (Path × String)) Binding}
    (hnew : start ∉ met) (hstep : loader.Step start number next)
    (honly : ∀ other found, loader.Step start other found → other = number)
    (hstops : ∀ binding, ¬ loader.Stops start binding)
    (houtside : ∀ number specifier, ¬ loader.FallsBack start number specifier)
    (hexplores : loader.Explores (start :: met) next result) :
    loader.Explores met start result := by
  cases hexplores with
  | found hfirst =>
      refine .found ⟨hfirst.ends.step hnew hstep, fun other bound hother => ?_⟩
      obtain ⟨_, ⟨_, hstop⟩ | ⟨_, _, hfalls, _⟩ |
        ⟨other, found, rest, hfound, rfl, hrest⟩⟩ := hother.start_cases
      · exact absurd hstop (hstops bound)
      · exact absurd hfalls (houtside _ _)
      · obtain rfl := honly other found hfound
        obtain rfl := hstep.unique hfound
        exact List.cons_le_cons_iff.mpr
          (.inr ⟨rfl, hfirst.first rest bound hrest⟩)
  | missing hmissing hexhausts hmem =>
      refine .missing hmissing (hexhausts.close ?_ hstops houtside)
        (hexhausts.subset List.mem_cons_self)
      intro other found hother
      obtain rfl := honly other found hother
      exact hstep.unique hother ▸ hmem
  | blocked hleads hblocks =>
      exact .blocked (.head ⟨number, hstep⟩ hleads) hblocks

/-- What a module exports by its own account is what stands behind its local
name. -/
theorem followName_explores
    (hmodule : loader.module module.path = .ok module)
    (hexported : module.exports.get? name = some exported)
    (hnew : (module.path, name) ∉ met)
    {find : Module → String → Path → Search Binding}
    (hfind : ∀ (dependency : Module) (exportedName : String) (source : String),
      loader.target module source = .ok (.internal dependency) →
      (∃ number, loader.Step (module.path, name) number
        (dependency.path, exportedName)) →
      loader.Explores ((module.path, name) :: met)
        (dependency.path, exportedName)
        (find dependency exportedName module.path
          ((module.path, name) :: met))) :
    loader.Explores met (module.path, name)
      (loader.followName find module exported.localName
        ((module.path, name) :: met)) := by
  have hstopsHere : ∀ {binding : Binding} {after : List (Path × String)},
      loader.Stops (module.path, name) binding →
      loader.Explores met (module.path, name) (.ok binding after) :=
    fun hstops => .found
      ⟨.own (.here hnew) hstops, fun other _ _ => List.nil_le other⟩
  rw [followName]
  cases himport : module.imports.get? exported.localName with
  | none => exact hstopsHere (.definition hmodule hexported himport)
  | some imported =>
      dsimp only
      cases htarget : loader.target module imported.source with
      | error failure =>
          exact .blocked .refl (.passOn hmodule hexported himport htarget)
      | ok target =>
          have htargeted : Search.ofExcept (.ok target)
              ((module.path, name) :: met) =
                .ok target ((module.path, name) :: met) := rfl
          rw [Outcome.bind_of_ok htargeted]
          cases target with
          | external specifier =>
              exact hstopsHere (.external hmodule hexported himport htarget)
          | internal dependency =>
              dsimp only
              cases hname : imported.name.exportName? with
              | none =>
                  exact hstopsHere
                    (.exportsOf hmodule hexported himport htarget hname)
              | some exportedName =>
                  have hstep : loader.Step (module.path, name) 0
                      (dependency.path, exportedName) :=
                    .passOn hmodule hexported himport htarget hname
                  refine .of_only hnew hstep ?_ (fun _ hstops =>
                    hstops.not_step hstep) ?_
                    (hfind dependency exportedName _ htarget ⟨0, hstep⟩)
                  · rintro other found (_ | ⟨⟨hloaded, habsent, _, _, _⟩⟩)
                    · rfl
                    · grind
                  · rintro number specifier ⟨hloaded, habsent, _, _⟩
                    grind

end Own

section Fewer

variable {α : Type} [DecidableEq α] {places : Finset α} {met between : List α}

/-- Meeting a new place leaves fewer that were not met. -/
theorem card_unmet_lt {place : α} (hplace : place ∈ places)
    (hnew : place ∉ met) (hmore : place :: met ⊆ between) :
    (places \ between.toFinset).card < (places \ met.toFinset).card := by
  refine Finset.card_lt_card (Finset.ssubset_iff_subset_ne.mpr ⟨?_, ?_⟩)
  · refine Finset.sdiff_subset_sdiff (Finset.Subset.refl _) fun other hother => ?_
    exact List.mem_toFinset.mpr
      (hmore (List.mem_cons_of_mem _ (List.mem_toFinset.mp hother)))
  · intro hsame
    have hmem : place ∈ places \ met.toFinset := by simp [hplace, hnew]
    rw [← hsame] at hmem
    have hnot := (Finset.mem_sdiff.mp hmem).2
    exact hnot (List.mem_toFinset.mpr (hmore List.mem_cons_self))

end Fewer

section Whole

variable {places : Finset (Path × String)} {met : List (Path × String)}

/-- A search with a step for each place that it can come by comes to an end. -/
theorem searchExport_explores (hfaithful : loader.IsFaithful)
    (hclosed : ∀ place number next, place ∈ places →
      loader.Step place number next → next ∈ places)
    (steps : Nat) {importer : Path}
    (hmodule : loader.module module.path = .ok module)
    (hplace : (module.path, name) ∈ places)
    (hsteps : (places \ met.toFinset).card < steps) :
    loader.Explores met (module.path, name)
      (loader.searchExport steps module name importer met) := by
  induction steps generalizing module name importer met with
  | zero => exact absurd hsteps (Nat.not_lt_zero _)
  | succ steps ih =>
      rw [searchExport_succ]
      dsimp only
      by_cases hmet : (module.path, name) ∈ met
      · rw [if_pos hmet]
        exact .missing rfl (.refl met) hmet
      · rw [if_neg hmet]
        -- Every place that is met takes one of the steps.
        have hfewer : ∀ between, (module.path, name) :: met ⊆ between →
            (places \ between.toFinset).card < steps := fun between hmore =>
          Nat.lt_of_lt_of_le (card_unmet_lt hplace hmet hmore)
            (Nat.lt_succ_iff.mp hsteps)
        cases hexported : module.exports.get? name with
        | some exported =>
            refine followName_explores hmodule hexported hmet ?_
            rintro dependency exportedName source htarget ⟨number, hstep⟩
            exact ih (hfaithful.module_of_target htarget)
              (hclosed _ _ _ hplace hstep) (hfewer _ (List.Subset.refl _))
        | none =>
            dsimp only
            by_cases hdefault : name = defaultSlot
            · rw [if_pos hdefault]
              have hexhausts : loader.Exhausts ((module.path, name) :: met)
                ((module.path, name) :: met) := .refl _
              refine .missing rfl (hexhausts.close ?_ ?_ ?_)
                List.mem_cons_self
              · rintro number next (_ | ⟨⟨_, _, _, _, _⟩⟩) <;> grind
              · rintro binding ⟨⟩ <;> grind
              · rintro number specifier ⟨_, _, _, _⟩
                grind
            · rw [if_neg hdefault]
              have hpassing : loader.IsPassing module name :=
                ⟨hmodule, hexported, hdefault⟩
              refine hpassing.searchStars_explores hfaithful hmet rfl ?_
                (List.nil_append _) (.refl _) (by simp)
              rintro dependency hloaded ⟨number, hstep⟩ between hmore
              exact ih hloaded (hclosed _ _ _ hplace hstep)
                (hfewer between hmore)

end Whole

section Bound

/-- The names that a module imports from others. -/
def importedNames (module : Module) : List String :=
  module.imports.entries.filterMap (·.2.name.exportName?)

/-- The places that a search for a name can come by. -/
def searchPlaces (loader : Loader) (name : String) :
    Finset (Path × String) :=
  (loader.loaded.map (·.1)).toFinset ×ˢ
    (name :: loader.modules.flatMap importedNames).toFinset

theorem mem_modules (hmodule : loader.module path = .ok module) :
    module ∈ loader.modules := by
  rw [module_eq_ok_iff, find?, Option.map_eq_some_iff] at hmodule
  obtain ⟨entry, hfind, houtcome⟩ := hmodule
  rw [modules, List.mem_filterMap]
  exact ⟨entry, List.mem_of_find?_eq_some hfind,
    Except.toOption_eq_some_iff.mpr houtcome⟩

theorem searchPlaces_closed (hfaithful : loader.IsFaithful)
    (place : Path × String) (number : Nat) (next : Path × String)
    (hplace : place ∈ loader.searchPlaces name)
    (hstep : loader.Step place number next) :
    next ∈ loader.searchPlaces name := by
  rw [searchPlaces, Finset.mem_product] at hplace ⊢
  cases hstep with
  | passOn hmodule hexported himport htarget hname =>
      refine ⟨List.mem_toFinset.mpr (hfaithful.path_mem_loaded
        (hfaithful.module_of_target htarget)), List.mem_toFinset.mpr
        (List.mem_cons_of_mem _ (List.mem_flatMap.mpr
          ⟨_, mem_modules hmodule, List.mem_filterMap.mpr
            ⟨_, NameMap.mem_of_lookup_eq_some himport, hname⟩⟩))⟩
  | star hstar =>
      cases hstar with
      | star _ _ _ _ htarget =>
          exact ⟨List.mem_toFinset.mpr (hfaithful.path_mem_loaded
            (hfaithful.module_of_target htarget)), hplace.2⟩

theorem card_searchPlaces_lt (loader : Loader) (name : String) :
    (loader.searchPlaces name).card < loader.searchBound := by
  have hnames : (loader.modules.flatMap importedNames).length ≤
      (loader.modules.map (·.imports.entries.length)).foldr (· + ·) 0 := by
    induction loader.modules with
    | nil => exact Nat.le_refl 0
    | cons module modules ih =>
        rw [List.flatMap_cons, List.length_append, List.map_cons,
          List.foldr_cons]
        exact Nat.add_le_add (List.length_filterMap_le _ _) ih
  have hpaths : (loader.loaded.map (·.1)).toFinset.card ≤
      loader.loaded.length := by
    simpa using List.toFinset_card_le (loader.loaded.map (·.1))
  have hcount := List.toFinset_card_le
    (name :: loader.modules.flatMap importedNames)
  rw [List.length_cons] at hcount
  rw [searchPlaces, Finset.card_product, searchBound]
  generalize (loader.modules.map _).foldr _ _ = imports at *
  calc
    _ ≤ loader.loaded.length * (imports + 1) :=
      Nat.mul_le_mul hpaths (hcount.trans (Nat.succ_le_succ hnames))
    _ ≤ (loader.loaded.length + 1) * (imports + 1) :=
      Nat.mul_le_mul_right _ (Nat.le_succ _)
    _ < (loader.loaded.length + 1) * (imports + 2) :=
      Nat.mul_lt_mul_of_pos_left (Nat.lt_succ_self _) (Nat.succ_pos _)

end Bound

variable {importer : Path} {binding : Binding}

/-- What is answered for an export is the first end of a trail.  Otherwise no
trail ends, or a module is in the way that cannot be had. -/
theorem resolveExport_cases (hfaithful : loader.IsFaithful)
    (hmodule : loader.module module.path = .ok module) (name : String)
    (importer : Path) :
    (∃ binding route,
      loader.resolveExport module name importer = .ok binding ∧
      loader.EndsFirst [] (module.path, name) route binding) ∨
    (∃ failure, loader.resolveExport module name importer = .error failure ∧
      failure.isMissingExport = true ∧
      ∀ route binding, ¬ loader.Ends [] (module.path, name) route binding) ∨
    ∃ failure place,
      loader.resolveExport module name importer = .error failure ∧
      loader.Leads (module.path, name) place ∧
      loader.Blocks place failure := by
  have hplace : (module.path, name) ∈ loader.searchPlaces name := by
    rw [searchPlaces, Finset.mem_product]
    exact ⟨List.mem_toFinset.mpr (hfaithful.path_mem_loaded hmodule),
      List.mem_toFinset.mpr List.mem_cons_self⟩
  have hsteps : (loader.searchPlaces name \ ([] : List _).toFinset).card <
      loader.searchBound := by
    simpa using card_searchPlaces_lt loader name
  have hexplores : loader.Explores [] (module.path, name)
      (loader.searchExport loader.searchBound module name importer []) :=
    searchExport_explores hfaithful (searchPlaces_closed hfaithful)
      loader.searchBound hmodule hplace hsteps
  rw [resolveExport, Search.outcome]
  generalize loader.searchExport loader.searchBound module name importer [] =
    result at hexplores
  cases hexplores with
  | @found route binding after hfirst =>
      exact .inl ⟨binding, route, rfl, hfirst⟩
  | @missing failure after hmissing hexhausts hmem =>
      exact .inr (.inl ⟨failure, rfl, hmissing, fun _ _ =>
        hexhausts.not_ends hmem⟩)
  | @blocked place failure after hleads hblocks =>
      exact .inr (.inr ⟨failure, place, rfl, hleads, hblocks⟩)

theorem resolveExport_endsFirst (hfaithful : loader.IsFaithful)
    (hmodule : loader.module module.path = .ok module)
    (hresolve : loader.resolveExport module name importer = .ok binding) :
    ∃ route, loader.EndsFirst [] (module.path, name) route binding := by
  rcases resolveExport_cases hfaithful hmodule name importer with
    ⟨found, route, hfound, hfirst⟩ | ⟨failure, hfailed, _⟩ |
    ⟨failure, _, hfailed, _⟩
  · rw [hresolve] at hfound
    exact ⟨route, Except.ok.inj hfound ▸ hfirst⟩
  · rw [hresolve] at hfailed
    cases hfailed
  · rw [hresolve] at hfailed
    cases hfailed

/-- A search for an export is never cut short. -/
theorem resolveExport_ne_unsettled (hfaithful : loader.IsFaithful)
    (hmodule : loader.module module.path = .ok module) (cut : Path) :
    loader.resolveExport module name importer ≠
      .error (.refused (.unsettled cut)) := by
  intro hunsettled
  rcases resolveExport_cases hfaithful hmodule name importer with
    ⟨_, _, hfound, _⟩ | ⟨failure, hfailed, hmissing, _⟩ |
    ⟨failure, _, hfailed, _, hblocks⟩
  · rw [hunsettled] at hfound
    cases hfound
  · rw [hunsettled] at hfailed
    obtain rfl := Except.error.inj hfailed
    cases hmissing
  · rw [hunsettled] at hfailed
    obtain rfl := Except.error.inj hfailed
    cases hblocks.isLoading hfaithful with
    | refused hown => exact hown

end Loader

end Bundler
