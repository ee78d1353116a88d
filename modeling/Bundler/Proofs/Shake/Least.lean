import Bundler.Proofs.Graph.Imports
import Bundler.Proofs.Shake.Seeding

/-!
# Shaking keeps the least closed set

Shaking starts from nothing, so at its end nothing is in progress and all that
was met is included with what follows from it.  What it includes is therefore
the least closed set of statements, and any other order of meeting the same
needs leads to the same set.

Everything that a bundle needs lies with a module that the entry module reaches:
effects take place along bare imports, names lead along imports, and a need
brings with it only what its own module leads to.
-/

namespace Bundler

namespace Shaker

variable {loader : Loader} {asked : Need → Prop} {names : Names}
  {shaker : Shaker}

section Finished

variable (hextends : (ofNames names).Extends loader asked shaker)
  (hmet : ∀ need, asked need → shaker.Met need)
include hextends

/-- From a fresh state, nothing stays in progress. -/
theorem Extends.included_of_started {statement : StatementId}
    (hstarted : statement ∈ shaker.started) :
    statement ∈ shaker.included := by
  cases hextends.finished statement hstarted with
  | inl hbefore => exact absurd hbefore List.not_mem_nil
  | inr hincluded => exact hincluded

theorem Extends.state?_ne_inProgress (statement : StatementId) :
    shaker.state? statement ≠ some .inProgress := by
  intro hstate
  rw [Shaker.state?] at hstate
  split at hstate
  · simp at hstate
  · rename_i hnotIncluded
    split at hstate
    · rename_i hstarted
      have hincluded :=
        hextends.included_of_started (List.contains_iff_mem.mp hstarted)
      exact hnotIncluded (List.contains_iff_mem.mpr hincluded)
    · simp at hstate

include hmet

/-- From a fresh state, just what is needed is met. -/
theorem Extends.met_iff_needed (need : Need) :
    shaker.Met need ↔ Shaking.Needed loader asked need := by
  constructor
  · intro hneed
    cases hextends.needed need hneed with
    | inl hbefore => exact absurd hbefore (not_met_ofNames names need)
    | inr hneeded => exact hneeded
  · intro hneeded
    induction hneeded with
    | asked hasked => exact hmet _ hasked
    | @follows need next _ hfollows ih =>
        cases need with
        | statement path id =>
            rcases hextends.followed _
              (hextends.included_of_started ih) with hbefore | hfollowed
            · exact absurd hbefore List.not_mem_nil
            · exact hfollowed next hfollows
        | exportsOf path =>
            cases hextends.exported path ih with
            | inl hbefore =>
                exact absurd hbefore (not_met_ofNames names (.exportsOf path))
            | inr hfollowed => exact hfollowed next hfollows

end Finished

end Shaker

namespace Shaking

variable {loader : Loader} {entry : Module}
  {requested : Option (List String)}

/-- Shaking includes the effects and then the requested exports. -/
theorem shake_eq_ok {exports : List (String × Binding)}
    {before after : Shaker}
    (hrun : shake loader entry requested before = .ok exports after) :
    ∃ (seeded : Shaker) (kept : List String),
      includeEffects loader entry before = .ok () seeded ∧
      (∀ name, name ∈ kept ↔ IsRequested loader entry requested name) ∧
      (kept.mapM fun name => do
        return (name, ← includeExport loader entry name) :
          Shaking (List (String × Binding))) seeded = .ok exports after := by
  rw [shake] at hrun
  obtain ⟨_, seeded, heffects, hrun⟩ := Outcome.bind_eq_ok_iff.mp hrun
  cases requested with
  | some names =>
      obtain ⟨_, _, hkept, hrun⟩ := Outcome.bind_eq_ok_iff.mp hrun
      obtain ⟨rfl, rfl⟩ := Outcome.pure_eq_ok_iff.mp hkept
      exact ⟨seeded, names, heffects, fun name => Iff.rfl, hrun⟩
  | none =>
      obtain ⟨kept, _, hkept, hrun⟩ := Outcome.bind_eq_ok_iff.mp hrun
      obtain ⟨hnames, rfl⟩ := ofExcept_eq_ok_iff.mp hkept
      exact ⟨seeded, kept, heffects, fun name => by simp [IsRequested, hnames],
        hrun⟩

/-- The exports that shaking yields are requested and come with what they refer
to. -/
theorem shake_exports {exports : List (String × Binding)}
    {before after : Shaker}
    (hrun : shake loader entry requested before = .ok exports after)
    {exported : String × Binding} (hexported : exported ∈ exports) :
    IsRequested loader entry requested exported.1 ∧
      loader.resolveExport entry exported.1 entry.path = .ok exported.2 := by
  obtain ⟨seeded, kept, _, hrequested, hrun⟩ := shake_eq_ok hrun
  obtain ⟨name, hname, _, _, hstep⟩ := Outcome.mem_of_mapM_eq_ok hrun hexported
  obtain ⟨binding, _, hinclude, hpair⟩ := Outcome.bind_eq_ok_iff.mp hstep
  obtain ⟨rfl, rfl⟩ := Outcome.pure_eq_ok_iff.mp hpair
  rw [includeExport] at hinclude
  obtain ⟨found, _, hlookup, hinclude⟩ := Outcome.bind_eq_ok_iff.mp hinclude
  obtain ⟨hresolve, rfl⟩ := ofExcept_eq_ok_iff.mp hlookup
  obtain ⟨_, _, _, hfound⟩ := Outcome.bind_eq_ok_iff.mp hinclude
  obtain ⟨rfl, rfl⟩ := Outcome.pure_eq_ok_iff.mp hfound
  exact ⟨(hrequested name).mp hname, hresolve⟩

section Shake

variable (hfaithful : loader.IsFaithful)
include hfaithful

/-- Including an export meets what is behind it. -/
theorem includeExport_does (name : String) :
    Does loader
      (fun need => ∃ binding,
        loader.resolveExport entry name entry.path = .ok binding ∧
          Behind loader binding need)
      (do return (name, ← includeExport loader entry name)) := by
  rw [includeExport]
  rw [bind_assoc]
  apply Does.ofExcept_bind
  intro binding hresolve
  rw [bind_assoc]
  refine ((includeBinding_does hfaithful (meet_does hfaithful _) binding).bind
    fun _ => (Does.pure binding).bind fun _ => .pure _).congr fun need => ?_
  simp [hresolve]

/-- Shaking a fresh state meets just what a bundle starts from. -/
theorem shake_does (hentry : loader.module entry.path = .ok entry)
    {names : Names} {exports : List (String × Binding)} {shaker : Shaker}
    (hrun : shake loader entry requested (.ofNames names) =
      .ok exports shaker) :
    shaker.IsSound loader ∧
      (Shaker.ofNames names).Extends loader
        (Asked loader entry requested) shaker ∧
      ∀ need, Asked loader entry requested need → shaker.Met need := by
  obtain ⟨seeded, kept, heffects, hrequested, hrun⟩ := shake_eq_ok hrun
  obtain ⟨hsoundSeeded, hseeded, hmetEffects⟩ :=
    includeEffects_does hfaithful hentry heffects
  obtain ⟨hsound, hexports, hmetExports, _⟩ :=
    Does.mapM (fun name _ => includeExport_does hfaithful name) hrun
      hsoundSeeded
  have hkeeps : ∀ need, Asked loader entry requested need ↔
      EffectNeed loader entry need ∨ ∃ name ∈ kept, ∃ binding,
        loader.resolveExport entry name entry.path = .ok binding ∧
          Behind loader binding need := by
    intro need
    constructor
    · rintro (⟨hseeded, heffect⟩ | ⟨hname, hresolve, hbehind⟩)
      · exact .inl ⟨_, _, hseeded, heffect, rfl⟩
      · exact .inr ⟨_, (hrequested _).mpr hname, _, hresolve, hbehind⟩
    · rintro (⟨module, id, hseeded, heffect, rfl⟩ |
        ⟨name, hname, binding, hresolve, hbehind⟩)
      · exact .effect hseeded heffect
      · exact .kept ((hrequested name).mp hname) hresolve hbehind
  refine ⟨hsound, ?_, ?_⟩
  · have hfirst := hseeded.weaken fun need hneed =>
      Needed.asked ((hkeeps need).mpr (.inl hneed))
    have hsecond := hexports.weaken fun need hneed =>
      Needed.asked ((hkeeps need).mpr (.inr hneed))
    exact hfirst.trans hsecond
  · intro need hasked
    cases (hkeeps need).mp hasked with
    | inl heffect => exact hexports.met need (hmetEffects need heffect)
    | inr hexport => exact hmetExports need hexport

/-- What a bundle starts from can be there. -/
theorem Asked.exists (hentry : loader.module entry.path = .ok entry)
    {need : Need} (hasked : Asked loader entry requested need) :
    Exists loader need := by
  cases hasked with
  | effect hseeded heffect =>
      obtain ⟨statement, hstatement, _⟩ := heffect
      exact .statement (hseeded.module_path hfaithful hentry)
        (List.getElem?_eq_some_iff.mp hstatement).1
  | kept _ _ hbehind => exact hbehind.exists hfaithful

end Shake

/-- From a fresh state, what is met is included just if it is needed. -/
theorem included_iff_needed {asked : Need → Prop} {names : Names}
    {shaker : Shaker} (hsound : shaker.IsSound loader)
    (hextends : (Shaker.ofNames names).Extends loader asked shaker)
    (hmet : ∀ need, asked need → shaker.Met need)
    (statement : StatementId) :
    statement ∈ shaker.included ↔
      statement ∈ neededStatements loader asked := by
  rw [neededStatements, Set.mem_ofPred_eq, ← hextends.met_iff_needed hmet,
    Shaker.met_statement]
  exact ⟨hsound.started statement, hextends.included_of_started⟩

/-- In whatever order the needs that a bundle starts from are met, the needed
statements are included. -/
theorem included_iff_of_meets (hfaithful : loader.IsFaithful)
    (hentry : loader.module entry.path = .ok entry) {needs : List Need}
    {names : Names} {result : Unit} {shaker : Shaker}
    (hneeds : ∀ need, need ∈ needs ↔ Asked loader entry requested need)
    (hrun : needs.forM (meet loader (needBound loader)) (.ofNames names) =
      .ok result shaker) (statement : StatementId) :
    statement ∈ shaker.included ↔
      statement ∈ neededStatements loader (Asked loader entry requested) := by
  have hexists : ∀ need ∈ needs, Exists loader need := fun need hneed =>
    Asked.exists hfaithful hentry ((hneeds need).mp hneed)
  obtain ⟨hsound, hextends, hmet, _⟩ :=
    Does.forM (fun need hneed =>
      meet_does hfaithful _ need (hexists need hneed)) hrun (.ofNames names)
  have hasked : (fun need => ∃ asked ∈ needs, need = asked) =
      Asked loader entry requested := by
    funext need
    simp [hneeds]
  rw [hasked] at hextends hmet
  exact included_iff_needed hsound hextends hmet statement

/-- Shaking includes each statement of the least closed set once and leaves none
in progress, and the set is the same in whatever order the needs that a bundle
starts from are met. -/
theorem shake_isLeast {files : Files} {resolver : Resolver}
    {path : Path} {names : Names} {exports : List (String × Binding)}
    {shaker : Shaker} (hreachable : Loader.Reachable files resolver loader)
    (hentry : loader.module path = .ok entry)
    (hrun : shake loader entry requested (.ofNames names) =
      .ok exports shaker) :
    shaker.included.Nodup ∧
      (∀ statement, shaker.state? statement ≠ some .inProgress) ∧
      IsLeast {kept | IsClosed loader entry requested kept}
        {statement | statement ∈ shaker.included} ∧
      ∀ (needs : List Need) (otherNames : Names) (result : Unit)
        (other : Shaker),
        (∀ need, need ∈ needs ↔ Asked loader entry requested need) →
        needs.forM (meet loader (needBound loader)) (.ofNames otherNames) =
          .ok result other →
        ∀ statement,
          statement ∈ other.included ↔ statement ∈ shaker.included := by
  have hfaithful := hreachable.isFaithful
  have hentryPath := hfaithful.module_path hentry
  obtain ⟨hsound, hextends, hmet⟩ := shake_does hfaithful hentryPath hrun
  have hincluded := included_iff_needed hsound hextends hmet
  refine ⟨hsound.nodup, hextends.state?_ne_inProgress, ?_, ?_⟩
  · have hsame : {statement | statement ∈ shaker.included} =
        neededStatements loader (Asked loader entry requested) :=
      Set.ext hincluded
    rw [hsame]
    exact isLeast_neededStatements
  · intro needs otherNames result other hneeds hother statement
    rw [hincluded,
      included_iff_of_meets hfaithful hentryPath hneeds hother]

/-- Two modules that import from each other. -/
def circularFiles : Files := .ofList
  [(⟨"/a.js"⟩, "import { b } from './b';\nexport let a = () => b;"),
   (⟨"/b.js"⟩, "import { a } from './a';\nexport let b = () => a;")]

def circularLoader : Loader :=
  (Loading.loadGraph ⟨"/a.js"⟩).leave (.ofFiles circularFiles .plain)

/-- Imports that go in a circle keep what they need of each other. -/
theorem shake_isLeast_circular :
    ∃ entry exports shaker,
      circularLoader.module ⟨"/a.js"⟩ = .ok entry ∧
        shake circularLoader entry none (.ofNames .initial) =
          .ok exports shaker ∧
        shaker.included = [(⟨"/b.js"⟩, 1), (⟨"/a.js"⟩, 1)] ∧
        IsLeast {kept | IsClosed circularLoader entry none kept}
          {statement | statement ∈ shaker.included} := by
  have hreachable : Loader.Reachable circularFiles .plain circularLoader :=
    .loadGraph _ .start
  have hkept : ((circularLoader.module ⟨"/a.js"⟩).toOption.bind fun entry =>
      match shake circularLoader entry none (.ofNames .initial) with
      | .ok _ shaker => some shaker.included
      | .error _ _ => none) = some [(⟨"/b.js"⟩, 1), (⟨"/a.js"⟩, 1)] := by
    decide +kernel
  obtain ⟨entry, hfound, hkept⟩ := Option.bind_eq_some_iff.mp hkept
  have hentry : circularLoader.module ⟨"/a.js"⟩ = .ok entry := by
    cases houtcome : circularLoader.module ⟨"/a.js"⟩ with
    | error failure => simp [houtcome, Except.toOption] at hfound
    | ok found => simpa [houtcome, Except.toOption] using hfound
  cases hrun : shake circularLoader entry none (.ofNames .initial) with
  | error failure shaker => simp [hrun] at hkept
  | ok exports shaker =>
      rw [hrun] at hkept
      have hleast := (shake_isLeast hreachable hentry hrun).2.2.1
      exact ⟨entry, exports, shaker, hentry, hrun, Option.some.inj hkept,
        hleast⟩

end Shaking

/-! ### Needs within reach -/

/-- The module of a need. -/
def Need.module : Need → Path
  | .statement path _ => path
  | .exportsOf path => path

namespace Shaking

variable {loader : Loader} {entry module : Module}
  {requested : Option (List String)} {need : Need}

/-- The module of a need is one that a module reaches. -/
def IsWithin (loader : Loader) (module : Module) (need : Need) : Prop :=
  ∃ other, loader.Reaches module other ∧ other.path = need.module

section Within

variable (hfaithful : loader.IsFaithful)
  (hmodule : loader.module module.path = .ok module)
include hfaithful hmodule

/-- What is behind a binding lies within reach of the module that is led to
it. -/
theorem Behind.isWithin {binding : Binding}
    (hleads : loader.LeadsTo module binding)
    (hbehind : Behind loader binding need) : IsWithin loader module need := by
  cases hbehind with
  | definition hfound _ =>
      cases hleads with
      | definition hreaches _ _ =>
          have hother := hfaithful.module_of_reaches hmodule hreaches
          rw [hother] at hfound
          obtain rfl := Except.ok.inj hfound
          exact ⟨_, hreaches, rfl⟩
  | exportsOf =>
      cases hleads with
      | exportsOf hreaches => exact ⟨_, hreaches, rfl⟩

/-- What gives a name of a module its value lies within reach of it. -/
theorem Gives.isWithin {name : String}
    (hgives : Gives loader module name need) :
    IsWithin loader module need := by
  cases hgives with
  | definition _ _ => exact ⟨module, .refl, rfl⟩
  | imported himport hresolve hbehind =>
      exact hbehind.isWithin hfaithful hmodule
        (loader.resolveName_leadsTo hfaithful hmodule himport hresolve)

omit hmodule in
theorem IsSeeded.reaches (hentry : loader.module entry.path = .ok entry)
    (hseeded : IsSeeded loader entry module) :
    loader.Reaches entry module := by
  induction hseeded with
  | entry => exact .refl
  | bare _ htarget ih =>
      obtain ⟨statement, hstatement, source, hkind, htarget⟩ := htarget
      have hfound := hfaithful.module_of_reaches hentry ih
      exact ih.tail (hfaithful.imports_of_target hfound
        ((hfaithful.isSourced hfound).2 statement hstatement source true hkind)
        htarget)

end Within

/-- All that a bundle needs lies within reach of its entry module. -/
theorem Needed.isWithin (hfaithful : loader.IsFaithful)
    (hentry : loader.module entry.path = .ok entry)
    (hneeded : Needed loader (Asked loader entry requested) need) :
    IsWithin loader entry need := by
  induction hneeded with
  | asked hasked =>
      cases hasked with
      | effect hseeded _ => exact ⟨_, hseeded.reaches hfaithful hentry, rfl⟩
      | kept _ hresolve hbehind =>
          exact hbehind.isWithin hfaithful hentry
            (loader.resolveExport_leadsTo hfaithful hentry hresolve)
  | @follows need next _ hfollows ih =>
      obtain ⟨owner, hreaches, hpath⟩ := ih
      have howner := hfaithful.module_of_reaches hentry hreaches
      -- The module that the need names is the one that was reached.
      have hsame : ∀ {module : Module},
          loader.module need.module = .ok module → module = owner := by
        intro module hmodule
        rw [← hpath, howner] at hmodule
        exact (Except.ok.inj hmodule).symm
      have hwithin : IsWithin loader owner next := by
        cases hfollows with
        | reads hmodule _ _ hgives =>
            exact (hsame hmodule ▸ hgives).isWithin hfaithful howner
        | writes hmodule _ _ _ => exact ⟨owner, .refl, by rw [hsame hmodule]; rfl⟩
        | exports hmodule _ _ hresolve hbehind =>
            exact hbehind.isWithin hfaithful howner
              (loader.resolveExport_leadsTo hfaithful howner
                (hsame hmodule ▸ hresolve))
      obtain ⟨other, hother, hnext⟩ := hwithin
      exact ⟨other, hreaches.trans hother, hnext⟩

/-- What a bundle needs can be there. -/
theorem Needed.exists (hfaithful : loader.IsFaithful)
    (hentry : loader.module entry.path = .ok entry)
    (hneeded : Needed loader (Asked loader entry requested) need) :
    Exists loader need := by
  cases hneeded with
  | asked hasked => exact hasked.exists hfaithful hentry
  | follows _ hfollows =>
      cases hfollows with
      | reads hmodule _ _ hgives =>
          cases hgives with
          | definition _ hdefinition =>
              exact exists_of_definition hfaithful hmodule hdefinition
          | imported _ _ hbehind => exact hbehind.exists hfaithful
      | writes hmodule _ _ hwriter =>
          exact exists_of_modification hfaithful hmodule hwriter
      | exports _ _ _ _ hbehind => exact hbehind.exists hfaithful

end Shaking

end Bundler
