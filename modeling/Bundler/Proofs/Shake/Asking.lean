import Bundler.Proofs.Build.Assembled
import Bundler.Proofs.Graph.Lacking
import Bundler.Proofs.Shake.Least

/-!
# What shaking asks for

Shaking stops where a module is missing and asks for it.  All modules that it
works on lie within reach of the entry module, since whatever an import finds
does, so it asks for nothing but what is imported within reach.
-/

namespace Bundler

/-- What a module within reach leads to is led to. -/
theorem Loader.LeadsTo.of_reaches {loader : Loader} {entry module : Module}
    {binding : Binding} (hreaches : loader.Reaches entry module)
    (hleads : loader.LeadsTo module binding) :
    loader.LeadsTo entry binding := by
  induction hreaches using Relation.ReflTransGen.head_induction_on with
  | refl => exact hleads
  | head himports _ ih => exact ih.of_imports himports

namespace Shaking

variable {α β : Type} {loader : Loader} {entry module : Module}

/-- All that imports were found to refer to lies within reach of a module. -/
def HasFound (loader : Loader) (entry : Module) (shaker : Shaker) : Prop :=
  ∀ found ∈ shaker.bindings, loader.LeadsTo entry found.2

theorem hasFound_ofNames (names : Names) :
    HasFound loader entry (.ofNames names) :=
  fun _ hfound => absurd hfound List.not_mem_nil

/-- An operation that stays within reach of a module: what it finds and what it
asks for does, and its value is as it should be. -/
def Stays (loader : Loader) (entry : Module) (operation : Shaking α)
    (Yields : α → Prop) : Prop :=
  ∀ ⦃before : Shaker⦄, HasFound loader entry before →
    match operation before with
    | .ok value after => HasFound loader entry after ∧ Yields value
    | .error failure _ =>
        ∀ path, failure = .unloaded path → loader.Lacks entry path

namespace Stays

variable {Yields : α → Prop} {Gives : β → Prop}

theorem pure {value : α} (hvalue : Yields value) :
    Stays loader entry (pure value) Yields :=
  fun _ hbefore => ⟨hbefore, hvalue⟩

theorem refuse (error : BundleError) :
    Stays loader entry (throw (.refused error)) Yields := by
  intro before _ path hunloaded
  cases hunloaded

theorem ofExcept {outcome : Except LinkFailure α}
    (hyields : ∀ value, outcome = .ok value → Yields value)
    (hlacks : ∀ path, outcome = .error (.unloaded path) →
      loader.Lacks entry path) :
    Stays loader entry (ofExcept outcome) Yields := by
  intro before hbefore
  cases outcome with
  | ok value => exact ⟨hbefore, hyields value rfl⟩
  | error failure => exact fun path hunloaded => hlacks path (by rw [hunloaded])

theorem get : Stays loader entry (MonadState.get : Shaking Shaker)
    (HasFound loader entry) :=
  fun _ hbefore => ⟨hbefore, hbefore⟩

theorem modify {change : Shaker → Shaker}
    (hchange : ∀ shaker, HasFound loader entry shaker →
      HasFound loader entry (change shaker)) :
    Stays loader entry (modify change) fun _ => True :=
  fun before hbefore => ⟨hchange before hbefore, trivial⟩

theorem bind {first : Shaking β} {next : β → Shaking α}
    (hfirst : Stays loader entry first Gives)
    (hnext : ∀ value, Gives value → Stays loader entry (next value) Yields) :
    Stays loader entry (first >>= next) Yields := by
  intro before hbefore
  have hstep := hfirst hbefore
  cases hrun : first before with
  | ok value between =>
      rw [hrun] at hstep
      rw [Outcome.bind_of_ok hrun]
      exact hnext value hstep.2 hstep.1
  | error failure between =>
      rw [hrun] at hstep
      rw [Outcome.bind_of_error hrun]
      exact hstep

theorem forM {step : β → Shaking PUnit} {values : List β}
    (hstep : ∀ value ∈ values,
      Stays loader entry (step value) fun _ => True) :
    Stays loader entry (values.forM step) fun _ => True := by
  induction values with
  | nil => exact .pure trivial
  | cons value values ih =>
      exact (hstep value List.mem_cons_self).bind fun _ _ =>
        ih fun other hother => hstep other (List.mem_cons_of_mem value hother)

theorem mapM {step : β → Shaking α} {values : List β}
    (hstep : ∀ value ∈ values, Stays loader entry (step value) fun _ => True) :
    Stays loader entry (values.mapM step) fun _ => True := by
  induction values with
  | nil => exact .pure trivial
  | cons value values ih =>
      rw [List.mapM_cons]
      exact (hstep value List.mem_cons_self).bind fun _ _ =>
        (ih fun other hother =>
          hstep other (List.mem_cons_of_mem value hother)).bind fun _ _ =>
            .pure trivial

end Stays

section Within

variable (hfaithful : loader.IsFaithful)
  (hentry : loader.module entry.path = .ok entry)
include hfaithful hentry

/-- Where a source of a module within reach leads. -/
theorem target_stays (hreaches : loader.Reaches entry module)
    {source : String} (hsource : source ∈ module.interface.sources) :
    Stays loader entry (ofExcept (loader.target module source)) fun target =>
      ∀ dependency, target = .internal dependency →
        loader.Reaches entry dependency := by
  have hmodule := hfaithful.module_of_reaches hentry hreaches
  refine .ofExcept (fun target htarget dependency hinternal => ?_)
    fun path hfailed => ?_
  · exact hreaches.tail (hfaithful.imports_of_target hmodule hsource
      (hinternal ▸ htarget))
  · exact (Loader.lacks_of_target hfaithful hmodule hsource hfailed).of_reaches
      hreaches

/-- What an export of a module within reach refers to. -/
theorem resolveExport_stays (hreaches : loader.Reaches entry module)
    (name : String) (importer : Path) :
    Stays loader entry (ofExcept (loader.resolveExport module name importer))
      (loader.LeadsTo entry) := by
  have hmodule := hfaithful.module_of_reaches hentry hreaches
  refine .ofExcept (fun binding hresolve => ?_) fun path hfailed => ?_
  · exact .of_reaches hreaches
      (loader.resolveExport_leadsTo hfaithful hmodule hresolve)
  · exact (Loader.lacks_of_resolveExport hfaithful hmodule
      hfailed).of_reaches hreaches

/-- What an import of a module within reach refers to. -/
theorem resolveName_stays (hreaches : loader.Reaches entry module)
    {name : String} (himport : module.imports.contains name = true) :
    Stays loader entry (ofExcept (loader.resolveName module name))
      (loader.LeadsTo entry) := by
  have hmodule := hfaithful.module_of_reaches hentry hreaches
  refine .ofExcept (fun binding hresolve => ?_) fun path hfailed => ?_
  · exact .of_reaches hreaches
      (loader.resolveName_leadsTo hfaithful hmodule himport hresolve)
  · exact (Loader.lacks_of_resolveName hfaithful hmodule
      hfailed).of_reaches hreaches

theorem exportNames_stays (hreaches : loader.Reaches entry module) :
    Stays loader entry (ofExcept (loader.exportNames module))
      fun _ => True := by
  have hmodule := hfaithful.module_of_reaches hentry hreaches
  refine .ofExcept (fun _ _ => trivial) fun path hfailed => ?_
  exact (Loader.lacks_of_exportNames hfaithful hmodule
    hfailed).of_reaches hreaches

theorem suggestName_stays (hreaches : loader.Reaches entry module)
    (name : String) :
    Stays loader entry (suggestName loader module name) fun _ => True := by
  have hmodule := hfaithful.module_of_reaches hentry hreaches
  rw [suggestName]
  cases himport : module.imports.get? name with
  | none => exact .pure trivial
  | some imported =>
      dsimp only
      split
      · exact .pure trivial
      · cases slot? imported.name with
        | none => exact .pure trivial
        | some slot =>
            refine .bind (target_stays hfaithful hentry hreaches
              ((hfaithful.isSourced hmodule).1.imports himport))
              fun target _ => ?_
            cases target with
            | internal dependency => exact .modify fun _ hfound => hfound
            | external specifier => exact .modify fun _ hfound => hfound

theorem importBinding_stays (hreaches : loader.Reaches entry module)
    {name : String} (himport : module.imports.contains name = true) :
    Stays loader entry (importBinding loader module name)
      (loader.LeadsTo entry) := by
  have hmodule := hfaithful.module_of_reaches hentry hreaches
  rw [importBinding]
  refine .bind .get fun shaker hfound => ?_
  cases hcached : shaker.binding? module.path name with
  | some binding =>
      rw [Shaker.binding?, Option.map_eq_some_iff] at hcached
      obtain ⟨cached, hfind, rfl⟩ := hcached
      exact .pure (hfound cached (List.mem_of_find?_eq_some hfind))
  | none =>
      refine .bind (resolveName_stays hfaithful hentry hreaches himport)
        fun binding hleads => ?_
      refine .bind (suggestName_stays hfaithful hentry hreaches name)
        fun _ _ => .bind (.modify fun shaker hfound => ?_)
          fun _ _ => .pure hleads
      intro found hmem
      rcases List.mem_cons.mp hmem with rfl | hold
      · exact hleads
      · exact hfound found hold

section Meeting

variable {meet : Need → Shaking Unit}
  (hmeet : ∀ need, IsWithin loader entry need →
    Stays loader entry (meet need) fun _ => True)
include hmeet

omit hfaithful hentry in
theorem includeDefinition_stays (hreaches : loader.Reaches entry module)
    (name : String) :
    Stays loader entry (includeDefinition meet module name) fun _ => True := by
  rw [includeDefinition]
  cases module.definitions.get? name with
  | none => exact .pure trivial
  | some id => exact hmeet _ ⟨module, hreaches, rfl⟩

theorem includeBinding_stays {binding : Binding}
    (hleads : loader.LeadsTo entry binding) :
    Stays loader entry (includeBinding loader meet binding)
      fun _ => True := by
  cases hleads with
  | definition hreaches _ _ =>
      rw [includeBinding, hfaithful.module_of_reaches hentry hreaches]
      exact includeDefinition_stays hmeet hreaches _
  | exportsOf hreaches => exact hmeet _ ⟨_, hreaches, rfl⟩
  | external _ _ => exact .pure trivial

theorem includeName_stays (hreaches : loader.Reaches entry module)
    (name : String) :
    Stays loader entry (includeName loader meet module name)
      fun _ => True := by
  rw [includeName]
  split
  · rename_i himport
    exact .bind (importBinding_stays hfaithful hentry hreaches himport)
      fun _ hleads => includeBinding_stays hfaithful hentry hmeet hleads
  · exact includeDefinition_stays hmeet hreaches name

theorem includeStatement_stays (hreaches : loader.Reaches entry module)
    (id : Nat) :
    Stays loader entry (includeStatement loader meet module.path id)
      fun _ => True := by
  rw [includeStatement, hfaithful.module_of_reaches hentry hreaches]
  refine .bind .get fun shaker _ => ?_
  split
  · exact .pure trivial
  · refine .bind (.modify fun _ hfound => hfound) fun _ _ => ?_
    refine .bind (.pure rfl) fun found (hsame : module = found) => ?_
    subst hsame
    cases module.statements[id]? with
    | none => exact .pure trivial
    | some statement =>
        refine .bind (.forM fun name _ =>
          includeName_stays hfaithful hentry hmeet hreaches name)
          fun _ _ => .bind (.modify fun _ hfound => hfound)
            fun _ _ => .forM fun name _ => .forM fun other _ => ?_
        exact hmeet _ ⟨module, hreaches, rfl⟩

theorem includeExports_stays (hreaches : loader.Reaches entry module) :
    Stays loader entry (includeExports loader meet module.path)
      fun _ => True := by
  have hmodule := hfaithful.module_of_reaches hentry hreaches
  rw [includeExports, hmodule]
  refine .bind .get fun shaker _ => ?_
  split
  · exact .pure trivial
  · refine .bind (.modify fun _ hfound => hfound) fun _ _ => ?_
    refine .bind (.pure rfl) fun found (hsame : module = found) => ?_
    subst hsame
    refine .bind (exportNames_stays hfaithful hentry hreaches)
      fun names _ => .forM fun name _ => ?_
    refine .bind (resolveExport_stays hfaithful hentry hreaches name
      module.path) fun binding hleads => ?_
    exact .bind (includeBinding_stays hfaithful hentry hmeet hleads)
      fun _ _ => .modify fun _ hfound => hfound

end Meeting

theorem meet_stays (steps : Nat) (need : Need)
    (hwithin : IsWithin loader entry need) :
    Stays loader entry (meet loader steps need) fun _ => True := by
  induction steps generalizing need with
  | zero => cases need <;> exact .refuse _
  | succ steps ih =>
      obtain ⟨module, hreaches, hpath⟩ := hwithin
      cases need with
      | statement path id =>
          obtain rfl : module.path = path := hpath
          exact includeStatement_stays hfaithful hentry ih hreaches id
      | exportsOf path =>
          obtain rfl : module.path = path := hpath
          exact includeExports_stays hfaithful hentry ih hreaches

theorem seedEffects_stays (steps : Nat)
    (hreaches : loader.Reaches entry module) :
    Stays loader entry (seedEffects loader steps module) fun _ => True := by
  induction steps generalizing module with
  | zero => exact .refuse _
  | succ steps ih =>
      have hmodule := hfaithful.module_of_reaches hentry hreaches
      rw [seedEffects]
      refine .bind .get fun shaker _ => ?_
      split
      · exact .pure trivial
      · refine .bind (.modify fun _ hfound => hfound) fun _ _ => .forM ?_
        rintro ⟨id, statement⟩ hnumbered
        have hstatement : statement ∈ module.statements :=
          (List.of_mem_zip hnumbered).2
        dsimp only
        split
        · exact .pure trivial
        · exact .pure trivial
        · rename_i source hkind
          refine .bind (target_stays hfaithful hentry hreaches
            ((hfaithful.isSourced hmodule).2 statement hstatement source true
              hkind)) fun target hleads => ?_
          cases target with
          | internal dependency => exact ih (hleads dependency rfl)
          | external specifier => exact .pure trivial
        · split
          · exact .pure trivial
          · exact meet_stays hfaithful hentry _ _ ⟨module, hreaches, rfl⟩

theorem includeExport_stays (hreaches : loader.Reaches entry module)
    (name : String) :
    Stays loader entry (includeExport loader module name) fun _ => True := by
  refine .bind (resolveExport_stays hfaithful hentry hreaches name
    module.path) fun binding hleads => ?_
  exact .bind (includeBinding_stays hfaithful hentry
    (meet_stays hfaithful hentry _) hleads) fun _ _ => .pure trivial

theorem shake_stays (requested : Option (List String)) :
    Stays loader entry (shake loader entry requested) fun _ => True := by
  refine .bind (seedEffects_stays hfaithful hentry _ .refl) fun _ _ => ?_
  have hincludes : ∀ names : List String, Stays loader entry
      (names.mapM fun name => do
        return (name, ← includeExport loader entry name)) fun _ => True :=
    fun names => .mapM fun name _ =>
      .bind (includeExport_stays hfaithful hentry .refl name)
        fun _ _ => .pure trivial
  cases requested with
  | some names => exact hincludes names
  | none =>
      exact .bind (exportNames_stays hfaithful hentry .refl)
        fun names _ => hincludes names

end Within

end Shaking

end Bundler
