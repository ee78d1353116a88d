import Bundler.Proofs.Shake.Progress

/-!
# Runs of the including operations

Each operation that includes statements meets just what it is called for.  The
needs that it passes on are again needs that there can be, so an induction on
the steps that are left gives the same for `Shaking.meet`, whatever was met or
in progress before.
-/

namespace Bundler

namespace Shaking

variable {loader : Loader}

section Bookkeeping

/-- Suggesting a name changes no more than suggestions. -/
theorem suggestName_eq_ok {module : Module} {name : String}
    {before after : Shaker} {result : Unit}
    (hrun : suggestName loader module name before = .ok result after) :
    ∃ names, before.names.SameWritten names ∧
      after = { before with names := names } := by
  have hquiet : ∃ names, before.names.SameWritten names ∧
      before = { before with names := names } :=
    ⟨before.names, .refl before.names, rfl⟩
  rw [suggestName] at hrun
  cases himport : module.imports.get? name with
  | none =>
      rw [himport] at hrun
      exact (Outcome.pure_eq_ok_iff.mp hrun).2 ▸ hquiet
  | some imported =>
      simp only [himport] at hrun
      split at hrun
      · exact (Outcome.pure_eq_ok_iff.mp hrun).2 ▸ hquiet
      · cases hslot : slot? imported.name with
        | none =>
            rw [hslot] at hrun
            exact (Outcome.pure_eq_ok_iff.mp hrun).2 ▸ hquiet
        | some slot =>
            simp only [hslot] at hrun
            obtain ⟨target, _, htarget, hrun⟩ :=
              Outcome.bind_eq_ok_iff.mp hrun
            obtain ⟨_, rfl⟩ := ofExcept_eq_ok_iff.mp htarget
            cases target with
            | internal dependency =>
                exact ⟨_, Names.sameWritten_suggest slot name,
                  (Outcome.modify_eq_ok_iff.mp hrun).symm⟩
            | external specifier =>
                exact ⟨_, Names.sameWritten_suggestExternal slot name,
                  (Outcome.modify_eq_ok_iff.mp hrun).symm⟩

/-- What an import refers to is looked up without any progress. -/
theorem importBinding_eq_ok {module : Module} {name : String}
    {before after : Shaker} {binding : Binding}
    (hmodule : loader.module module.path = .ok module)
    (hrun : importBinding loader module name before = .ok binding after)
    (hsound : before.IsSound loader) :
    loader.resolveName module name = .ok binding ∧
      ∃ names bindings, after.IsSound loader ∧
        before.names.SameWritten names ∧
        after = { before with names := names, bindings := bindings } := by
  rw [importBinding] at hrun
  obtain ⟨_, _, hget, hrun⟩ := Outcome.bind_eq_ok_iff.mp hrun
  obtain ⟨rfl, rfl⟩ := Outcome.get_eq_ok_iff.mp hget
  cases hfound : before.binding? module.path name with
  | some found =>
      rw [hfound] at hrun
      obtain ⟨rfl, rfl⟩ := Outcome.pure_eq_ok_iff.mp hrun
      exact ⟨hsound.resolved hmodule hfound, before.names, before.bindings,
        hsound, .refl before.names, rfl⟩
  | none =>
      simp only [hfound, Outcome.bind_eq_ok_iff] at hrun
      obtain ⟨found, _, hlookup, _, _, hsuggest, _, _, hmodify, hrun⟩ := hrun
      obtain ⟨hresolve, rfl⟩ := ofExcept_eq_ok_iff.mp hlookup
      obtain ⟨names, hwritten, rfl⟩ := suggestName_eq_ok hsuggest
      obtain rfl := Outcome.modify_eq_ok_iff.mp hmodify
      obtain ⟨rfl, rfl⟩ := Outcome.pure_eq_ok_iff.mp hrun
      refine ⟨hresolve, names, _,
        ⟨hsound.nodup, hsound.started, hsound.found, ?_, hsound.offered⟩,
        hwritten, rfl⟩
      intro other key binding hother hbinding
      rw [Shaker.binding?, List.find?_cons] at hbinding
      by_cases hkey : (module.path, name) = (other.path, key)
      · obtain ⟨hpath, rfl⟩ := Prod.mk.inj hkey
        rw [← hpath, hmodule] at hother
        obtain rfl := Except.ok.inj hother
        simp only [decide_true, Option.map_some, Option.some.injEq] at hbinding
        rw [← hbinding]
        exact hresolve
      · simp only [hkey, decide_false] at hbinding
        exact hsound.resolved hother hbinding

theorem addExport_does {path : Path} {name : String} {binding : Binding}
    (hoffers : Offers loader path name binding) :
    Does loader (fun _ => False) (modify (·.addExport path name binding)) := by
  intro before after result hrun hsound
  obtain rfl := Outcome.modify_eq_ok_iff.mp hrun
  have hsame : before.namespaces.map (·.1) =
      (before.addExport path name binding).namespaces.map (·.1) := by
    simp only [Shaker.addExport, List.map_map]
    apply List.map_congr_left
    intro entry _
    by_cases hpath : entry.1 = path <;> simp [hpath]
  exact ⟨hsound.addExport hoffers,
    .of_eq rfl rfl hsame (.refl before.names), fun _ hfalse => hfalse.elim, rfl⟩

end Bookkeeping

section Including

variable (hfaithful : loader.IsFaithful) {meet : Need → Shaking Unit}
  (hmeet : ∀ need, Exists loader need → Does loader (· = need) (meet need))
  {path : Path} {module : Module}
include hfaithful hmeet

theorem includeDefinition_does (hmodule : loader.module path = .ok module)
    (name : String) :
    Does loader
      (fun need => ∃ id, module.definitions.get? name = some id ∧
        need = .statement module.path id)
      (includeDefinition meet module name) := by
  rw [includeDefinition]
  cases hdefinition : module.definitions.get? name with
  | none => exact Does.congr (.pure ()) fun need => by simp
  | some id =>
      have hexists := exists_of_definition hfaithful hmodule hdefinition
      exact (hmeet _ hexists).congr fun need => by simp

theorem includeBinding_does (binding : Binding) :
    Does loader (Behind loader binding)
      (includeBinding loader meet binding) := by
  cases binding with
  | definition path name =>
      apply Does.ofExcept_bind
      intro module hmodule
      apply (includeDefinition_does hfaithful hmeet hmodule name).congr
      intro need
      constructor
      · rintro ⟨id, hdefinition, rfl⟩
        exact .definition hmodule hdefinition
      · rintro (⟨hother, hdefinition⟩ | _)
        rw [hmodule] at hother
        obtain rfl := Except.ok.inj hother
        exact ⟨_, hdefinition, rfl⟩
  | exportsOf path =>
      apply (hmeet _ .exportsOf).congr
      intro need
      constructor
      · rintro rfl
        exact .exportsOf
      · rintro (_ | _)
        rfl
  | external specifier name =>
      apply Does.congr (.pure ())
      intro need
      constructor
      · exact False.elim
      · rintro (_ | _)

theorem includeName_does (hmodule : loader.module path = .ok module)
    (name : String) :
    Does loader (Gives loader module name)
      (includeName loader meet module name) := by
  rw [includeName]
  cases himport : module.imports.contains name with
  | false =>
      apply (includeDefinition_does hfaithful hmeet hmodule name).congr
      intro need
      constructor
      · rintro ⟨id, hdefinition, rfl⟩
        exact .definition himport hdefinition
      · rintro (⟨_, hdefinition⟩ | ⟨hcontains, _, _⟩)
        · exact ⟨_, hdefinition, rfl⟩
        · simp [himport] at hcontains
  | true =>
      intro before after result hrun hsound
      obtain ⟨binding, between, hlookup, hrun⟩ :=
        Outcome.bind_eq_ok_iff.mp hrun
      obtain ⟨hresolve, names, bindings, hsoundBetween, hwritten, rfl⟩ :=
        importBinding_eq_ok (hfaithful.module_path hmodule) hlookup hsound
      have hgives : ∀ need, Behind loader binding need ↔
          Gives loader module name need := by
        intro need
        constructor
        · exact .imported himport hresolve
        · rintro (⟨hcontains, _⟩ | ⟨_, hother, hbehind⟩)
          · simp [himport] at hcontains
          · rw [hresolve] at hother
            exact Except.ok.inj hother ▸ hbehind
      obtain ⟨hsoundAfter, hextends, hmet, hseeded⟩ :=
        (includeBinding_does hfaithful hmeet binding).congr hgives
          hrun hsoundBetween
      have hquiet : before.Extends loader (Gives loader module name)
          { before with names := names, bindings := bindings } :=
        .of_eq rfl rfl rfl hwritten
      exact ⟨hsoundAfter, hquiet.trans hextends, hmet, hseeded⟩

omit hmeet in
/-- A name can be included only if the import that it may be leads to
something. -/
theorem exists_resolveName_of_includeName
    (hmodule : loader.module path = .ok module) {name : String}
    {before after : Shaker} {result : Unit} (hsound : before.IsSound loader)
    (hrun : includeName loader meet module name before = .ok result after)
    (himport : module.imports.contains name = true) :
    ∃ binding, loader.resolveName module name = .ok binding := by
  rw [includeName, if_pos himport] at hrun
  obtain ⟨binding, _, hlookup, _⟩ := Outcome.bind_eq_ok_iff.mp hrun
  exact ⟨binding, (importBinding_eq_ok (hfaithful.module_path hmodule) hlookup
    hsound).1⟩

/-- A statement is started before what it reads is included and included
before what changes its names is. -/
theorem includeStatement_does {id : Nat}
    (hexists : Exists loader (.statement path id)) :
    Does loader (· = .statement path id)
      (includeStatement loader meet path id) := by
  intro before after result hrun hsound
  rw [includeStatement] at hrun
  obtain ⟨_, _, hget, hrun⟩ := Outcome.bind_eq_ok_iff.mp hrun
  obtain ⟨rfl, rfl⟩ := Outcome.get_eq_ok_iff.mp hget
  split at hrun
  · rename_i hstarted
    obtain ⟨_, rfl⟩ := Outcome.pure_eq_ok_iff.mp hrun
    refine ⟨hsound, .refl before, ?_, rfl⟩
    rintro _ rfl
    simpa using hstarted
  · rename_i hstarted
    have hnew : (path, id) ∉ before.started := by simpa using hstarted
    obtain ⟨_, _, hstart, hrun⟩ := Outcome.bind_eq_ok_iff.mp hrun
    obtain rfl := Outcome.modify_eq_ok_iff.mp hstart
    obtain ⟨module, _, hlookup, hrun⟩ := Outcome.bind_eq_ok_iff.mp hrun
    obtain ⟨hmodule, rfl⟩ := ofExcept_eq_ok_iff.mp hlookup
    obtain ⟨hpath, hid⟩ := hexists.of_statement hmodule
    obtain ⟨statement, hstatement⟩ : ∃ statement,
        module.statements[id]? = some statement :=
      ⟨_, List.getElem?_eq_getElem hid⟩
    simp only [hstatement] at hrun
    obtain ⟨_, read, hreads, hrun⟩ := Outcome.bind_eq_ok_iff.mp hrun
    obtain ⟨_, _, hinclude, hwrites⟩ := Outcome.bind_eq_ok_iff.mp hrun
    obtain rfl := Outcome.modify_eq_ok_iff.mp hinclude
    have hincludes : ∀ name ∈ statement.dependsOn,
        Does loader (Gives loader module name)
          (includeName loader meet module name) := fun name _ =>
      includeName_does hfaithful hmeet hmodule name
    have hfinds : Finds loader (path, id) := by
      intro other content name hother hcontent hname himport
      obtain rfl := Except.ok.inj (hmodule ▸ hother)
      obtain rfl := Option.some.inj (hstatement ▸ hcontent)
      obtain ⟨first, second, hsoundFirst, hstep⟩ :=
        Does.exists_step hincludes hreads hsound.start hname
      exact exists_resolveName_of_includeName hfaithful hmodule hsoundFirst
        hstep himport
    obtain ⟨hsoundRead, hread, hmetReads, hseededRead⟩ :=
      Does.forM hincludes hreads hsound.start
    have hstartedRead : (path, id) ∈ read.started :=
      hread.met (.statement path id) List.mem_cons_self
    have hpending : (path, id) ∉ read.included := by
      intro hincluded
      cases hread.fresh _ hincluded with
      | inl hold => exact hnew (hsound.started _ hold)
      | inr hunstarted => exact hunstarted List.mem_cons_self
    obtain ⟨hsoundAfter, hwritten, hmetWrites, hseededWritten⟩ :=
      Does.forM (fun name _ => Does.forM fun writer hwriter =>
        hmeet _ (hpath ▸ exists_of_modification hfaithful hmodule hwriter))
        hwrites (hsoundRead.finish hstartedRead hpending hfinds)
    have hextends :
        before.Extends loader (· = .statement path id) after := by
      refine .statement hnew ?_ ?_ hread hwritten ?_
      · rintro need ⟨name, hname, hgives⟩
        exact .reads hmodule hstatement hname hgives
      · rintro _ ⟨name, hname, writer, hwriter, rfl⟩
        have hfollows := Follows.writes hmodule hstatement hname hwriter
        rwa [hpath] at hfollows
      · intro need hfollows
        cases hfollows with
        | reads hother hsame hname hgives =>
            obtain rfl := Except.ok.inj (hmodule ▸ hother)
            obtain rfl := Option.some.inj (hstatement ▸ hsame)
            exact hwritten.met need (hmetReads need ⟨_, hname, hgives⟩)
        | writes hother hsame hname hwriter =>
            obtain rfl := Except.ok.inj (hmodule ▸ hother)
            obtain rfl := Option.some.inj (hstatement ▸ hsame)
            exact hmetWrites _ ⟨_, hname, _, hwriter, by rw [hpath]⟩
    refine ⟨hsoundAfter, hextends, ?_, hseededWritten.trans hseededRead⟩
    rintro _ rfl
    exact hwritten.met _ hstartedRead

/-- The object of the exports of a module is taken up before what is behind
them is included. -/
theorem includeExports_does :
    Does loader (· = .exportsOf path) (includeExports loader meet path) := by
  intro before after result hrun hsound
  rw [includeExports] at hrun
  obtain ⟨_, _, hget, hrun⟩ := Outcome.bind_eq_ok_iff.mp hrun
  obtain ⟨rfl, rfl⟩ := Outcome.get_eq_ok_iff.mp hget
  split at hrun
  · rename_i htaken
    obtain ⟨_, rfl⟩ := Outcome.pure_eq_ok_iff.mp hrun
    refine ⟨hsound, .refl before, ?_, rfl⟩
    rintro _ rfl
    simpa using htaken
  · obtain ⟨_, _, htake, hrun⟩ := Outcome.bind_eq_ok_iff.mp hrun
    obtain rfl := Outcome.modify_eq_ok_iff.mp htake
    obtain ⟨module, _, hlookup, hrun⟩ := Outcome.bind_eq_ok_iff.mp hrun
    obtain ⟨hmodule, rfl⟩ := ofExcept_eq_ok_iff.mp hlookup
    obtain ⟨names, _, hcollect, hrun⟩ := Outcome.bind_eq_ok_iff.mp hrun
    obtain ⟨hnames, rfl⟩ := ofExcept_eq_ok_iff.mp hcollect
    have hexport : ∀ name ∈ names, Does loader
        (fun need => ∃ binding,
          loader.resolveExport module name path = .ok binding ∧
            Behind loader binding need)
        (do let binding ← ofExcept (loader.resolveExport module name path)
            includeBinding loader meet binding
            modify (·.addExport path name binding)) := by
      intro name hname
      have hoffers : ∀ binding,
          loader.resolveExport module name path = .ok binding →
          Offers loader path name binding :=
        fun binding hresolve => ⟨module, names, hmodule, hnames, hname, hresolve⟩
      apply Does.ofExcept_bind
      intro binding hresolve
      refine ((includeBinding_does hfaithful hmeet binding).bind fun _ =>
        addExport_does (hoffers binding hresolve)).congr fun need => ?_
      simp [hresolve]
    obtain ⟨hsoundAfter, hafter, hmet, hseeded⟩ :=
      Does.forM hexport hrun (hsound.take path)
    have hextends : before.Extends loader (· = .exportsOf path) after := by
      refine .exports ?_ hafter ?_
      · rintro need ⟨name, hname, binding, hresolve, hbehind⟩
        exact .exports hmodule hnames hname hresolve hbehind
      · intro need hfollows
        cases hfollows with
        | exports hother hsame hname hresolve hbehind =>
            obtain rfl := Except.ok.inj (hmodule ▸ hother)
            obtain rfl := Except.ok.inj (hnames ▸ hsame)
            exact hmet need ⟨_, hname, _, hresolve, hbehind⟩
    refine ⟨hsoundAfter, hextends, ?_, hseeded⟩
    rintro _ rfl
    apply hafter.met (.exportsOf path)
    simp

end Including

/-- Whatever was met before, meeting a need meets just what it brings. -/
theorem meet_does (hfaithful : loader.IsFaithful) (steps : Nat) (need : Need)
    (hexists : Exists loader need) :
    Does loader (· = need) (meet loader steps need) := by
  induction steps generalizing need with
  | zero => cases need <;> exact Does.throw _
  | succ steps ih =>
      cases need with
      | statement path id =>
          exact includeStatement_does hfaithful ih hexists
      | exportsOf path => exact includeExports_does hfaithful ih

end Shaking

end Bundler
