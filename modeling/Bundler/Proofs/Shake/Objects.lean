import Bundler.Proofs.Graph.ExportNames
import Bundler.Proofs.Shake.Seeding

/-!
# Objects of exports

The object that holds the exports of a module is taken up empty, and an export is
added once all that is behind it is included.  Meanwhile objects of other modules
may be taken up and filled, but never the same one again.  So at the end of a run
every object that was taken up has exactly one export for each name that its
module exports.
-/

namespace Bundler

namespace Shaking

variable {α β : Type} {loader : Loader}

/-- An object that has one export for each name that its module exports. -/
def IsFull (loader : Loader) (object : Path × List (String × Binding)) :
    Prop :=
  ∃ module, loader.module object.1 = .ok module ∧
    loader.exportNames module = .ok (object.2.map (·.1))

/-- The objects of a state stay as they are, and those that are added are of
other modules and full. -/
def Fills (loader : Loader) (before after : Shaker) : Prop :=
  ∃ added, after.namespaces = before.namespaces ++ added ∧
    ∀ object ∈ added, IsFull loader object ∧
      object.1 ∉ before.namespaces.map (·.1)

namespace Fills

variable {first second third : Shaker}

theorem of_eq (hsame : second.namespaces = first.namespaces) :
    Fills loader first second :=
  ⟨[], by rw [hsame, List.append_nil], by simp⟩

theorem trans (hfirst : Fills loader first second)
    (hsecond : Fills loader second third) : Fills loader first third := by
  obtain ⟨added, hadded, hfull⟩ := hfirst
  obtain ⟨more, hmore, hfullMore⟩ := hsecond
  refine ⟨added ++ more, by rw [hmore, hadded, List.append_assoc], ?_⟩
  intro object hobject
  rcases List.mem_append.mp hobject with hobject | hobject
  · exact hfull object hobject
  · refine (hfullMore object hobject).imp_right fun hnew hold => hnew ?_
    rw [hadded, List.map_append]
    exact List.mem_append_left _ hold

end Fills

/-- An operation that fills the objects that it takes up. -/
def Filling (loader : Loader) (operation : Shaking α) : Prop :=
  ∀ ⦃before after : Shaker⦄ ⦃result : α⦄,
    operation before = .ok result after → Fills loader before after

namespace Filling

variable {operation : Shaking α}

theorem of_eq (hsame : ∀ ⦃before after result⦄,
    operation before = .ok result after →
      after.namespaces = before.namespaces) : Filling loader operation :=
  fun _ _ _ hrun => .of_eq (hsame hrun)

theorem pure (value : α) : Filling loader (pure value) :=
  .of_eq fun _ _ _ hrun => by rw [(Outcome.pure_eq_ok_iff.mp hrun).2]

theorem throw (failure : LinkFailure) :
    Filling loader (throw failure : Shaking α) :=
  fun _ _ _ hrun => absurd hrun Outcome.throw_ne_ok

theorem get : Filling loader (MonadState.get : Shaking Shaker) :=
  .of_eq fun _ _ _ hrun => by rw [(Outcome.get_eq_ok_iff.mp hrun).2]

theorem modify {change : Shaker → Shaker}
    (hsame : ∀ shaker, (change shaker).namespaces = shaker.namespaces) :
    Filling loader (modify change) :=
  .of_eq fun before _ _ hrun => by
    rw [← Outcome.modify_eq_ok_iff.mp hrun, hsame before]

theorem bind {first : Shaking β} {next : β → Shaking α}
    (hfirst : Filling loader first)
    (hnext : ∀ value, Filling loader (next value)) :
    Filling loader (first >>= next) := by
  intro before after result hrun
  obtain ⟨value, between, hrunFirst, hrunNext⟩ :=
    Outcome.bind_eq_ok_iff.mp hrun
  exact (hfirst hrunFirst).trans (hnext value hrunNext)

theorem ofExcept (outcome : Except LinkFailure α) :
    Filling loader (ofExcept outcome) :=
  .of_eq fun _ _ _ hrun => by rw [(ofExcept_eq_ok_iff.mp hrun).2]

theorem forM {step : β → Shaking PUnit} {values : List β}
    (hstep : ∀ value ∈ values, Filling loader (step value)) :
    Filling loader (values.forM step) := by
  induction values with
  | nil => exact .pure PUnit.unit
  | cons value values ih =>
      exact (hstep value List.mem_cons_self).bind fun _ =>
        ih fun other hother => hstep other (List.mem_cons_of_mem value hother)

theorem mapM {step : β → Shaking α} {values : List β}
    (hstep : ∀ value, Filling loader (step value)) :
    Filling loader (values.mapM step) := by
  induction values with
  | nil => exact .pure []
  | cons value values ih =>
      rw [List.mapM_cons]
      exact (hstep value).bind fun _ => ih.bind fun _ => .pure _

end Filling

section Bookkeeping

theorem suggestName_filling (module : Module) (name : String) :
    Filling loader (suggestName loader module name) :=
  .of_eq fun _ _ _ hrun => by
    obtain ⟨names, _, rfl⟩ := suggestName_eq_ok hrun
    rfl

theorem importBinding_filling (module : Module) (name : String) :
    Filling loader (importBinding loader module name) := by
  rw [importBinding]
  refine .bind .get fun shaker => ?_
  cases shaker.binding? module.path name with
  | some binding => exact .pure binding
  | none =>
      exact .bind (.ofExcept _) fun binding =>
        .bind (suggestName_filling module name) fun _ =>
          .bind (.modify fun _ => rfl) fun _ => .pure binding

end Bookkeeping

section Taking

variable {path : Path} {old : List (Path × List (String × Binding))}
  {names : List String} {before after : Shaker}

/-- The object of a module is being filled: it has exports for some names so far,
and the objects that were taken up meanwhile are full. -/
def Taking (loader : Loader) (path : Path)
    (old : List (Path × List (String × Binding))) (names : List String)
    (shaker : Shaker) : Prop :=
  ∃ exports added, shaker.namespaces = old ++ (path, exports) :: added ∧
    exports.map (·.1) = names ∧
    ∀ object ∈ added, IsFull loader object ∧
      object.1 ∉ old.map (·.1) ∧ object.1 ≠ path

theorem Taking.fills (htaking : Taking loader path old names before)
    (hfills : Fills loader before after) :
    Taking loader path old names after := by
  obtain ⟨exports, added, hbefore, hnames, hadded⟩ := htaking
  obtain ⟨more, hafter, hmore⟩ := hfills
  refine ⟨exports, added ++ more, ?_, hnames, ?_⟩
  · rw [hafter, hbefore, List.append_assoc, List.cons_append]
  · intro object hobject
    rcases List.mem_append.mp hobject with hobject | hobject
    · exact hadded object hobject
    · obtain ⟨hfull, hnew⟩ := hmore object hobject
      simp only [hbefore, List.map_append, List.map_cons, List.mem_append,
        List.mem_cons, not_or] at hnew
      exact ⟨hfull, hnew.1, hnew.2.1⟩

/-- An export is added to the object that is being filled and to no other. -/
theorem Taking.addExport (htaking : Taking loader path old names before)
    (hnew : path ∉ old.map (·.1)) (name : String) (binding : Binding) :
    Taking loader path old (names ++ [name])
      (before.addExport path name binding) := by
  obtain ⟨exports, added, hbefore, hnames, hadded⟩ := htaking
  have hother : ∀ objects : List (Path × List (String × Binding)),
      (∀ object ∈ objects, object.1 ≠ path) →
      objects.map (fun object => if object.1 = path
        then (object.1, object.2 ++ [(name, binding)]) else object) =
          objects := by
    intro objects hobjects
    conv_rhs => rw [← List.map_id objects]
    apply List.map_congr_left
    intro object hobject
    rw [if_neg (hobjects object hobject)]
    rfl
  refine ⟨exports ++ [(name, binding)], added, ?_, ?_, hadded⟩
  · rw [Shaker.addExport, hbefore]
    simp only [List.map_append, List.map_cons, if_true]
    have hold : ∀ object ∈ old, object.1 ≠ path := fun object hobject hpath =>
      hnew (List.mem_map.mpr ⟨object, hobject, hpath⟩)
    rw [hother old hold,
      hother added fun object hobject => (hadded object hobject).2.2]
  · rw [List.map_append, hnames]
    rfl

end Taking

section Including

variable {meet : Need → Shaking Unit}
  (hmeet : ∀ need, Filling loader (meet need))
include hmeet

theorem includeDefinition_filling (module : Module) (name : String) :
    Filling loader (includeDefinition meet module name) := by
  rw [includeDefinition]
  cases module.definitions.get? name with
  | none => exact .pure ()
  | some id => exact hmeet _

theorem includeBinding_filling (binding : Binding) :
    Filling loader (includeBinding loader meet binding) := by
  cases binding with
  | definition path name =>
      exact .bind (.ofExcept _) fun module =>
        includeDefinition_filling hmeet module name
  | exportsOf path => exact hmeet _
  | external specifier name => exact .pure ()

theorem includeName_filling (module : Module) (name : String) :
    Filling loader (includeName loader meet module name) := by
  rw [includeName]
  split
  · exact .bind (importBinding_filling module name)
      (includeBinding_filling hmeet)
  · exact includeDefinition_filling hmeet module name

theorem includeStatement_filling (path : Path) (id : Nat) :
    Filling loader (includeStatement loader meet path id) := by
  rw [includeStatement]
  refine .bind .get fun shaker => ?_
  split
  · exact .pure ()
  · refine .bind (.modify fun _ => rfl) fun _ =>
      .bind (.ofExcept _) fun module => ?_
    cases module.statements[id]? with
    | none => exact .pure ()
    | some statement =>
        exact .bind (.forM fun name _ => includeName_filling hmeet module name)
          fun _ => .bind (.modify fun _ => rfl) fun _ =>
            .forM fun _ _ => .forM fun _ _ => hmeet _

/-- While its exports are included, the object of a module has one for each of
the names that are done. -/
theorem addExports_taking {path : Path} {module : Module}
    {old : List (Path × List (String × Binding))} {names done : List String}
    (hnew : path ∉ old.map (·.1)) {before after : Shaker} {result : PUnit}
    (htaking : Taking loader path old done before)
    (hrun : (names.forM fun name => do
      let binding ← ofExcept (loader.resolveExport module name path)
      includeBinding loader meet binding
      modify (·.addExport path name binding) : Shaking PUnit) before =
        .ok result after) :
    Taking loader path old (done ++ names) after := by
  induction names generalizing done before with
  | nil =>
      rw [← (Outcome.pure_eq_ok_iff.mp hrun).2, List.append_nil]
      exact htaking
  | cons name names ih =>
      obtain ⟨_, next, hstep, hrun⟩ := Outcome.bind_eq_ok_iff.mp hrun
      obtain ⟨binding, _, hlookup, hstep⟩ := Outcome.bind_eq_ok_iff.mp hstep
      obtain ⟨_, rfl⟩ := ofExcept_eq_ok_iff.mp hlookup
      obtain ⟨_, included, hinclude, hstep⟩ := Outcome.bind_eq_ok_iff.mp hstep
      obtain rfl := Outcome.modify_eq_ok_iff.mp hstep
      have hfills := includeBinding_filling hmeet binding hinclude
      rw [List.append_cons]
      exact ih ((htaking.fills hfills).addExport hnew name binding) hrun

/-- Taking up the object of a module fills it. -/
theorem includeExports_filling (path : Path) :
    Filling loader (includeExports loader meet path) := by
  intro before after result hrun
  rw [includeExports] at hrun
  obtain ⟨_, _, hget, hrun⟩ := Outcome.bind_eq_ok_iff.mp hrun
  obtain ⟨rfl, rfl⟩ := Outcome.get_eq_ok_iff.mp hget
  split at hrun
  · obtain ⟨_, rfl⟩ := Outcome.pure_eq_ok_iff.mp hrun
    exact .of_eq rfl
  · rename_i htaken
    have hnew : path ∉ before.namespaces.map (·.1) := by simpa using htaken
    obtain ⟨_, _, htake, hrun⟩ := Outcome.bind_eq_ok_iff.mp hrun
    obtain rfl := Outcome.modify_eq_ok_iff.mp htake
    obtain ⟨module, _, hlookup, hrun⟩ := Outcome.bind_eq_ok_iff.mp hrun
    obtain ⟨hmodule, rfl⟩ := ofExcept_eq_ok_iff.mp hlookup
    obtain ⟨names, _, hcollect, hrun⟩ := Outcome.bind_eq_ok_iff.mp hrun
    obtain ⟨hnames, rfl⟩ := ofExcept_eq_ok_iff.mp hcollect
    obtain ⟨exports, added, hafter, hexports, hadded⟩ :=
      addExports_taking hmeet hnew ⟨[], [], rfl, rfl, by simp⟩ hrun
    refine ⟨(path, exports) :: added, hafter, fun object hobject => ?_⟩
    rcases List.mem_cons.mp hobject with rfl | hobject
    · refine ⟨⟨module, hmodule, ?_⟩, hnew⟩
      rw [hnames, hexports]
      rfl
    · exact ⟨(hadded object hobject).1, (hadded object hobject).2.1⟩

end Including

/-- Whatever was met before, meeting a need fills the objects that it takes
up. -/
theorem meet_filling (steps : Nat) (need : Need) :
    Filling loader (meet loader steps need) := by
  induction steps generalizing need with
  | zero => cases need <;> exact .throw _
  | succ steps ih =>
      cases need with
      | statement path id => exact includeStatement_filling ih path id
      | exportsOf path => exact includeExports_filling ih path

theorem seedEffects_filling (steps : Nat) (module : Module) :
    Filling loader (seedEffects loader steps module) := by
  induction steps generalizing module with
  | zero => exact .throw _
  | succ steps ih =>
      rw [seedEffects]
      refine .bind .get fun shaker => ?_
      split
      · exact .pure ()
      · refine .bind (.modify fun _ => rfl) fun _ => .forM ?_
        rintro ⟨id, statement⟩ _
        dsimp only
        split
        · exact .pure ()
        · exact .pure ()
        · refine .bind (.ofExcept _) fun target => ?_
          cases target with
          | internal dependency => exact ih dependency
          | external specifier => exact .pure ()
        · split
          · exact .pure ()
          · exact meet_filling _ _

/-- At the end of shaking all objects are full. -/
theorem shake_filling (entry : Module) (requested : Option (List String)) :
    Filling loader (shake loader entry requested) := by
  rw [shake]
  refine .bind (seedEffects_filling _ entry) fun _ => ?_
  have hexports : ∀ names : List String, Filling loader
      (names.mapM fun name => do
        return (name, ← includeExport loader entry name)) := fun names =>
    .mapM fun name => .bind
      (.bind (.ofExcept _) fun binding =>
        .bind (includeBinding_filling (meet_filling _) binding) fun _ =>
          .pure binding)
      fun _ => .pure _
  cases requested with
  | some names => exact .bind (.pure names) hexports
  | none => exact .bind (.ofExcept _) hexports

end Shaking

end Bundler
