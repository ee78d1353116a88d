import Bundler.Proofs.Graph.Imports

/-!
# Trails through exports

Looking for an export goes from place to place: from a module and a name to where
the module imports what it passes on, or to a star export.  A trail comes by no
place twice.  It ends where something stands behind the export, and behind all
star exports there may be one of a module that is not bundled.  The numbers of the
steps order the ends of trails as a depth-first search comes by them.
-/

namespace Bundler

/-- A way along numbered steps that comes by no place twice, and by none that was
met before. -/
inductive Trail {α : Type} (Step : α → Nat → α → Prop) :
    List α → α → List Nat → α → Prop
  | here {met : List α} {place : α} :
      place ∉ met → Trail Step met place [] place
  | step {met : List α} {place next last : α} {number : Nat}
      {route : List Nat} :
      place ∉ met → Step place number next →
      Trail Step (place :: met) next route last →
      Trail Step met place (number :: route) last

namespace Trail

variable {α : Type} {Step Other : α → Nat → α → Prop} {met fewer more : List α}
  {place next last : α} {route : List Nat} {number : Nat}

theorem last_notMem (htrail : Trail Step met place route last) :
    last ∉ met := by
  induction htrail with
  | here hnew => exact hnew
  | step _ _ _ ih => exact fun hmet => ih (List.mem_cons_of_mem _ hmet)

theorem mono (hsteps : ∀ {place number next}, Step place number next →
    Other place number next) (htrail : Trail Step met place route last) :
    Trail Other met place route last := by
  induction htrail with
  | here hnew => exact .here hnew
  | step hnew hstep _ ih => exact .step hnew (hsteps hstep) ih

theorem weaken (hfewer : fewer ⊆ met)
    (htrail : Trail Step met place route last) :
    Trail Step fewer place route last := by
  induction htrail generalizing fewer with
  | here hnew => exact .here fun hmem => hnew (hfewer hmem)
  | step hnew hstep _ ih =>
      exact .step (fun hmem => hnew (hfewer hmem)) hstep
        (ih (List.cons_subset_cons _ hfewer))

/-- A trail either avoids a place, or its last part is a trail from there. -/
theorem avoids_or (htrail : Trail Step met next route last) (place : α) :
    Trail Step (place :: met) next route last ∨
      ∃ route, Trail Step met place route last := by
  induction htrail with
  | @here met next hnew =>
      by_cases hsame : next = place
      · subst hsame
        exact .inr ⟨[], .here hnew⟩
      · exact .inl (.here (by simp [hsame, hnew]))
  | @step met next _ _ _ _ hnew hstep htrail ih =>
      by_cases hsame : next = place
      · subst hsame
        exact .inr ⟨_, .step hnew hstep htrail⟩
      · rcases ih with havoids | ⟨route, hbehind⟩
        · refine .inl (.step (by simp [hsame, hnew]) hstep
            (havoids.weaken ?_))
          intro other hother
          simp only [List.mem_cons] at hother ⊢
          tauto
        · exact .inr ⟨route, hbehind.weaken (List.subset_cons_self _ _)⟩

/-- A step before a trail leads to a trail, which may be shorter. -/
theorem prepend (hnew : place ∉ met) (hstep : Step place number next)
    (htrail : Trail Step met next route last) :
    ∃ route, Trail Step met place route last := by
  rcases htrail.avoids_or place with havoids | hbehind
  · exact ⟨_, .step hnew hstep havoids⟩
  · exact hbehind

section Closed

variable {base avoided : List α}

/-- What is closed under the steps that a trail can make is not left by it. -/
theorem last_mem (htrail : Trail Step met place route last)
    (hclosed : ∀ place number next, place ∈ more → place ∉ base →
      Step place number next → next ∈ more)
    (hbase : base ⊆ met) (hplace : place ∈ more) : last ∈ more := by
  induction htrail with
  | here _ => exact hplace
  | step hnew hstep _ ih =>
      exact ih (fun _ hmem => List.mem_cons_of_mem _ (hbase hmem))
        (hclosed _ _ _ hplace (fun hmem => hnew (hbase hmem)) hstep)

/-- A trail that ends outside what is closed under steps avoids all of it. -/
theorem avoid (htrail : Trail Step met place route last)
    (hclosed : ∀ place number next, place ∈ more → place ∉ base →
      Step place number next → next ∈ more)
    (hbase : base ⊆ met) (hlast : last ∉ more)
    (havoided : ∀ other ∈ avoided, other ∈ met ∨ other ∈ more) :
    Trail Step avoided place route last := by
  induction htrail generalizing avoided with
  | here hnew =>
      refine .here fun hmem => ?_
      exact (havoided _ hmem).elim hnew hlast
  | @step met place _ _ _ _ hnew hstep htrail ih =>
      have hoff : place ∉ more := fun hmem =>
        hlast ((Trail.step hnew hstep htrail).last_mem hclosed hbase hmem)
      refine .step (fun hmem => (havoided _ hmem).elim hnew hoff) hstep
        (ih (fun _ hmem => List.mem_cons_of_mem _ (hbase hmem)) hlast ?_)
      intro other hother
      rcases List.mem_cons.mp hother with rfl | hother
      · exact .inl List.mem_cons_self
      · exact (havoided other hother).imp_left (List.mem_cons_of_mem _)

end Closed

end Trail

namespace Loader

variable (loader : Loader)

/-- The module outside the bundle that a source leads to. -/
def outside? (module : Module) (source : String) : Option String :=
  match loader.target module source with
  | .ok (.external specifier) => some specifier
  | _ => none

/-- The first module outside the bundle whose exports a module passes on by a
star. -/
def externalStar? (module : Module) : Option String :=
  module.starSources.findSome? (loader.outside? module)

/-- The step to a star export of a bundled module, numbered by its position.  A
module passes on by stars what it does not export itself, apart from the default
export. -/
inductive StarStep : Path × String → Nat → Path × String → Prop
  | star {path : Path} {module dependency : Module} {name source : String}
      {index : Nat} :
      loader.module path = .ok module → module.exports.get? name = none →
      name ≠ defaultSlot → module.starSources[index]? = some source →
      loader.target module source = .ok (.internal dependency) →
      StarStep (path, name) index (dependency.path, name)

/-- The steps of a search for an export. -/
inductive Step : Path × String → Nat → Path × String → Prop
  /-- An import that a module passes on. -/
  | passOn {path : Path} {module dependency : Module}
      {name exportedName : String} {exported : Export} {imported : Import} :
      loader.module path = .ok module →
      module.exports.get? name = some exported →
      module.imports.get? exported.localName = some imported →
      loader.target module imported.source = .ok (.internal dependency) →
      imported.name.exportName? = some exportedName →
      Step (path, name) 0 (dependency.path, exportedName)
  | star {place next : Path × String} {index : Nat} :
      loader.StarStep place index next → Step place index next

/-- What stands behind an export of a module by the module's own account. -/
inductive Stops : Path × String → Binding → Prop
  | definition {path : Path} {module : Module} {name : String}
      {exported : Export} :
      loader.module path = .ok module →
      module.exports.get? name = some exported →
      module.imports.get? exported.localName = none →
      Stops (path, name) (.definition module.path exported.localName)
  | exportsOf {path : Path} {module dependency : Module} {name : String}
      {exported : Export} {imported : Import} :
      loader.module path = .ok module →
      module.exports.get? name = some exported →
      module.imports.get? exported.localName = some imported →
      loader.target module imported.source = .ok (.internal dependency) →
      imported.name.exportName? = none →
      Stops (path, name) (.exportsOf dependency.path)
  | external {path : Path} {module : Module} {name specifier : String}
      {exported : Export} {imported : Import} :
      loader.module path = .ok module →
      module.exports.get? name = some exported →
      module.imports.get? exported.localName = some imported →
      loader.target module imported.source = .ok (.external specifier) →
      Stops (path, name) (.external specifier imported.name)

/-- A place from which a star export leads out of the bundle.  Its number comes
behind those of all stars. -/
inductive FallsBack : Path × String → Nat → String → Prop
  | outside {path : Path} {module : Module} {name specifier : String} :
      loader.module path = .ok module → module.exports.get? name = none →
      name ≠ defaultSlot → loader.externalStar? module = some specifier →
      FallsBack (path, name) module.starSources.length specifier

/-- A trail ends with a binding, at an own account of a module or out of the
bundle. -/
inductive Ends (met : List (Path × String)) (start : Path × String) :
    List Nat → Binding → Prop
  | own {last : Path × String} {route : List Nat} {binding : Binding} :
      Trail loader.Step met start route last → loader.Stops last binding →
      Ends met start route binding
  | outside {last : Path × String} {route : List Nat} {number : Nat}
      {specifier : String} :
      Trail loader.Step met start route last →
      loader.FallsBack last number specifier →
      Ends met start (route ++ [number]) (.external specifier (.named last.2))

/-- No trail ends before this one, in the order of the numbers of steps. -/
structure EndsFirst (met : List (Path × String)) (start : Path × String)
    (route : List Nat) (binding : Binding) : Prop where
  ends : loader.Ends met start route binding
  first : ∀ other bound, loader.Ends met start other bound →
    List.le route other

/-- Nothing stands behind the places that were met newly, and the steps from
them lead to no others. -/
structure Exhausts (before after : List (Path × String)) : Prop where
  subset : before ⊆ after
  closed : ∀ place number next, place ∈ after → place ∉ before →
    loader.Step place number next → next ∈ after
  stops : ∀ place binding, place ∈ after → place ∉ before →
    ¬ loader.Stops place binding
  outside : ∀ place number specifier, place ∈ after → place ∉ before →
    ¬ loader.FallsBack place number specifier

variable {loader}

section Places

variable {place next other : Path × String} {number : Nat} {binding : Binding}
  {specifier : String}

/-- The number of a step tells where it leads. -/
theorem Step.unique (hstep : loader.Step place number next)
    (hother : loader.Step place number other) : next = other := by
  cases hstep with
  | passOn hmodule hexported himport htarget hname =>
      cases hother with
      | passOn hmodule' hexported' himport' htarget' hname' => grind
      | star hstar => cases hstar; grind
  | star hstar =>
      cases hstar
      cases hother with
      | passOn hmodule' hexported' himport' htarget' hname' => grind
      | star hstar => cases hstar; grind

theorem Stops.not_step (hstops : loader.Stops place binding) :
    ¬ loader.Step place number next := by
  rintro (_ | ⟨⟨⟩⟩) <;> cases hstops <;> grind

theorem Stops.not_fallsBack (hstops : loader.Stops place binding) :
    ¬ loader.FallsBack place number specifier := by
  rintro ⟨⟩
  cases hstops <;> grind

end Places

namespace Ends

variable {met fewer : List (Path × String)} {start next : Path × String}
  {route : List Nat} {number : Nat} {binding : Binding}

theorem step (hnew : start ∉ met) (hstep : loader.Step start number next)
    (hends : loader.Ends (start :: met) next route binding) :
    loader.Ends met start (number :: route) binding := by
  cases hends with
  | own htrail hstops => exact .own (.step hnew hstep htrail) hstops
  | outside htrail hfalls => exact .outside (.step hnew hstep htrail) hfalls

/-- A trail ends where it starts, or with a step from there. -/
theorem start_cases (hends : loader.Ends met start route binding) :
    start ∉ met ∧
      ((route = [] ∧ loader.Stops start binding) ∨
        (∃ number specifier, loader.FallsBack start number specifier ∧
          route = [number] ∧
          binding = .external specifier (.named start.2)) ∨
        ∃ number next rest, loader.Step start number next ∧
          route = number :: rest ∧
          loader.Ends (start :: met) next rest binding) := by
  cases hends with
  | own htrail hstops =>
      cases htrail with
      | here hnew => exact ⟨hnew, .inl ⟨rfl, hstops⟩⟩
      | step hnew hstep htrail =>
          exact ⟨hnew, .inr (.inr ⟨_, _, _, hstep, rfl, .own htrail hstops⟩)⟩
  | outside htrail hfalls =>
      cases htrail with
      | here hnew => exact ⟨hnew, .inr (.inl ⟨_, _, hfalls, rfl, rfl⟩)⟩
      | step hnew hstep htrail =>
          exact ⟨hnew,
            .inr (.inr ⟨_, _, _, hstep, rfl, .outside htrail hfalls⟩)⟩

theorem weaken (hfewer : fewer ⊆ met)
    (hends : loader.Ends met start route binding) :
    loader.Ends fewer start route binding := by
  cases hends with
  | own htrail hstops => exact .own (htrail.weaken hfewer) hstops
  | outside htrail hfalls => exact .outside (htrail.weaken hfewer) hfalls

/-- Where a step leads to an end, there is an end as well. -/
theorem prepend (hnew : start ∉ met) (hstep : loader.Step start number next)
    (hends : loader.Ends met next route binding) :
    ∃ route, loader.Ends met start route binding := by
  cases hends with
  | own htrail hstops =>
      obtain ⟨route, hlonger⟩ := htrail.prepend hnew hstep
      exact ⟨route, .own hlonger hstops⟩
  | outside htrail hfalls =>
      obtain ⟨route, hlonger⟩ := htrail.prepend hnew hstep
      exact ⟨_, .outside hlonger hfalls⟩

end Ends

namespace Exhausts

variable {before between after : List (Path × String)}
  {start : Path × String} {route : List Nat} {binding : Binding}

theorem refl (met : List (Path × String)) : loader.Exhausts met met where
  subset := fun _ hmem => hmem
  closed _ _ _ hmem hnew := absurd hmem hnew
  stops _ _ hmem hnew := absurd hmem hnew
  outside _ _ _ hmem hnew := absurd hmem hnew

theorem trans (hfirst : loader.Exhausts before between)
    (hsecond : loader.Exhausts between after) :
    loader.Exhausts before after where
  subset := List.Subset.trans hfirst.subset hsecond.subset
  closed place number next hmem hnew hstep := by
    by_cases hbetween : place ∈ between
    · exact hsecond.subset
        (hfirst.closed place number next hbetween hnew hstep)
    · exact hsecond.closed place number next hmem hbetween hstep
  stops place binding hmem hnew := by
    by_cases hbetween : place ∈ between
    · exact hfirst.stops place binding hbetween hnew
    · exact hsecond.stops place binding hmem hbetween
  outside place number specifier hmem hnew := by
    by_cases hbetween : place ∈ between
    · exact hfirst.outside place number specifier hbetween hnew
    · exact hsecond.outside place number specifier hmem hbetween

/-- A place is exhausted with all that its steps lead to. -/
theorem close (hexhausts : loader.Exhausts (start :: before) after)
    (hsteps : ∀ number next, loader.Step start number next → next ∈ after)
    (hstops : ∀ binding, ¬ loader.Stops start binding)
    (houtside : ∀ number specifier,
      ¬ loader.FallsBack start number specifier) :
    loader.Exhausts before after where
  subset := fun _ hmem => hexhausts.subset (List.mem_cons_of_mem _ hmem)
  closed place number next hmem hnew hstep := by
    by_cases hstart : place = start
    · exact hsteps number next (hstart ▸ hstep)
    · exact hexhausts.closed place number next hmem (by simp [hstart, hnew])
        hstep
  stops place binding hmem hnew := by
    by_cases hstart : place = start
    · exact hstart ▸ hstops binding
    · exact hexhausts.stops place binding hmem (by simp [hstart, hnew])
  outside place number specifier hmem hnew := by
    by_cases hstart : place = start
    · exact hstart ▸ houtside number specifier
    · exact hexhausts.outside place number specifier hmem
        (by simp [hstart, hnew])

/-- No trail from an exhausted place ends. -/
theorem not_ends (hexhausts : loader.Exhausts before after)
    (hstart : start ∈ after) : ¬ loader.Ends before start route binding := by
  rintro (⟨htrail, hstops⟩ | ⟨htrail, hfalls⟩)
  · exact hexhausts.stops _ _
      (htrail.last_mem hexhausts.closed (List.Subset.refl _) hstart)
      htrail.last_notMem hstops
  · exact hexhausts.outside _ _ _
      (htrail.last_mem hexhausts.closed (List.Subset.refl _) hstart)
      htrail.last_notMem hfalls

/-- A trail that ends does not come by exhausted places.  So coming by the same
place again, on behalf of another star export, loses nothing. -/
theorem avoids (hexhausts : loader.Exhausts before after)
    (hends : loader.Ends before start route binding) :
    loader.Ends after start route binding := by
  have hcovered : ∀ place ∈ after, place ∈ before ∨ place ∈ after :=
    fun _ hmem => .inr hmem
  cases hends with
  | own htrail hstops =>
      refine .own (htrail.avoid hexhausts.closed (List.Subset.refl _) ?_
        hcovered) hstops
      exact fun hmem =>
        hexhausts.stops _ _ hmem htrail.last_notMem hstops
  | outside htrail hfalls =>
      refine .outside (htrail.avoid hexhausts.closed (List.Subset.refl _) ?_
        hcovered) hfalls
      exact fun hmem =>
        hexhausts.outside _ _ _ hmem htrail.last_notMem hfalls

end Exhausts

end Loader

end Bundler
