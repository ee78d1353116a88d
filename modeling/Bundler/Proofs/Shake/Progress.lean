import Bundler.Proofs.Build.Written
import Bundler.Proofs.Shake.Closed

/-!
# Progress of shaking

What an operation that includes statements adds to a state.  It meets what it
wants together with all that follows, leaves nothing new in progress, and adds
nothing that is not needed for what it wants.  Statements that are still in
progress further up are left alone, so the relation says nothing about what
they need; at the top there are none.
-/

namespace Bundler

namespace Shaker

/-- A need that a shaker has met, or is in the course of meeting. -/
def Met (shaker : Shaker) : Need → Prop
  | .statement path id => (path, id) ∈ shaker.started
  | .exportsOf path => path ∈ shaker.namespaces.map (·.1)

@[simp]
theorem met_statement {shaker : Shaker} {path : Path} {id : Nat} :
    shaker.Met (.statement path id) ↔ (path, id) ∈ shaker.started := Iff.rfl

@[simp]
theorem met_exportsOf {shaker : Shaker} {path : Path} :
    shaker.Met (.exportsOf path) ↔
      path ∈ shaker.namespaces.map (·.1) := Iff.rfl

theorem not_met_ofNames (names : Names) (need : Need) :
    ¬ (ofNames names).Met need := by
  cases need <;> simp [ofNames]

/-- A shaker whose parts agree: statements are included once and only after
they are started and all that they read is found, and what is kept of imports
and exports is what they refer to. -/
structure IsSound (loader : Loader) (shaker : Shaker) : Prop where
  nodup : shaker.included.Nodup
  started : ∀ statement ∈ shaker.included, statement ∈ shaker.started
  found : ∀ statement ∈ shaker.included, Shaking.Finds loader statement
  resolved : ∀ {module : Module} {name : String} {binding : Binding},
    loader.module module.path = .ok module →
    shaker.binding? module.path name = some binding →
    loader.resolveName module name = .ok binding
  offered : ∀ entry ∈ shaker.namespaces, ∀ exported ∈ entry.2,
    Shaking.Offers loader entry.1 exported.1 exported.2

/-- The passage from a state to a later one that has met more needs. -/
structure Extends (loader : Loader) (wanted : Need → Prop)
    (before after : Shaker) : Prop where
  met : ∀ need, before.Met need → after.Met need
  kept : ∀ statement ∈ before.included, statement ∈ after.included
  /-- Statements in progress are not finished by anything they start. -/
  fresh : ∀ statement ∈ after.included,
    statement ∈ before.included ∨ statement ∉ before.started
  finished : ∀ statement ∈ after.started,
    statement ∈ before.started ∨ statement ∈ after.included
  followed : ∀ statement ∈ after.included, statement ∈ before.included ∨
    ∀ need, Shaking.Follows loader (.statement statement.1 statement.2) need →
      after.Met need
  exported : ∀ path, after.Met (.exportsOf path) →
    before.Met (.exportsOf path) ∨
      ∀ need, Shaking.Follows loader (.exportsOf path) need → after.Met need
  needed : ∀ need, after.Met need →
    before.Met need ∨ Shaking.Needed loader wanted need
  written : before.names.SameWritten after.names

namespace Extends

variable {loader : Loader} {wanted other : Need → Prop}
  {first second third : Shaker}

/-- A change of what does not count as progress. -/
theorem of_eq (hstarted : first.started = second.started)
    (hincluded : first.included = second.included)
    (hnamespaces : first.namespaces.map (·.1) =
      second.namespaces.map (·.1))
    (hwritten : first.names.SameWritten second.names) :
    Extends loader wanted first second := by
  have hmet : ∀ need, second.Met need ↔ first.Met need := by
    intro need
    cases need with
    | statement path id => simp [hstarted]
    | exportsOf path => simp only [met_exportsOf, hnamespaces]
  constructor
  · exact fun need hneed => (hmet need).mpr hneed
  · exact fun statement hstatement => hincluded ▸ hstatement
  · exact fun statement hstatement => .inl (hincluded ▸ hstatement)
  · exact fun statement hstatement => .inl (hstarted ▸ hstatement)
  · exact fun statement hstatement => .inl (hincluded ▸ hstatement)
  · exact fun path hpath => .inl ((hmet _).mp hpath)
  · exact fun need hneed => .inl ((hmet need).mp hneed)
  · exact hwritten

theorem refl (shaker : Shaker) : Extends loader wanted shaker shaker :=
  of_eq rfl rfl rfl (.refl shaker.names)

theorem trans (hfirst : Extends loader wanted first second)
    (hsecond : Extends loader wanted second third) :
    Extends loader wanted first third := by
  constructor
  · exact fun need hneed => hsecond.met need (hfirst.met need hneed)
  · exact fun statement hstatement =>
      hsecond.kept statement (hfirst.kept statement hstatement)
  · intro statement hstatement
    cases hsecond.fresh statement hstatement with
    | inl hold => exact hfirst.fresh statement hold
    | inr hnew =>
        exact .inr fun hstarted =>
          hnew (hfirst.met (.statement statement.1 statement.2) hstarted)
  · intro statement hstatement
    cases hsecond.finished statement hstatement with
    | inl hold =>
        exact (hfirst.finished statement hold).imp_right
          (hsecond.kept statement)
    | inr hdone => exact .inr hdone
  · intro statement hstatement
    cases hsecond.followed statement hstatement with
    | inl hold =>
        exact (hfirst.followed statement hold).imp_right
          fun hmet need hfollows => hsecond.met need (hmet need hfollows)
    | inr hnew => exact .inr hnew
  · intro path hpath
    cases hsecond.exported path hpath with
    | inl hold =>
        exact (hfirst.exported path hold).imp_right
          fun hmet need hfollows => hsecond.met need (hmet need hfollows)
    | inr hnew => exact .inr hnew
  · intro need hneed
    cases hsecond.needed need hneed with
    | inl hold => exact hfirst.needed need hold
    | inr hnew => exact .inr hnew
  · exact hfirst.written.trans hsecond.written

theorem weaken (hextends : Extends loader wanted first second)
    (hother : ∀ need, wanted need → Shaking.Needed loader other need) :
    Extends loader other first second :=
  { hextends with
    needed := fun need hneed =>
      (hextends.needed need hneed).imp_right (·.trans hother) }

section Meeting

variable {path : Path} {id : Nat} {before read after : Shaker}
  {reads writes behind : Need → Prop}

/-- A statement is met if it is started, then what it reads is met, then it is
included, then what changes its names is met. -/
theorem statement (hnew : (path, id) ∉ before.started)
    (hreads : ∀ need, reads need →
      Shaking.Follows loader (.statement path id) need)
    (hwrites : ∀ need, writes need →
      Shaking.Follows loader (.statement path id) need)
    (hread : Extends loader reads
      { before with started := (path, id) :: before.started } read)
    (hwritten : Extends loader writes
      { read with included := read.included ++ [(path, id)] } after)
    (hfollowed : ∀ need,
      Shaking.Follows loader (.statement path id) need → after.Met need) :
    Extends loader (· = .statement path id) before after := by
  have hstarts : ∀ need, before.Met need →
      Met { before with started := (path, id) :: before.started } need := by
    intro need hneed
    cases need with
    | statement => exact List.mem_cons_of_mem _ hneed
    | exportsOf => exact hneed
  have hstays : ∀ need, read.Met need → after.Met need :=
    fun need hneed => hwritten.met need hneed
  have hincluded : (path, id) ∈ after.included :=
    hwritten.kept _ (List.mem_append_right _ List.mem_cons_self)
  constructor
  case met =>
    exact fun need hneed => hstays need (hread.met need (hstarts need hneed))
  case kept =>
    intro other hother
    exact hwritten.kept other
      (List.mem_append_left _ (hread.kept other hother))
  case fresh =>
    intro other hother
    have hunstarted : other ∉ read.started → other ∉ before.started :=
      fun hnot hold => hnot (hread.met (.statement other.1 other.2)
        (List.mem_cons_of_mem _ hold))
    cases hwritten.fresh other hother with
    | inl hnow =>
        cases List.mem_append.mp hnow with
        | inl hbefore =>
            exact (hread.fresh other hbefore).imp_right
              fun hnot hold => hnot (List.mem_cons_of_mem _ hold)
        | inr hlast => exact .inr (List.mem_singleton.mp hlast ▸ hnew)
    | inr hlater => exact .inr (hunstarted hlater)
  case finished =>
    intro other hother
    cases hwritten.finished other hother with
    | inl hnow =>
        cases hread.finished other hnow with
        | inl hstarted =>
            rcases List.mem_cons.mp hstarted with rfl | hold
            · exact .inr hincluded
            · exact .inl hold
        | inr hbefore =>
            exact .inr (hwritten.kept other (List.mem_append_left _ hbefore))
    | inr hdone => exact .inr hdone
  case followed =>
    intro other hother
    cases hwritten.followed other hother with
    | inl hnow =>
        cases List.mem_append.mp hnow with
        | inl hbefore =>
            exact (hread.followed other hbefore).imp_right
              fun hmet need hfollows => hstays need (hmet need hfollows)
        | inr hlast =>
            rw [List.mem_singleton.mp hlast]
            exact .inr hfollowed
    | inr hlater => exact .inr hlater
  case exported =>
    intro other hother
    cases hwritten.exported other hother with
    | inl hnow =>
        exact (hread.exported other hnow).imp_right
          fun hmet need hfollows => hstays need (hmet need hfollows)
    | inr hlater => exact .inr hlater
  case needed =>
    have hneeded : ∀ {wanted need}, (∀ next, wanted next →
        Shaking.Follows loader (.statement path id) next) →
        Shaking.Needed loader wanted need →
        Shaking.Needed loader (· = .statement path id) need :=
      fun hwanted hneed => .of_follows (hneed.mono hwanted)
    intro need hneed
    cases hwritten.needed need hneed with
    | inl hnow =>
        cases hread.needed need hnow with
        | inl hstarted =>
            cases need with
            | exportsOf => exact .inl hstarted
            | statement =>
                cases List.mem_cons.mp hstarted with
                | inl hlast =>
                    obtain ⟨rfl, rfl⟩ := Prod.mk.inj hlast
                    exact .inr (.asked rfl)
                | inr hold => exact .inl hold
        | inr hbefore => exact .inr (hneeded hreads hbefore)
    | inr hlater => exact .inr (hneeded hwrites hlater)
  case written => exact hread.written.trans hwritten.written

/-- The object of the exports of a module is met if it is taken up and then what
is behind the exports is met. -/
theorem exports (hbehind : ∀ need, behind need →
      Shaking.Follows loader (.exportsOf path) need)
    (hafter : Extends loader behind
      { before with namespaces := before.namespaces ++ [(path, [])] } after)
    (hfollowed : ∀ need,
      Shaking.Follows loader (.exportsOf path) need → after.Met need) :
    Extends loader (· = .exportsOf path) before after := by
  constructor
  case met =>
    intro need hneed
    apply hafter.met need
    cases need with
    | statement => exact hneed
    | exportsOf other =>
        simp only [met_exportsOf, List.map_append, List.mem_append]
        exact .inl hneed
  case kept => exact hafter.kept
  case fresh => exact hafter.fresh
  case finished => exact hafter.finished
  case followed => exact hafter.followed
  case exported =>
    intro other hother
    cases hafter.exported other hother with
    | inl hnow =>
        simp only [met_exportsOf, List.map_append, List.map_cons, List.map_nil,
          List.mem_append, List.mem_singleton] at hnow
        rcases hnow with hold | rfl
        · exact .inl hold
        · exact .inr hfollowed
    | inr hlater => exact .inr hlater
  case needed =>
    intro need hneed
    cases hafter.needed need hneed with
    | inl hnow =>
        cases need with
        | statement => exact .inl hnow
        | exportsOf other =>
            simp only [met_exportsOf, List.map_append, List.map_cons,
              List.map_nil, List.mem_append, List.mem_singleton] at hnow
            rcases hnow with hold | rfl
            · exact .inl hold
            · exact .inr (.asked rfl)
    | inr hlater => exact .inr (.of_follows (hlater.mono hbehind))
  case written => exact hafter.written

end Meeting

end Extends

namespace IsSound

variable {loader : Loader} {shaker : Shaker} {statement : StatementId}

theorem ofNames (names : Names) : (Shaker.ofNames names).IsSound loader where
  nodup := List.nodup_nil
  started statement hstatement := absurd hstatement List.not_mem_nil
  found statement hstatement := absurd hstatement List.not_mem_nil
  resolved _ hbinding := by simp [Shaker.ofNames, binding?] at hbinding
  offered entry hentry := absurd hentry List.not_mem_nil

theorem start (hsound : shaker.IsSound loader) :
    IsSound loader
      { shaker with started := statement :: shaker.started } where
  nodup := hsound.nodup
  started other hother := List.mem_cons_of_mem _ (hsound.started other hother)
  found := hsound.found
  resolved := hsound.resolved
  offered := hsound.offered

/-- A statement that was started is included, once, when all that it reads is
found. -/
theorem finish (hsound : shaker.IsSound loader)
    (hstarted : statement ∈ shaker.started)
    (hnew : statement ∉ shaker.included)
    (hfinds : Shaking.Finds loader statement) :
    IsSound loader
      { shaker with included := shaker.included ++ [statement] } where
  nodup := List.nodup_append.mpr
    ⟨hsound.nodup, by simp, by
      intro other hother last hlast
      rw [List.mem_singleton.mp hlast]
      rintro rfl
      exact hnew hother⟩
  started := by
    intro other hother
    cases List.mem_append.mp hother with
    | inl hold => exact hsound.started other hold
    | inr hlast =>
        rw [List.mem_singleton.mp hlast]
        exact hstarted
  found := by
    intro other hother
    cases List.mem_append.mp hother with
    | inl hold => exact hsound.found other hold
    | inr hlast =>
        rw [List.mem_singleton.mp hlast]
        exact hfinds
  resolved := hsound.resolved
  offered := hsound.offered

/-- A module is taken up with none of its exports. -/
theorem take (hsound : shaker.IsSound loader) (path : Path) :
    IsSound loader
      { shaker with namespaces := shaker.namespaces ++ [(path, [])] } where
  nodup := hsound.nodup
  started := hsound.started
  found := hsound.found
  resolved := hsound.resolved
  offered := by
    intro entry hentry exported hexported
    cases List.mem_append.mp hentry with
    | inl hold => exact hsound.offered entry hold exported hexported
    | inr hlast =>
        rw [List.mem_singleton.mp hlast] at hexported
        exact absurd hexported List.not_mem_nil

theorem addExport (hsound : shaker.IsSound loader) {path : Path}
    {name : String} {binding : Binding}
    (hoffers : Shaking.Offers loader path name binding) :
    (shaker.addExport path name binding).IsSound loader where
  nodup := hsound.nodup
  started := hsound.started
  found := hsound.found
  resolved := hsound.resolved
  offered := by
    intro entry hentry exported hexported
    obtain ⟨old, hold, rfl⟩ := List.mem_map.mp hentry
    by_cases hpath : old.1 = path
    · simp only [hpath, if_true, List.mem_append,
        List.mem_singleton] at hexported ⊢
      rcases hexported with hbefore | rfl
      · exact hpath ▸ hsound.offered old hold exported hbefore
      · exact hoffers
    · simp only [hpath, if_false] at hexported ⊢
      exact hsound.offered old hold exported hexported

end IsSound

end Shaker

namespace Shaking

variable {α β : Type}

@[simp]
theorem ofExcept_eq_ok_iff {outcome : Except LinkFailure α} {result : α}
    {before after : Shaker} :
    ofExcept outcome before = .ok result after ↔
      outcome = .ok result ∧ before = after := by
  cases outcome with
  | ok value => simp [ofExcept]
  | error failure => simp [ofExcept]

/-- An operation that meets just what is wanted. -/
def Does (loader : Loader) (wanted : Need → Prop)
    (operation : Shaking α) : Prop :=
  ∀ ⦃before after : Shaker⦄ ⦃result : α⦄,
    operation before = .ok result after → before.IsSound loader →
      after.IsSound loader ∧ before.Extends loader wanted after ∧
        (∀ need, wanted need → after.Met need) ∧
        after.seeded = before.seeded

namespace Does

variable {loader : Loader} {wanted other : Need → Prop}

theorem pure (value : α) : Does loader (fun _ => False) (pure value) := by
  intro before after result hrun hsound
  obtain ⟨_, rfl⟩ := Outcome.pure_eq_ok_iff.mp hrun
  exact ⟨hsound, .refl before, fun _ hfalse => hfalse.elim, rfl⟩

theorem throw (failure : LinkFailure) :
    Does loader wanted (throw failure : Shaking α) := by
  intro before after result hrun
  exact absurd hrun Outcome.throw_ne_ok

theorem congr {operation : Shaking α} (hdoes : Does loader wanted operation)
    (hwanted : ∀ need, wanted need ↔ other need) :
    Does loader other operation := by
  have heq : wanted = other := funext fun need => propext (hwanted need)
  exact heq ▸ hdoes

theorem bind {first : Shaking α} {next : α → Shaking β}
    (hfirst : Does loader wanted first)
    (hnext : ∀ value, Does loader other (next value)) :
    Does loader (fun need => wanted need ∨ other need) (first >>= next) := by
  intro before after result hrun hsound
  obtain ⟨value, between, hrunFirst, hrunNext⟩ :=
    Outcome.bind_eq_ok_iff.mp hrun
  obtain ⟨hsoundBetween, hbetween, hmetFirst, hseededFirst⟩ :=
    hfirst hrunFirst hsound
  obtain ⟨hsoundAfter, hafter, hmetNext, hseededNext⟩ :=
    hnext value hrunNext hsoundBetween
  refine ⟨hsoundAfter, ?_, ?_, hseededNext.trans hseededFirst⟩
  · exact (hbetween.weaken fun need hneed => .asked (.inl hneed)).trans
      (hafter.weaken fun need hneed => .asked (.inr hneed))
  · rintro need (hneed | hneed)
    · exact hafter.met need (hmetFirst need hneed)
    · exact hmetNext need hneed

/-- What an operation does with a value that has to be there. -/
theorem ofExcept_bind {outcome : Except LinkFailure β}
    {next : β → Shaking α}
    (hnext : ∀ value, outcome = .ok value → Does loader wanted (next value)) :
    Does loader wanted (ofExcept outcome >>= next) := by
  cases houtcome : outcome with
  | ok value => exact hnext value houtcome
  | error failure => exact throw failure

theorem forM {step : β → Shaking PUnit} {wants : β → Need → Prop}
    {values : List β}
    (hstep : ∀ value ∈ values, Does loader (wants value) (step value)) :
    Does loader (fun need => ∃ value ∈ values, wants value need)
      (values.forM step) := by
  induction values with
  | nil => exact Does.congr (.pure PUnit.unit) fun need => by simp
  | cons value values ih =>
      have hfirst := hstep value List.mem_cons_self
      have hrest := ih fun other hother =>
        hstep other (List.mem_cons_of_mem value hother)
      exact (hfirst.bind fun _ => hrest).congr fun need => by simp

/-- Each step of a loop runs from a state whose parts agree. -/
theorem exists_step {step : β → Shaking PUnit} {wants : β → Need → Prop}
    {values : List β}
    (hstep : ∀ value ∈ values, Does loader (wants value) (step value))
    {before after : Shaker} {result : PUnit}
    (hrun : values.forM step before = .ok result after)
    (hsound : before.IsSound loader) {value : β} (hvalue : value ∈ values) :
    ∃ first second, first.IsSound loader ∧
      step value first = .ok PUnit.unit second := by
  induction values generalizing before with
  | nil => exact absurd hvalue List.not_mem_nil
  | cons other values ih =>
      obtain ⟨_, between, hfirst, hrest⟩ := Outcome.bind_eq_ok_iff.mp hrun
      rcases List.mem_cons.mp hvalue with rfl | hlater
      · exact ⟨before, between, hsound, hfirst⟩
      · have hbetween := (hstep other List.mem_cons_self hfirst hsound).1
        exact ih
          (fun next hnext => hstep next (List.mem_cons_of_mem other hnext))
          hrest hbetween hlater

/-- A loop that collects results meets what its steps meet. -/
theorem mapM {step : β → Shaking α} {wants : β → Need → Prop}
    {values : List β}
    (hstep : ∀ value ∈ values, Does loader (wants value) (step value)) :
    Does loader (fun need => ∃ value ∈ values, wants value need)
      (values.mapM step) := by
  induction values with
  | nil => exact Does.congr (.pure []) fun need => by simp
  | cons value values ih =>
      have hfirst := hstep value List.mem_cons_self
      have hrest := ih fun other hother =>
        hstep other (List.mem_cons_of_mem value hother)
      rw [List.mapM_cons]
      exact (hfirst.bind fun _ => hrest.bind fun _ => .pure _).congr
        fun need => by simp

end Does

end Shaking

end Bundler
