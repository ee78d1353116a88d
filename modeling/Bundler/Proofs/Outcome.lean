import Bundler.Build.Shake
import Mathlib.Data.List.Forall2

/-!
# Outcomes of operations

An operation with state succeeds exactly when all its steps succeed, each from
the state that the one before left.  The lemmas here take a successful run
apart into its steps.
-/

namespace Bundler

variable {ε σ α β : Type}

theorem Except.bind_eq_ok_iff {first : Except ε α} {next : α → Except ε β}
    {result : β} :
    first >>= next = .ok result ↔
      ∃ value, first = .ok value ∧ next value = .ok result := by
  cases first with
  | error failure => simp [bind, Except.bind]
  | ok value => simp [bind, Except.bind]

theorem Except.bind_eq_error_iff {first : Except ε α}
    {next : α → Except ε β} {failure : ε} :
    first >>= next = .error failure ↔ first = .error failure ∨
      ∃ value, first = .ok value ∧ next value = .error failure := by
  cases first with
  | error other => simp [bind, Except.bind]
  | ok value => simp [bind, Except.bind]

theorem Except.map_eq_ok_iff {first : Except ε α} {change : α → β}
    {result : β} :
    first.map change = .ok result ↔
      ∃ value, first = .ok value ∧ change value = result := by
  cases first with
  | error failure => simp [Except.map]
  | ok value => simp [Except.map]

theorem Except.toOption_eq_some_iff {outcome : Except ε α} {value : α} :
    outcome.toOption = some value ↔ outcome = .ok value := by
  cases outcome with
  | error failure => simp [Except.toOption]
  | ok found => simp [Except.toOption]

/-- An outcome whose value passes a test is a success. -/
theorem Except.exists_of_any_toOption {outcome : Except ε α} {test : α → Bool}
    (hany : outcome.toOption.any test = true) :
    ∃ value, outcome = .ok value ∧ test value = true := by
  cases outcome with
  | error failure => simp [Except.toOption] at hany
  | ok value => exact ⟨value, rfl, by simpa [Except.toOption] using hany⟩

/-- What holds at the start and is kept by each step of a fold holds at its
end. -/
theorem Except.foldlM_induction (Holds : α → Prop)
    {step : α → β → Except ε α} {values : List β} {start result : α}
    (hstart : Holds start)
    (hstep : ∀ value ∈ values, ∀ before after, Holds before →
      step before value = .ok after → Holds after)
    (hfold : values.foldlM step start = .ok result) : Holds result := by
  induction values generalizing start with
  | nil =>
      obtain rfl := Except.ok.inj hfold
      exact hstart
  | cons value values ih =>
      rw [List.foldlM_cons] at hfold
      obtain ⟨between, hfirst, hrest⟩ := Except.bind_eq_ok_iff.mp hfold
      have hbetween : Holds between :=
        hstep value List.mem_cons_self start between hstart hfirst
      exact ih hbetween
        (fun other hother => hstep other (List.mem_cons_of_mem value hother))
        hrest

/-- A fold of which each step puts one result in front of those it has yields the
results of its values, the last one first. -/
theorem Except.foldlM_forall₂ {γ : Type} (results : α → List γ)
    (Gives : β → γ → Prop) {step : α → β → Except ε α} {values : List β}
    {start last : α}
    (hstep : ∀ value before after, step before value = .ok after →
      ∃ result, results after = result :: results before ∧ Gives value result)
    (hfold : values.foldlM step start = .ok last) :
    ∃ given, results last = given.reverse ++ results start ∧
      List.Forall₂ Gives values given := by
  induction values generalizing start with
  | nil =>
      obtain rfl := Except.ok.inj hfold
      exact ⟨[], rfl, .nil⟩
  | cons value values ih =>
      rw [List.foldlM_cons] at hfold
      obtain ⟨between, hfirst, hrest⟩ := Except.bind_eq_ok_iff.mp hfold
      obtain ⟨result, hresult, hgives⟩ := hstep value start between hfirst
      obtain ⟨given, hgiven, hall⟩ := ih hrest
      exact ⟨result :: given, by simp [hgiven, hresult], .cons hgives hall⟩

/-- A fold keeps what each step keeps, leads to values that are related to the
one before it, and has done in the end what each step did, if later steps do
not undo it. -/
theorem Except.foldlM_spec (Invariant : α → Prop) (Related : α → α → Prop)
    (Done : β → α → Prop) {step : α → β → Except ε α} {values : List β}
    (hrefl : ∀ state, Related state state)
    (htrans : ∀ {first second third}, Related first second →
      Related second third → Related first third)
    (hstays : ∀ {value first second}, Related first second →
      Done value first → Done value second)
    (hstep : ∀ value ∈ values, ∀ {before after}, Invariant before →
      step before value = .ok after →
        Invariant after ∧ Related before after ∧ Done value after)
    {start result : α} (hstart : Invariant start)
    (hfold : values.foldlM step start = .ok result) :
    Invariant result ∧ Related start result ∧
      ∀ value ∈ values, Done value result := by
  induction values generalizing start with
  | nil =>
      obtain rfl := Except.ok.inj hfold
      exact ⟨hstart, hrefl start, by simp⟩
  | cons value values ih =>
      rw [List.foldlM_cons] at hfold
      obtain ⟨between, hfirst, hrest⟩ := Except.bind_eq_ok_iff.mp hfold
      obtain ⟨hbetween, hrelated, hdone⟩ :=
        hstep value List.mem_cons_self hstart hfirst
      obtain ⟨hresult, hlater, hothers⟩ :=
        ih (fun other hother => hstep other (List.mem_cons_of_mem value hother))
          hbetween hrest
      refine ⟨hresult, htrans hrelated hlater, fun other hother => ?_⟩
      rcases List.mem_cons.mp hother with rfl | hother
      · exact hstays hlater hdone
      · exact hothers other hother

/-- A fold succeeds, or fails as one of its steps does from what the ones before
keep. -/
theorem Except.foldlM_cases (Invariant : α → Prop) (Fails : ε → Prop)
    (step : α → β → Except ε α) (values : List β)
    (hstep : ∀ value ∈ values, ∀ before, Invariant before →
      (∃ after, step before value = .ok after ∧ Invariant after) ∨
        ∃ failure, step before value = .error failure ∧ Fails failure)
    {start : α} (hstart : Invariant start) :
    (∃ result, values.foldlM step start = .ok result ∧ Invariant result) ∨
      ∃ failure, values.foldlM step start = .error failure ∧
        Fails failure := by
  induction values generalizing start with
  | nil => exact .inl ⟨start, rfl, hstart⟩
  | cons value values ih =>
      rw [List.foldlM_cons]
      rcases hstep value List.mem_cons_self start hstart with
        ⟨between, hfirst, hbetween⟩ | ⟨failure, hfirst, hfails⟩
      · rw [hfirst]
        exact ih (fun other hother =>
          hstep other (List.mem_cons_of_mem value hother)) hbetween
      · rw [hfirst]
        exact .inr ⟨failure, rfl, hfails⟩

/-- A fold succeeds if each step succeeds from what the ones before keep. -/
theorem Except.exists_foldlM_eq_ok (Invariant : α → Prop)
    (step : α → β → Except ε α) (values : List β)
    (hstep : ∀ value ∈ values, ∀ before, Invariant before →
      ∃ after, step before value = .ok after ∧ Invariant after)
    {start : α} (hstart : Invariant start) :
    ∃ result, values.foldlM step start = .ok result ∧ Invariant result := by
  have hnever : ∀ value ∈ values, ∀ before, Invariant before →
      (∃ after, step before value = .ok after ∧ Invariant after) ∨
        ∃ failure, step before value = .error failure ∧ False :=
    fun value hvalue before hbefore => .inl (hstep value hvalue before hbefore)
  rcases Except.foldlM_cases Invariant (fun _ => False) step values hnever
    hstart with hresult | ⟨_, _, hfails⟩
  · exact hresult
  · exact hfails.elim

section Map

variable {action : β → Except ε α} {values : List β}

/-- A list that is mapped gives one result for each value. -/
theorem Except.mapM_eq_ok_iff {results : List α} :
    values.mapM action = .ok results ↔
      List.Forall₂ (fun value result => action value = .ok result) values
        results := by
  induction values generalizing results with
  | nil =>
      rw [List.forall₂_nil_left_iff]
      exact ⟨fun hmap => (Except.ok.inj hmap).symm, fun hnil => hnil ▸ rfl⟩
  | cons value values ih =>
      rw [List.mapM_cons, List.forall₂_cons_left_iff]
      simp only [Except.bind_eq_ok_iff, ih]
      constructor
      · rintro ⟨result, hresult, others, hothers, hresults⟩
        exact ⟨result, others, hresult, hothers,
          (Except.ok.inj hresults).symm⟩
      · rintro ⟨result, others, hresult, hothers, rfl⟩
        exact ⟨result, hresult, others, hothers, rfl⟩

/-- Each value of a list that is mapped has its result. -/
theorem Except.exists_of_mapM_eq_ok {results : List α}
    (hmap : values.mapM action = .ok results) {value : β}
    (hvalue : value ∈ values) :
    ∃ result ∈ results, action value = .ok result := by
  have hboth := Except.mapM_eq_ok_iff.mp hmap
  obtain ⟨index, hindex, rfl⟩ := List.getElem_of_mem hvalue
  have hresult : index < results.length := hboth.length_eq ▸ hindex
  exact ⟨results[index], List.getElem_mem hresult,
    List.Forall₂.get hboth hindex hresult⟩

/-- Each result of a list that is mapped is that of a value. -/
theorem Except.mem_of_mapM_eq_ok {results : List α}
    (hmap : values.mapM action = .ok results) {result : α}
    (hresult : result ∈ results) :
    ∃ value ∈ values, action value = .ok result := by
  have hboth := Except.mapM_eq_ok_iff.mp hmap
  obtain ⟨index, hindex, rfl⟩ := List.getElem_of_mem hresult
  have hvalue : index < values.length := hboth.length_eq ▸ hindex
  exact ⟨values[index], List.getElem_mem hvalue,
    List.Forall₂.get hboth hvalue hindex⟩

/-- A list can be mapped if each of its values can. -/
theorem Except.exists_mapM_eq_ok
    (hvalues : ∀ value ∈ values, ∃ result, action value = .ok result) :
    ∃ results, values.mapM action = .ok results := by
  induction values with
  | nil => exact ⟨[], rfl⟩
  | cons value values ih =>
      obtain ⟨result, hresult⟩ := hvalues value List.mem_cons_self
      obtain ⟨results, hresults⟩ :=
        ih fun other hother => hvalues other (List.mem_cons_of_mem value hother)
      rw [Except.mapM_eq_ok_iff] at hresults
      exact ⟨_, Except.mapM_eq_ok_iff.mpr (.cons hresult hresults)⟩

/-- A list that cannot be mapped has a value that cannot. -/
theorem Except.exists_of_mapM_eq_error {failure : ε}
    (hmap : values.mapM action = .error failure) :
    ∃ value ∈ values, action value = .error failure := by
  induction values with
  | nil => cases hmap
  | cons value values ih =>
      rw [List.mapM_cons] at hmap
      rcases Except.bind_eq_error_iff.mp hmap with hfirst | ⟨_, _, hrest⟩
      · exact ⟨value, List.mem_cons_self, hfirst⟩
      · rcases Except.bind_eq_error_iff.mp hrest with hothers | ⟨_, _, hlast⟩
        · obtain ⟨other, hother, hfailed⟩ := ih hothers
          exact ⟨other, List.mem_cons_of_mem value hother, hfailed⟩
        · cases hlast

/-- A change of all results can wait until the list is mapped. -/
theorem Except.mapM_map {γ : Type} (change : α → γ) :
    (values.mapM fun value => (action value).map change) =
      (values.mapM action).map (List.map change) := by
  induction values with
  | nil => rfl
  | cons value values ih =>
      rw [List.mapM_cons, List.mapM_cons, ih]
      cases action value with
      | error failure => rfl
      | ok result => cases values.mapM action <;> rfl

end Map

namespace Outcome

@[simp]
theorem pure_eq_ok_iff {value result : α} {before after : σ} :
    (pure value : EStateM ε σ α) before = .ok result after ↔
      value = result ∧ before = after := by
  simp [pure, EStateM.pure]

/-- Whether an operation succeeds with an outcome that passes a test. -/
def passes (operation : EStateM ε σ α) (before : σ) (test : α → σ → Bool) :
    Bool :=
  match operation before with
  | .ok value after => test value after
  | .error _ _ => false

theorem exists_of_passes {operation : EStateM ε σ α} {before : σ}
    {test : α → σ → Bool} (hpasses : passes operation before test = true) :
    ∃ value after, operation before = .ok value after ∧
      test value after = true := by
  rw [passes] at hpasses
  split at hpasses
  · rename_i value after hrun
    exact ⟨value, after, hrun, hpasses⟩
  · cases hpasses

theorem bind_of_ok {first : EStateM ε σ α} {next : α → EStateM ε σ β}
    {value : α} {before after : σ} (h : first before = .ok value after) :
    (first >>= next) before = next value after := by
  simp [bind, EStateM.bind, h]

theorem bind_of_error {first : EStateM ε σ α} {next : α → EStateM ε σ β}
    {failure : ε} {before after : σ}
    (h : first before = .error failure after) :
    (first >>= next) before = .error failure after := by
  simp [bind, EStateM.bind, h]

theorem map_of_ok {operation : EStateM ε σ α} {before after : σ}
    (change : α → β) {value : α} (hrun : operation before = .ok value after) :
    (change <$> operation) before = .ok (change value) after := by
  change EStateM.map change operation before = _
  rw [EStateM.map, hrun]

theorem map_of_error {operation : EStateM ε σ α} {before after : σ}
    (change : α → β) {failure : ε}
    (hrun : operation before = .error failure after) :
    (change <$> operation) before = .error failure after := by
  change EStateM.map change operation before = _
  rw [EStateM.map, hrun]

theorem bind_eq_ok_iff {first : EStateM ε σ α} {next : α → EStateM ε σ β}
    {result : β} {before after : σ} :
    (first >>= next) before = .ok result after ↔
      ∃ value between, first before = .ok value between ∧
        next value between = .ok result after := by
  cases h : first before with
  | ok value between => simp [bind_of_ok h]
  | error failure between => simp [bind_of_error h]

theorem bind_eq_error_iff {first : EStateM ε σ α} {next : α → EStateM ε σ β}
    {failure : ε} {before after : σ} :
    (first >>= next) before = .error failure after ↔
      first before = .error failure after ∨ ∃ value between,
        first before = .ok value between ∧
          next value between = .error failure after := by
  cases hfirst : first before with
  | ok value between => rw [bind_of_ok hfirst]; simp
  | error other between => rw [bind_of_error hfirst]; simp

theorem get_bind {next : σ → EStateM ε σ β} {before : σ} :
    (get >>= next) before = next before before :=
  rfl

@[simp]
theorem get_eq_ok_iff {result before after : σ} :
    (get : EStateM ε σ σ) before = .ok result after ↔
      before = result ∧ before = after := by
  change EStateM.Result.ok before before = .ok result after ↔ _
  rw [EStateM.Result.ok.injEq]

@[simp]
theorem modify_eq_ok_iff {change : σ → σ} {result : PUnit}
    {before after : σ} :
    (modify change : EStateM ε σ PUnit) before = .ok result after ↔
      change before = after := by
  change EStateM.Result.ok PUnit.unit (change before) = .ok result after ↔ _
  rw [EStateM.Result.ok.injEq]
  exact and_iff_right rfl

@[simp]
theorem set_eq_ok_iff {value : σ} {result : PUnit} {before after : σ} :
    (set value : EStateM ε σ PUnit) before = .ok result after ↔
      value = after := by
  change EStateM.Result.ok PUnit.unit value = .ok result after ↔ _
  rw [EStateM.Result.ok.injEq]
  exact and_iff_right rfl

@[simp]
theorem throw_ne_ok {failure : ε} {result : α} {before after : σ} :
    ¬ (throw failure : EStateM ε σ α) before = .ok result after := by
  intro hthrow
  cases hthrow

section Loop

variable {step : β → EStateM ε σ PUnit} {values : List β}
  (Invariant : σ → Prop) (Related : σ → σ → Prop) (Done : β → σ → Prop)

/-- A loop keeps what each step keeps, leads to states that are related to the
one before it, and has done in the end what each step did, if later steps do
not undo it. -/
theorem forM_spec (hrefl : ∀ state, Related state state)
    (htrans : ∀ {first second third}, Related first second →
      Related second third → Related first third)
    (hstays : ∀ {value first second}, Related first second →
      Done value first → Done value second)
    (hstep : ∀ value ∈ values, ∀ {before after result},
      Invariant before → step value before = .ok result after →
        Invariant after ∧ Related before after ∧ Done value after)
    {before after : σ} {result : PUnit} (hbefore : Invariant before)
    (hrun : values.forM step before = .ok result after) :
    Invariant after ∧ Related before after ∧
      ∀ value ∈ values, Done value after := by
  induction values generalizing before with
  | nil =>
      simp only [List.forM, pure_eq_ok_iff] at hrun
      rw [← hrun.2]
      exact ⟨hbefore, hrefl before, by simp⟩
  | cons value values ih =>
      simp only [List.forM, bind_eq_ok_iff] at hrun
      obtain ⟨_, between, hfirst, hrest⟩ := hrun
      obtain ⟨hbetween, hrelated, hdone⟩ :=
        hstep value List.mem_cons_self hbefore hfirst
      obtain ⟨hafter, hlater, hothers⟩ :=
        ih (fun other hother => hstep other (List.mem_cons_of_mem value hother))
          hbetween hrest
      refine ⟨hafter, htrans hrelated hlater, fun other hother => ?_⟩
      rcases List.mem_cons.mp hother with rfl | hother
      · exact hstays hlater hdone
      · exact hothers other hother

/-- A loop succeeds if each step succeeds from what the ones before keep. -/
theorem exists_forM_eq_ok
    (hstep : ∀ value ∈ values, ∀ before, Invariant before →
      ∃ after, step value before = .ok ⟨⟩ after ∧ Invariant after)
    {before : σ} (hbefore : Invariant before) :
    ∃ after, values.forM step before = .ok ⟨⟩ after ∧ Invariant after := by
  induction values generalizing before with
  | nil => exact ⟨before, rfl, hbefore⟩
  | cons value values ih =>
      obtain ⟨between, hfirst, hbetween⟩ :=
        hstep value List.mem_cons_self before hbefore
      obtain ⟨after, hrest, hafter⟩ :=
        ih (fun other hother => hstep other (List.mem_cons_of_mem value hother))
          hbetween
      exact ⟨after, (bind_of_ok hfirst).trans hrest, hafter⟩

/-- A loop that fails does so at one of its values, after those before it. -/
theorem forM_eq_error {failure : ε} {before after : σ}
    (hrun : values.forM step before = .error failure after) :
    ∃ done value rest between, values = done ++ value :: rest ∧
      done.forM step before = .ok ⟨⟩ between ∧
      step value between = .error failure after := by
  induction values generalizing before with
  | nil => cases hrun
  | cons value values ih =>
      rcases bind_eq_error_iff.mp hrun with hfirst | ⟨_, between, hfirst, hrest⟩
      · exact ⟨[], value, values, before, rfl, rfl, hfirst⟩
      · obtain ⟨done, other, rest, last, rfl, hdone, hfailed⟩ := ih hrest
        exact ⟨value :: done, other, rest, last, rfl,
          (bind_of_ok hfirst).trans hdone, hfailed⟩

/-- Each result of a loop that collects results comes from one of its steps. -/
theorem mem_of_mapM_eq_ok {step : β → EStateM ε σ α} {results : List α}
    {before after : σ} (hrun : values.mapM step before = .ok results after)
    {result : α} (hresult : result ∈ results) :
    ∃ value ∈ values, ∃ first second,
      step value first = .ok result second := by
  induction values generalizing before after results with
  | nil =>
      obtain ⟨rfl, _⟩ := pure_eq_ok_iff.mp hrun
      exact absurd hresult List.not_mem_nil
  | cons value values ih =>
      rw [List.mapM_cons] at hrun
      obtain ⟨found, between, hfirst, hrun⟩ := bind_eq_ok_iff.mp hrun
      obtain ⟨others, _, hrest, hrun⟩ := bind_eq_ok_iff.mp hrun
      obtain ⟨rfl, _⟩ := pure_eq_ok_iff.mp hrun
      rcases List.mem_cons.mp hresult with rfl | hother
      · exact ⟨value, List.mem_cons_self, before, between, hfirst⟩
      · obtain ⟨other, hmem, hstep⟩ := ih hrest hother
        exact ⟨other, List.mem_cons_of_mem value hmem, hstep⟩

end Loop

end Outcome

end Bundler
