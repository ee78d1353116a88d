import Bundler.Analysis.Basic
import Bundler.Proofs.Outcome

/-!
# Tables of definitions and modifications

The tables of a module are read off its statements: the one of definitions
gives the first statement that declares a name, the one of modifications all
statements that write it.  Hence every number in a table is the number of a
statement.
-/

namespace Bundler

namespace Analysis

section ByName

variable {name : String} {id : Nat} {names : List String}

private theorem get?_foldl_insertNew (map : NameMap Nat) :
    (names.foldl (fun map name => map.insertNew name id) map).get? name =
      (map.get? name).or (if name ∈ names then some id else none) := by
  induction names generalizing map with
  | nil => simp
  | cons first names ih =>
      rw [List.foldl_cons, ih, NameMap.get?_insertNew]
      by_cases hfirst : name = first
      · cases map.get? name <;> simp [hfirst]
      · cases map.get? name <;> simp [hfirst]

private theorem get?_firstByName_from (statements : List (Nat × List String))
    (map : NameMap Nat) :
    (statements.foldl
        (fun map (id, names) =>
          names.foldl (fun map name => map.insertNew name id) map)
        map).get? name =
      (map.get? name).or
        ((statements.find? (name ∈ ·.2)).map (·.1)) := by
  induction statements generalizing map with
  | nil => simp
  | cons statement statements ih =>
      rw [List.foldl_cons, ih, get?_foldl_insertNew, List.find?_cons]
      by_cases hname : name ∈ statement.2
      · cases map.get? name <;> simp [hname]
      · cases map.get? name <;> simp [hname]

theorem get?_firstByName (statements : List (Nat × List String)) :
    (firstByName statements).get? name =
      (statements.find? (name ∈ ·.2)).map (·.1) := by
  rw [firstByName, get?_firstByName_from, NameMap.get?_empty, Option.none_or]

private theorem mem_foldl_insert (map : NameMap (List Nat)) {other : Nat} :
    other ∈ ((names.foldl
        (fun map name => map.insert name ((map.get? name).getD [] ++ [id]))
        map).get? name).getD [] ↔
      other ∈ (map.get? name).getD [] ∨ other = id ∧ name ∈ names := by
  induction names generalizing map with
  | nil => simp
  | cons first names ih =>
      rw [List.foldl_cons, ih, NameMap.get?_insert]
      by_cases hfirst : name = first
      · subst hfirst
        simp only [if_true, Option.getD_some, List.mem_append,
          List.mem_cons, true_or, and_true]
        tauto
      · simp [hfirst]

private theorem mem_allByName_from (statements : List (Nat × List String))
    (map : NameMap (List Nat)) :
    id ∈ ((statements.foldl
        (fun map (id, names) => names.foldl
          (fun map name => map.insert name ((map.get? name).getD [] ++ [id]))
          map)
        map).get? name).getD [] ↔
      id ∈ (map.get? name).getD [] ∨
        ∃ names, (id, names) ∈ statements ∧ name ∈ names := by
  induction statements generalizing map with
  | nil => simp
  | cons statement statements ih =>
      rw [List.foldl_cons, ih, mem_foldl_insert]
      constructor
      · rintro ((hold | ⟨rfl, hname⟩) | ⟨names, hmem, hname⟩)
        · exact .inl hold
        · exact .inr ⟨statement.2, List.mem_cons_self, hname⟩
        · exact .inr ⟨names, List.mem_cons_of_mem statement hmem, hname⟩
      · rintro (hold | ⟨names, hmem, hname⟩)
        · exact .inl (.inl hold)
        · rcases List.mem_cons.mp hmem with rfl | hmem
          · exact .inl (.inr ⟨rfl, hname⟩)
          · exact .inr ⟨names, hmem, hname⟩

theorem mem_allByName {statements : List (Nat × List String)} :
    id ∈ ((allByName statements).get? name).getD [] ↔
      ∃ names, (id, names) ∈ statements ∧ name ∈ names := by
  rw [allByName, mem_allByName_from]
  simp

end ByName

section Numbered

variable {α : Type} {values : List α} {value : α} {id : Nat}

theorem mem_zip_range_iff :
    (id, value) ∈ (List.range values.length).zip values ↔
      values[id]? = some value := by
  simp only [List.mem_iff_getElem?, List.getElem?_zip_eq_some]
  constructor
  · rintro ⟨index, hindex, hvalue⟩
    obtain ⟨_, rfl⟩ := List.getElem?_eq_some_iff.mp hindex
    simpa using hvalue
  · intro hvalue
    have hid : id < values.length := (List.getElem?_eq_some_iff.mp hvalue).1
    exact ⟨id, by simp [hid], hvalue⟩

/-- The first number in a list of numbered values for which something holds. -/
theorem find?_zip_range_eq_some_iff {p : α → Bool} :
    ((List.range values.length).zip values).find? (p ·.2) =
        some (id, value) ↔
      values[id]? = some value ∧ p value = true ∧
        ∀ earlier < id, ∀ other, values[earlier]? = some other →
          p other = false := by
  rw [List.find?_eq_some_iff_getElem]
  constructor
  · rintro ⟨hholds, index, hindex, hvalue, hearlier⟩
    simp only [List.getElem_zip, List.getElem_range, Prod.mk.injEq] at hvalue
    obtain ⟨rfl, rfl⟩ := hvalue
    refine ⟨by simp, hholds, fun earlier hlt other hother => ?_⟩
    obtain ⟨_, rfl⟩ := List.getElem?_eq_some_iff.mp hother
    simpa using hearlier earlier hlt
  · rintro ⟨hvalue, hholds, hearlier⟩
    obtain ⟨hid, hget⟩ := List.getElem?_eq_some_iff.mp hvalue
    refine ⟨hholds, id, by simpa using hid, by simp [hget], ?_⟩
    intro earlier hlt
    have hother : values[earlier]? = some values[earlier] := by simp
    simpa using hearlier earlier hlt values[earlier] hother

end Numbered

/-- The tables of an analysis are those of its statements. -/
structure HasTables (analysis : Analysis) : Prop where
  definitions : analysis.definitions =
    firstByName (((List.range analysis.statements.length).zip
      analysis.statements).map fun (id, s) => (id, s.defines))
  modifications : analysis.modifications =
    allByName (((List.range analysis.statements.length).zip
      analysis.statements).map fun (id, s) => (id, s.modifies))

namespace HasTables

variable {analysis : Analysis} {name : String} {id : Nat}

/-- The table of definitions gives the first statement that declares a name. -/
theorem get?_definitions_eq_some_iff (htables : analysis.HasTables) :
    analysis.definitions.get? name = some id ↔
      ∃ statement, analysis.statements[id]? = some statement ∧
        name ∈ statement.defines ∧
        ∀ earlier < id, ∀ other, analysis.statements[earlier]? = some other →
          name ∉ other.defines := by
  rw [htables.definitions, get?_firstByName, List.find?_map, Option.map_map,
    Option.map_eq_some_iff]
  constructor
  · rintro ⟨⟨_, statement⟩, hfind, rfl⟩
    have hfirst := find?_zip_range_eq_some_iff
      (p := fun s : Statement => decide (name ∈ s.defines)) |>.mp hfind
    refine ⟨statement, hfirst.1, by simpa using hfirst.2.1, ?_⟩
    intro earlier hlt other hother
    simpa using hfirst.2.2 earlier hlt other hother
  · rintro ⟨statement, hstatement, hname, hearlier⟩
    refine ⟨(id, statement), ?_, rfl⟩
    apply find?_zip_range_eq_some_iff
      (p := fun s : Statement => decide (name ∈ s.defines)) |>.mpr
    refine ⟨hstatement, by simpa using hname, ?_⟩
    intro earlier hlt other hother
    simpa using hearlier earlier hlt other hother

/-- A name is in the table of definitions as soon as some statement declares
it. -/
theorem isSome_get?_definitions (htables : analysis.HasTables)
    {statement : Statement} (hstatement : statement ∈ analysis.statements)
    (hname : name ∈ statement.defines) :
    ∃ id, analysis.definitions.get? name = some id := by
  rw [htables.definitions, get?_firstByName, List.find?_map, Option.map_map]
  obtain ⟨id, hid⟩ := List.mem_iff_getElem?.mp hstatement
  have hmem : (id, statement) ∈
      (List.range analysis.statements.length).zip analysis.statements :=
    mem_zip_range_iff.mpr hid
  cases hfind : ((List.range analysis.statements.length).zip
      analysis.statements).find?
        ((fun entry : Nat × List String => decide (name ∈ entry.2)) ∘
          fun (id, s) => (id, s.defines)) with
  | some found => exact ⟨_, rfl⟩
  | none =>
      have hnot := List.find?_eq_none.mp hfind (id, statement) hmem
      simp [hname] at hnot

/-- The table of modifications gives all statements that write a name. -/
theorem mem_modifications_iff (htables : analysis.HasTables) :
    id ∈ (analysis.modifications.get? name).getD [] ↔
      ∃ statement, analysis.statements[id]? = some statement ∧
        name ∈ statement.modifies := by
  rw [htables.modifications, mem_allByName]
  constructor
  · rintro ⟨names, hmem, hname⟩
    obtain ⟨⟨_, statement⟩, hnumbered, heq⟩ := List.mem_map.mp hmem
    simp only [Prod.mk.injEq] at heq
    obtain ⟨rfl, rfl⟩ := heq
    exact ⟨statement, mem_zip_range_iff.mp hnumbered, hname⟩
  · rintro ⟨statement, hstatement, hname⟩
    refine ⟨statement.modifies, List.mem_map.mpr ?_, hname⟩
    exact ⟨(id, statement), mem_zip_range_iff.mpr hstatement, rfl⟩

end HasTables

/-- What a successful analysis found, step by step. -/
theorem ofProgram_eq_ok {path : Path} {source : String} {program : Program}
    {analysis : Analysis}
    (hanalysis : ofProgram path source program = .ok analysis) :
    ∃ kinds usages,
      Interface.ofStatements source.toList program.statements =
        .ok (kinds, analysis.interface) ∧
      analysis.tree = (declareAll (program.statements.zip kinds)).1 ∧
      useAll analysis.tree analysis.interface.imports.keys
        ((program.statements.zip kinds).zip
          (declareAll (program.statements.zip kinds)).2) = .ok usages ∧
      analysis.statements =
        ((program.statements.zip kinds).zip
          ((declareAll (program.statements.zip kinds)).2.zip
            (usages.zip (Layout.ofStatements source.toList
              (program.statements.map (·.span)) program.comments)))).map
          (fun ((node, kind), defines, usage, layout) =>
            statementOf node kind defines usage layout) ∧
      analysis.HasTables := by
  rw [ofProgram] at hanalysis
  simp only [Except.bind_eq_ok_iff] at hanalysis
  obtain ⟨⟨kinds, interface⟩, hinterface, hanalysis⟩ := hanalysis
  have hkinds : Interface.ofStatements source.toList program.statements =
      .ok (kinds, interface) := by
    cases h : Interface.ofStatements source.toList program.statements with
    | error repeated => simp [h, Except.mapError] at hinterface
    | ok found => simpa [h, Except.mapError] using hinterface
  split at hanalysis
  · simp [bind, Except.bind, throw, throwThe, MonadExceptOf.throw]
      at hanalysis
  · simp only [Except.bind_eq_ok_iff] at hanalysis
    obtain ⟨usages, husages, hanalysis⟩ := hanalysis
    have huse : useAll (declareAll (program.statements.zip kinds)).1
        interface.imports.keys ((program.statements.zip kinds).zip
          (declareAll (program.statements.zip kinds)).2) = .ok usages := by
      cases h : useAll (declareAll (program.statements.zip kinds)).1
          interface.imports.keys ((program.statements.zip kinds).zip
            (declareAll (program.statements.zip kinds)).2) with
      | error written => simp [h, Except.mapError] at husages
      | ok found => simpa [h, Except.mapError] using husages
    simp only [pure, Except.pure, Except.ok.injEq] at hanalysis
    subst hanalysis
    exact ⟨kinds, usages, hkinds, rfl, huse, rfl, ⟨rfl, rfl⟩⟩

end Analysis

end Bundler
