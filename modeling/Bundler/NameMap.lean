/-!
# Maps keyed by names

Finite maps from names, kept as pairs in the order in which the names were
first inserted.  Inserting a name again replaces its value in place, so the
order of the keys is the order of their first insertion.
-/

namespace Bundler

structure NameMap (α : Type) where
  entries : List (String × α)
  deriving DecidableEq

namespace NameMap

variable {α : Type}

def empty : NameMap α := ⟨[]⟩

/-- The value of a name in a list of pairs, of which the first counts. -/
def lookup (name : String) : List (String × α) → Option α
  | [] => none
  | (key, value) :: entries => if key = name then some value else lookup name entries

def get? (map : NameMap α) (name : String) : Option α :=
  lookup name map.entries

def contains (map : NameMap α) (name : String) : Bool :=
  (map.get? name).isSome

/-- Sets the value of a name, in place if it has one and at the end if not. -/
def put (name : String) (value : α) : List (String × α) → List (String × α)
  | [] => [(name, value)]
  | (key, old) :: entries =>
      if key = name then (key, value) :: entries
      else (key, old) :: put name value entries

def insert (map : NameMap α) (name : String) (value : α) : NameMap α :=
  ⟨put name value map.entries⟩

/-- Inserts a value under a name that has none, and keeps the value of a name
that has one. -/
def insertNew (map : NameMap α) (name : String) (value : α) : NameMap α :=
  if map.contains name then map else map.insert name value

/-- The names in the order of their first insertion. -/
def keys (map : NameMap α) : List String := map.entries.map (·.1)

theorem lookup_put (name other : String) (value : α)
    (entries : List (String × α)) :
    lookup other (put name value entries) =
      if other = name then some value else lookup other entries := by
  induction entries with
  | nil => grind [lookup, put]
  | cons entry entries ih => grind [lookup, put]

/-- Insertion changes the value of one name and of no other. -/
theorem get?_insert (map : NameMap α) (name other : String) (value : α) :
    (map.insert name value).get? other =
      if other = name then some value else map.get? other :=
  lookup_put name other value map.entries

@[simp]
theorem get?_empty (name : String) : (empty : NameMap α).get? name = none := rfl

/-- An insertion of a new name leaves the names that have a value alone. -/
theorem get?_insertNew (map : NameMap α) (name other : String) (value : α) :
    (map.insertNew name value).get? other =
      (map.get? other).or (if other = name then some value else none) := by
  unfold insertNew contains
  by_cases hother : other = name
  · subst hother
    cases hfound : map.get? other with
    | none => simp [get?_insert]
    | some found => simp [hfound]
  · by_cases hname : (map.get? name).isSome
    · simp [hname, hother]
    · simp [hname, get?_insert, hother]

end NameMap

section PushNew

variable {α : Type} [DecidableEq α] {values : List α} {value other : α}

/-- Adds a value to a list that does not hold it yet. -/
def pushNew (values : List α) (value : α) : List α :=
  if value ∈ values then values else values ++ [value]

@[simp]
theorem mem_pushNew : other ∈ pushNew values value ↔
    other ∈ values ∨ other = value := by
  rw [pushNew]
  split
  · rename_i hmem
    exact ⟨.inl, fun h => h.elim id fun heq => heq ▸ hmem⟩
  · rw [List.mem_append, List.mem_singleton]

theorem nodup_pushNew (hnodup : values.Nodup) :
    (pushNew values value).Nodup := by
  rw [pushNew]
  split
  · exact hnodup
  · rename_i hnew
    rw [List.nodup_append]
    refine ⟨hnodup, by simp, fun other hother last hlast => ?_⟩
    rw [List.mem_singleton.mp hlast]
    rintro rfl
    exact hnew hother

end PushNew

namespace NameMap

variable {α : Type} {name : String} {value : α}

theorem map_fst_put (name : String) (value : α)
    (entries : List (String × α)) :
    (put name value entries).map (·.1) =
      pushNew (entries.map (·.1)) name := by
  induction entries with
  | nil => rfl
  | cons entry entries ih => grind [put, pushNew]

/-- The keys are in the order of their first insertion. -/
theorem keys_insert (map : NameMap α) (name : String) (value : α) :
    (map.insert name value).keys = pushNew map.keys name :=
  map_fst_put name value map.entries

theorem mem_of_lookup_eq_some {entries : List (String × α)}
    (hlookup : lookup name entries = some value) :
    (name, value) ∈ entries := by
  induction entries with
  | nil => simp [lookup] at hlookup
  | cons entry entries ih => grind [lookup]

theorem lookup_eq_some_of_mem {entries : List (String × α)}
    (hnodup : (entries.map (·.1)).Nodup) (hmem : (name, value) ∈ entries) :
    lookup name entries = some value := by
  induction entries with
  | nil => exact absurd hmem List.not_mem_nil
  | cons entry entries ih => grind [lookup]

theorem mem_keys_iff {map : NameMap α} :
    name ∈ map.keys ↔ ∃ value, map.get? name = some value := by
  rw [keys, get?]
  induction map.entries with
  | nil => simp [lookup]
  | cons entry entries ih =>
      obtain ⟨key, value⟩ := entry
      rw [List.map_cons, List.mem_cons, ih, lookup]
      by_cases hkey : key = name
      · simp [hkey]
      · simp [hkey, Ne.symm hkey]

/-- Under keys that differ, the entries are just the names with their
values. -/
theorem mem_entries_iff {map : NameMap α} (hnodup : map.keys.Nodup) :
    (name, value) ∈ map.entries ↔ map.get? name = some value :=
  ⟨lookup_eq_some_of_mem hnodup, mem_of_lookup_eq_some⟩

end NameMap

end Bundler
