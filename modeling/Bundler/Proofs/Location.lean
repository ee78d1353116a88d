import Bundler.Proofs.Path

/-!
# Places that paths lead to

A path leads from a place to another one, if directories are not looked at.  Its
normal form leads to the same place, and shows where that is: it starts at the
root or goes up some times, and goes on by names.  So two paths have one normal
form just if they lead to the same place from everywhere.
-/

namespace Bundler

namespace PathPart

/-- The place that a step leads to from another one.  A place is known by the
names on the way to it from the root, the last one first. -/
def follow (place : List String) : PathPart → List String
  | .root => []
  | .here => place
  | .up => place.tail
  | .name text => text :: place

/-- What a step takes back led nowhere. -/
theorem foldl_follow_walk (start : List String) (done : List PathPart)
    (part : PathPart) :
    (walk done part).reverse.foldl follow start =
      follow (done.reverse.foldl follow start) part := by
  rw [walk.eq_def]
  split <;> simp [follow]

theorem foldl_follow_foldl_walk (start : List String)
    (done parts : List PathPart) :
    (parts.foldl walk done).reverse.foldl follow start =
      parts.foldl follow (done.reverse.foldl follow start) := by
  induction parts generalizing done with
  | nil => rfl
  | cons part parts ih =>
      rw [List.foldl_cons, ih, foldl_follow_walk, List.foldl_cons]

theorem root_mem_walk {done : List PathPart} {part : PathPart} :
    .root ∈ walk done part ↔ .root ∈ done ∨ part = .root := by
  rw [walk.eq_def]
  split <;> simp [or_comm, eq_comm]

/-- No step takes back the root. -/
theorem root_mem_foldl_walk {done parts : List PathPart} :
    .root ∈ parts.foldl walk done ↔ .root ∈ done ∨ .root ∈ parts := by
  induction parts generalizing done with
  | nil => simp
  | cons part parts ih =>
      rw [List.foldl_cons, ih, root_mem_walk, List.mem_cons, or_assoc,
        eq_comm (a := part)]

/-- Steps up, as often as given, or the root, and then steps into names. -/
def descent : Option Nat → List String → List PathPart
  | none, names => .root :: names.map .name
  | some ups, names => List.replicate ups .up ++ names.map .name

theorem descent_concat (ups : Option Nat) (names : List String)
    (text : String) :
    descent ups (names ++ [text]) = descent ups names ++ [.name text] := by
  cases ups <;> simp [descent]

theorem IsSettled.exists_descent {done : List PathPart}
    (hsettled : IsSettled done) :
    ∃ ups names, done.reverse = descent ups names ∧
      ∀ name ∈ names, IsSpelt (.name name) := by
  induction hsettled with
  | start => exact ⟨some 0, [], rfl, by simp⟩
  | root => exact ⟨none, [], rfl, by simp⟩
  | @up done hups =>
      refine ⟨some (done.length + 1), [], ?_, by simp⟩
      rw [List.eq_replicate_of_mem hups]
      simp [descent, List.replicate_succ']
  | @name text done hspelt _ ih =>
      obtain ⟨ups, names, hdone, hnames⟩ := ih
      refine ⟨ups, names ++ [text], ?_, ?_⟩
      · rw [List.reverse_cons, hdone, descent_concat]
      · exact List.forall_mem_append.mpr
          ⟨hnames, List.forall_mem_singleton.mpr hspelt⟩

theorem root_mem_descent {ups : Option Nat} {names : List String} :
    .root ∈ descent ups names ↔ ups = none := by
  cases ups <;> simp [descent]

theorem foldl_follow_names (place names : List String) :
    (names.map PathPart.name).foldl follow place = names.reverse ++ place := by
  induction names generalizing place with
  | nil => rfl
  | cons text names ih =>
      rw [List.map_cons, List.foldl_cons, ih, List.reverse_cons,
        List.append_assoc]
      rfl

theorem foldl_follow_ups (place : List String) (ups : Nat) :
    (List.replicate ups PathPart.up).foldl follow place = place.drop ups := by
  induction ups generalizing place with
  | zero => rfl
  | succ ups ih =>
      rw [List.replicate_succ, List.foldl_cons, ih, follow, List.drop_tail]

theorem foldl_follow_descent (start : List String) (ups : Option Nat)
    (names : List String) :
    (descent ups names).foldl follow start =
      names.reverse ++ (ups.map start.drop).getD [] := by
  cases ups with
  | none => exact foldl_follow_names [] names
  | some ups =>
      rw [descent, List.foldl_append, foldl_follow_ups, foldl_follow_names]
      rfl

/-- At the root it is seen which names have been taken, and at a place that is
deep enough how often a step has led up. -/
theorem descent_injective {ups others : Option Nat} {names words : List String}
    (hsame : ∀ start, (descent ups names).foldl follow start =
      (descent others words).foldl follow start) :
    ups = others ∧ names = words := by
  have hnames : names = words := by
    have hroot := hsame []
    simp only [foldl_follow_descent] at hroot
    cases ups <;> cases others <;> simpa using hroot
  refine ⟨?_, hnames⟩
  have hdeep := hsame (List.replicate (ups.getD 0 + others.getD 0 + 1) "")
  rw [foldl_follow_descent, foldl_follow_descent, hnames,
    List.append_cancel_left_eq] at hdeep
  have hlength := congrArg List.length hdeep
  cases ups with
  | none =>
      cases others with
      | none => rfl
      | some others => simp at hlength
  | some ups =>
      cases others with
      | none => simp at hlength
      | some others =>
          simp only [Option.map_some, Option.getD_some, List.length_drop,
            List.length_replicate] at hlength
          rw [show ups = others by omega]

end PathPart

namespace Path

open PathPart

/-- The place that a path leads to from another one. -/
def leadsTo (path : Path) (start : List String) : List String :=
  path.parts.foldl follow start

theorem parts_normalize (path : Path) :
    path.normalize.parts = (path.parts.foldl walk []).reverse :=
  parts_join path.isProper_parts.isSettled

theorem leadsTo_normalize (path : Path) :
    path.normalize.leadsTo = path.leadsTo := by
  funext start
  rw [leadsTo, parts_normalize, foldl_follow_foldl_walk]
  rfl

theorem isAbsolute_iff {path : Path} :
    path.isAbsolute = true ↔ .root ∈ path.parts := by
  constructor
  · intro habsolute
    obtain ⟨others, hpieces⟩ := pieces_of_isAbsolute habsolute
    rw [parts, hpieces, habsolute]
    exact List.mem_cons_self
  · intro hroot
    refine Decidable.byContradiction fun hrelative => ?_
    exact root_notMem_parts (Bool.eq_false_iff.mpr hrelative) hroot

theorem isAbsolute_normalize (path : Path) :
    path.normalize.isAbsolute = path.isAbsolute := by
  rw [Bool.eq_iff_iff, isAbsolute_iff, isAbsolute_iff, parts_normalize,
    List.mem_reverse, root_mem_foldl_walk]
  simp

theorem exists_parts_normalize (path : Path) :
    ∃ ups names, path.normalize.parts = descent ups names ∧
      ∀ name ∈ names, IsSpelt (.name name) := by
  rw [parts_normalize]
  exact path.isProper_parts.isSettled.exists_descent

theorem normalize_normalize (path : Path) :
    path.normalize.normalize = path.normalize := by
  rw [normalize, parts_normalize,
    path.isProper_parts.isSettled.foldl_reverse]
  rfl

theorem parts_normalize_of_leadsTo {left right : Path}
    (hplaces : left.leadsTo = right.leadsTo) :
    left.normalize.parts = right.normalize.parts := by
  obtain ⟨ups, names, hleft, _⟩ := left.exists_parts_normalize
  obtain ⟨others, words, hright, _⟩ := right.exists_parts_normalize
  rw [← left.leadsTo_normalize, ← right.leadsTo_normalize] at hplaces
  have hsame := fun start => congrFun hplaces start
  simp only [leadsTo, hleft, hright] at hsame
  obtain ⟨rfl, rfl⟩ := descent_injective hsame
  rw [hleft, hright]

/-- The normal form of a path goes up only from a relative start and only before
any name, and it is normal itself.  It leads to the same place as the path, and
just the paths that lead there as well have the same normal form, be it by their
texts or by their steps. -/
theorem normalize_canonical (path : Path) :
    (∃ ups names, path.normalize.parts = descent ups names ∧
      path.normalize.text = join (descent ups names) ∧
      (∀ name ∈ names, IsSpelt (.name name)) ∧
      (ups = none ↔ path.isAbsolute = true)) ∧
    path.normalize.isAbsolute = path.isAbsolute ∧
    path.normalize.normalize = path.normalize ∧
    path.normalize.leadsTo = path.leadsTo ∧
    ∀ other : Path,
      (path.normalize = other.normalize ↔ path.leadsTo = other.leadsTo) ∧
      (path.normalize.same other.normalize = true ↔
        path.leadsTo = other.leadsTo) := by
  obtain ⟨ups, names, hparts, hnames⟩ := path.exists_parts_normalize
  have htext : path.normalize.text = join (descent ups names) := by
    rw [← hparts, parts_normalize, normalize]
  have hroot : ups = none ↔ path.isAbsolute = true := by
    rw [← path.isAbsolute_normalize, isAbsolute_iff, hparts, root_mem_descent]
  refine ⟨⟨ups, names, hparts, htext, hnames, hroot⟩,
    path.isAbsolute_normalize, path.normalize_normalize,
    path.leadsTo_normalize, fun other => ?_⟩
  have hback : path.normalize.parts = other.normalize.parts →
      path.leadsTo = other.leadsTo := by
    intro hsame
    funext start
    rw [← path.leadsTo_normalize, ← other.leadsTo_normalize, leadsTo, leadsTo,
      hsame]
  constructor
  · constructor
    · exact fun hsame => hback (congrArg parts hsame)
    · intro hplaces
      have hsame := parts_normalize_of_leadsTo hplaces
      rw [parts_normalize, parts_normalize] at hsame
      rw [normalize, normalize, hsame]
  · rw [same, decide_eq_true_eq]
    exact ⟨hback, parts_normalize_of_leadsTo⟩

example :
    let path : Path := ⟨"./a//../../b/."⟩
    path.normalize = ⟨"../b"⟩ ∧ path.leadsTo ["d", "c"] = ["b", "c"] := by
  decide

end Path

end Bundler
