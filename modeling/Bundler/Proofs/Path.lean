import Bundler.Build.Bundle

/-!
# Normal paths

A walk along the steps of a path takes back what a later step up undoes.  Written
down again, the steps that are left are read off as they are, and a further walk
along them takes nothing back: this is the normal form of a path.  The entry of a
bundle has it, and so has every path that a relative specifier leads to; only an
absolute specifier is taken as it stands.
-/

namespace Bundler

namespace PathPart

/-- A step that is read off again from its text. -/
structure IsSpelt (part : PathPart) : Prop where
  noSlash : '/' ∉ part.text.toList
  read : ∀ atStart, ofPiece? atStart part.text.toList = some part

theorem isSpelt_up : IsSpelt .up :=
  ⟨by decide, fun _ => rfl⟩

/-- Only the names among the steps that are read off have texts of their own. -/
theorem isSpelt_name_of_ofPiece? {atStart : Bool} {piece : List Char}
    {text : String} (hslash : '/' ∉ piece)
    (hread : ofPiece? atStart piece = some (.name text)) :
    IsSpelt (.name text) := by
  have htext : text = String.ofList piece := by
    simp only [ofPiece?] at hread
    split at hread <;> simp_all
  constructor
  · simpa [PathPart.text, htext] using hslash
  · intro other
    rw [PathPart.text, htext, String.toList_ofList]
    simp only [ofPiece?] at hread ⊢
    split at hread <;> simp_all

theorem ofPiece?_ne_root {atStart : Bool} {piece : List Char} {part : PathPart}
    (hread : ofPiece? atStart piece = some part) : part ≠ .root := by
  rintro rfl
  simp only [ofPiece?] at hread
  split at hread <;> simp_all

theorem isSpelt_script {text : String} (hslash : '/' ∉ text.toList) :
    IsSpelt (.name (text ++ ".js")) := by
  have hlength : 3 ≤ (text ++ ".js").toList.length := by simp
  constructor
  · simpa [PathPart.text] using hslash
  · intro atStart
    rw [PathPart.text, ofPiece?.eq_def]
    split <;> simp_all

/-- The steps of a walk, the last one first, none of which takes back another
one. -/
inductive IsSettled : List PathPart → Prop
  | start : IsSettled []
  | root : IsSettled [.root]
  | up {done : List PathPart} :
      (∀ part ∈ done, part = .up) → IsSettled (.up :: done)
  | name {text : String} {done : List PathPart} :
      IsSpelt (.name text) → IsSettled done → IsSettled (.name text :: done)

theorem IsSettled.of_ups {done : List PathPart}
    (hups : ∀ part ∈ done, part = .up) : IsSettled done := by
  cases done with
  | nil => exact .start
  | cons part done =>
      rw [hups part List.mem_cons_self]
      exact .up fun other hother => hups other (List.mem_cons_of_mem part hother)

/-- Steps of which the root can only be the first, and all names can be read off
again. -/
structure IsProper (parts : List PathPart) : Prop where
  root : ∀ part ∈ parts.tail, part ≠ .root
  spelt : ∀ text, .name text ∈ parts → IsSpelt (.name text)

theorem IsProper.append {parts others : List PathPart}
    (hparts : IsProper parts) (hothers : IsProper others)
    (hroot : .root ∉ others) : IsProper (parts ++ others) := by
  constructor
  · cases parts with
    | nil => exact hothers.root
    | cons first parts =>
        intro part hpart
        rcases List.mem_append.mp hpart with hold | hnew
        · exact hparts.root part hold
        · exact fun h => hroot (h ▸ hnew)
  · intro text htext
    rcases List.mem_append.mp htext with hold | hnew
    · exact hparts.spelt text hold
    · exact hothers.spelt text hnew

/-- What comes before a step up that is not taken back, or before another such
step, are steps up or nothing. -/
theorem IsSettled.up_cases {done : List PathPart} (hsettled : IsSettled done)
    (hname : ∀ text rest, done ≠ .name text :: rest)
    (hroot : ∀ rest, done ≠ .root :: rest) : ∀ part ∈ done, part = .up := by
  cases hsettled with
  | start => simp
  | root => exact absurd rfl (hroot [])
  | up hups => simpa using hups
  | name _ _ => exact absurd rfl (hname _ _)

theorem IsSettled.walk {done : List PathPart} {part : PathPart}
    (hsettled : IsSettled done) (hroot : part = .root → done = [])
    (hspelt : ∀ text, part = .name text → IsSpelt part) :
    IsSettled (PathPart.walk done part) := by
  cases part with
  | here => exact hsettled
  | root =>
      rw [hroot rfl]
      exact .root
  | name text => exact .name (hspelt text rfl) hsettled
  | up =>
      rw [PathPart.walk.eq_def]
      split
      · exact hsettled
      · cases hsettled with
        | name _ hrest => exact hrest
      · exact hsettled
      · rename_i hname hroots
        apply IsSettled.up
        exact hsettled.up_cases (fun text rest h => hname text rest rfl h)
          (fun rest h => hroots rest rfl h)

theorem IsSettled.foldl {parts done : List PathPart}
    (hsettled : IsSettled done) (hroot : ∀ part ∈ parts, part ≠ .root)
    (hspelt : ∀ text, .name text ∈ parts → IsSpelt (.name text)) :
    IsSettled (parts.foldl PathPart.walk done) := by
  induction parts generalizing done with
  | nil => exact hsettled
  | cons part parts ih =>
      rw [List.foldl_cons]
      apply ih
      · apply hsettled.walk
        · exact fun h => absurd h (hroot part List.mem_cons_self)
        · rintro text rfl
          exact hspelt text List.mem_cons_self
      · exact fun other hother => hroot other (List.mem_cons_of_mem part hother)
      · exact fun text htext => hspelt text (List.mem_cons_of_mem part htext)

/-- A walk along proper steps is settled. -/
theorem IsProper.isSettled {parts : List PathPart} (hproper : IsProper parts) :
    IsSettled (parts.foldl PathPart.walk []) := by
  cases parts with
  | nil => exact .start
  | cons part parts =>
      rw [List.foldl_cons]
      apply IsSettled.foldl
      · apply IsSettled.start.walk (fun _ => rfl)
        rintro text rfl
        exact hproper.spelt text List.mem_cons_self
      · exact hproper.root
      · exact fun text htext =>
          hproper.spelt text (List.mem_cons_of_mem part htext)

theorem walk_up {done : List PathPart} (hups : ∀ part ∈ done, part = .up) :
    PathPart.walk done .up = .up :: done := by
  cases done with
  | nil => rfl
  | cons part done =>
      rw [hups part List.mem_cons_self]
      rfl

theorem foldl_ups {done : List PathPart} (hups : ∀ part ∈ done, part = .up) :
    done.reverse.foldl PathPart.walk [] = done := by
  induction done with
  | nil => rfl
  | cons part done ih =>
      obtain rfl := hups part List.mem_cons_self
      have hrest : ∀ part ∈ done, part = .up :=
        fun other hother => hups other (List.mem_cons_of_mem _ hother)
      rw [List.reverse_cons, List.foldl_append, ih hrest]
      exact walk_up hrest

/-- A further walk along settled steps takes nothing back. -/
theorem IsSettled.foldl_reverse {done : List PathPart}
    (hsettled : IsSettled done) :
    done.reverse.foldl PathPart.walk [] = done := by
  induction hsettled with
  | start => rfl
  | root => rfl
  | up hups =>
      rw [List.reverse_cons, List.foldl_append, foldl_ups hups]
      exact walk_up hups
  | name _ _ ih =>
      rw [List.reverse_cons, List.foldl_append, ih]
      rfl

/-- Settled steps start at the root, or not, and go on by steps that are read off
again. -/
theorem IsSettled.reverse_cases {done : List PathPart}
    (hsettled : IsSettled done) :
    (∀ part ∈ done.reverse, IsSpelt part) ∨
      ∃ rest, done.reverse = .root :: rest ∧ ∀ part ∈ rest, IsSpelt part := by
  induction hsettled with
  | start => simp
  | root => exact .inr ⟨[], rfl, by simp⟩
  | up hups =>
      apply Or.inl
      intro part hpart
      rw [List.mem_reverse, List.mem_cons] at hpart
      rcases hpart with rfl | hpart
      · exact isSpelt_up
      · exact hups part hpart ▸ isSpelt_up
  | @name text done hspelt _ ih =>
      rw [List.reverse_cons]
      rcases ih with hall | ⟨rest, hrest, hall⟩
      · apply Or.inl
        intro part hpart
        rcases List.mem_append.mp hpart with hold | hnew
        · exact hall part hold
        · exact List.mem_singleton.mp hnew ▸ hspelt
      · refine Or.inr ⟨rest ++ [.name text], by simp [hrest], ?_⟩
        intro part hpart
        rcases List.mem_append.mp hpart with hold | hnew
        · exact hall part hold
        · exact List.mem_singleton.mp hnew ▸ hspelt

/-- The text of steps goes on with the text of the last one. -/
theorem exists_join_concat (parts : List PathPart) :
    ∃ front : String, ∀ last : PathPart, last ≠ .root →
      join (parts ++ [last]) = front ++ last.text := by
  have hplain : ∀ parts : List PathPart, ∃ front : String, ∀ last : PathPart,
      "/".intercalate ((parts ++ [last]).map text) = front ++ last.text := by
    intro parts
    induction parts with
    | nil => exact ⟨"", fun last => by simp⟩
    | cons part parts ih =>
        obtain ⟨front, hfront⟩ := ih
        refine ⟨part.text ++ "/" ++ front, fun last => ?_⟩
        rw [String.append_assoc, ← hfront last]
        cases parts <;> exact String.intercalate_cons_cons
  cases parts with
  | nil =>
      refine ⟨"", fun last hlast => ?_⟩
      cases last <;> first | exact absurd rfl hlast | simp [join]
  | cons part parts =>
      cases part with
      | root =>
          obtain ⟨front, hfront⟩ := hplain parts
          refine ⟨"/" ++ front, fun last _ => ?_⟩
          rw [String.append_assoc, ← hfront last]
          rfl
      | here | up | name text =>
          obtain ⟨front, hfront⟩ := hplain (_ :: parts)
          exact ⟨front, fun last _ => hfront last⟩

/-- The extension of a script makes the last step a name, or is one if there is
no step that it can be added to. -/
theorem IsSettled.exists_script {done : List PathPart}
    (hsettled : IsSettled done) :
    ∃ extended, IsSettled extended ∧
      join extended.reverse = join done.reverse ++ ".js" := by
  cases hsettled with
  | start =>
      exact ⟨[.name ("" ++ ".js")], .name (isSpelt_script (by decide)) .start,
        rfl⟩
  | root =>
      exact ⟨[.name ("" ++ ".js"), .root],
        .name (isSpelt_script (by decide)) .root, rfl⟩
  | @up done hups =>
      obtain ⟨front, hfront⟩ := exists_join_concat done.reverse
      refine ⟨.name (".." ++ ".js") :: done,
        .name (isSpelt_script (by decide)) (.of_ups hups), ?_⟩
      rw [List.reverse_cons, List.reverse_cons, hfront _ (by simp),
        hfront _ (by simp), String.append_assoc]
      rfl
  | @name text done hspelt hdone =>
      obtain ⟨front, hfront⟩ := exists_join_concat done.reverse
      refine ⟨.name (text ++ ".js") :: done,
        .name (isSpelt_script hspelt.noSlash) hdone, ?_⟩
      rw [List.reverse_cons, List.reverse_cons, hfront _ (by simp),
        hfront _ (by simp), String.append_assoc]
      rfl

end PathPart

namespace Path

open PathPart

theorem pieces_of_notMem {text : List Char} (hslash : '/' ∉ text) :
    pieces text = [text] := by
  induction text with
  | nil => rfl
  | cons c text ih =>
      rw [List.mem_cons, not_or] at hslash
      rw [pieces, if_neg (Ne.symm hslash.1), ih hslash.2]

theorem pieces_append_slash {text : List Char} (hslash : '/' ∉ text)
    (others : List Char) :
    pieces (text ++ '/' :: others) = text :: pieces others := by
  induction text with
  | nil => rfl
  | cons c text ih =>
      rw [List.mem_cons, not_or] at hslash
      rw [List.cons_append, pieces, if_neg (Ne.symm hslash.1), ih hslash.2]

/-- Pieces put between slashes are taken apart again. -/
theorem pieces_intercalate {texts : List (List Char)} (hne : texts ≠ [])
    (hslash : ∀ text ∈ texts, '/' ∉ text) :
    pieces (['/'].intercalate texts) = texts := by
  induction texts with
  | nil => exact absurd rfl hne
  | cons text texts ih =>
      have htext := hslash text List.mem_cons_self
      cases texts with
      | nil => simpa [List.intercalate] using pieces_of_notMem htext
      | cons other texts =>
          have hothers := ih (by simp)
            (fun other hother => hslash other (List.mem_cons_of_mem _ hother))
          rw [List.intercalate_cons_cons, List.append_assoc, List.singleton_append,
            pieces_append_slash htext, hothers]

theorem slash_notMem_of_mem_pieces {text piece : List Char}
    (hpiece : piece ∈ pieces text) : '/' ∉ piece := by
  induction text generalizing piece with
  | nil => simp_all [pieces]
  | cons c text ih =>
      rw [pieces] at hpiece
      split at hpiece
      · rcases List.mem_cons.mp hpiece with rfl | hpiece
        · exact List.not_mem_nil
        · exact ih hpiece
      · rename_i hc
        split at hpiece
        · simp_all [Ne.symm hc]
        · rename_i first others hpieces
          rw [hpieces] at ih
          rcases List.mem_cons.mp hpiece with rfl | hpiece
          · rw [List.mem_cons, not_or]
            exact ⟨Ne.symm hc, ih List.mem_cons_self⟩
          · exact ih (List.mem_cons_of_mem first hpiece)

theorem filterMap_ofPiece? {parts : List PathPart}
    (hspelt : ∀ part ∈ parts, IsSpelt part) :
    (parts.map (·.text.toList)).filterMap (ofPiece? false) = parts := by
  induction parts with
  | nil => rfl
  | cons part parts ih =>
      rw [List.map_cons,
        List.filterMap_cons_some ((hspelt part List.mem_cons_self).read false),
        ih fun other hother => hspelt other (List.mem_cons_of_mem part hother)]

theorem pieces_join {parts : List PathPart} (hne : parts ≠ [])
    (hspelt : ∀ part ∈ parts, IsSpelt part) :
    pieces ("/".intercalate (parts.map PathPart.text)).toList =
      parts.map (·.text.toList) := by
  rw [String.toList_intercalate, List.map_map]
  apply pieces_intercalate
  · simpa using hne
  · intro text htext
    obtain ⟨part, hpart, rfl⟩ := List.mem_map.mp htext
    exact (hspelt part hpart).noSlash

theorem pieces_of_isAbsolute {path : Path} (habsolute : path.isAbsolute = true) :
    ∃ others, pieces path.text.toList = [] :: others := by
  rw [isAbsolute, decide_eq_true_eq] at habsolute
  cases htext : path.text.toList with
  | nil => simp [htext] at habsolute
  | cons c text =>
      rw [htext, List.head?_cons] at habsolute
      obtain rfl := Option.some.inj habsolute
      exact ⟨pieces text, if_pos rfl⟩

theorem parts_join_relative {parts : List PathPart}
    (hspelt : ∀ part ∈ parts, IsSpelt part) :
    (⟨join parts⟩ : Path).parts = parts := by
  cases parts with
  | nil => rfl
  | cons part parts =>
      have hpart := hspelt part List.mem_cons_self
      have hothers : ∀ part ∈ parts, IsSpelt part :=
        fun other hother => hspelt other (List.mem_cons_of_mem part hother)
      have htext : join (part :: parts) =
          "/".intercalate ((part :: parts).map PathPart.text) := by
        cases part with
        | root => exact absurd (by decide) hpart.noSlash
        | here | up | name text => rfl
      have hpieces := pieces_join (List.cons_ne_nil part parts) hspelt
      have hrelative : (⟨join (part :: parts)⟩ : Path).isAbsolute = false := by
        apply Bool.eq_false_iff.mpr
        intro habsolute
        obtain ⟨others, hslash⟩ := pieces_of_isAbsolute habsolute
        rw [htext, hpieces, List.map_cons] at hslash
        have hread := hpart.read true
        rw [(List.cons.inj hslash).1] at hread
        cases hread
      have hfirst := hpart.read true
      have hrest := filterMap_ofPiece? hothers
      rw [Path.parts, hrelative, htext, hpieces, List.map_cons]
      simp only [hfirst, hrest]
      rfl

theorem parts_join_absolute {parts : List PathPart}
    (hspelt : ∀ part ∈ parts, IsSpelt part) :
    (⟨join (.root :: parts)⟩ : Path).parts = .root :: parts := by
  have htext : (join (.root :: parts)).toList =
      '/' :: ("/".intercalate (parts.map PathPart.text)).toList := by
    rw [join, String.toList_append]
    rfl
  have habsolute : (⟨join (.root :: parts)⟩ : Path).isAbsolute = true := by
    simp [isAbsolute, htext]
  have hpieces : (pieces ("/".intercalate
      (parts.map PathPart.text)).toList).filterMap (ofPiece? false) = parts := by
    cases parts with
    | nil => rfl
    | cons part others =>
        rw [pieces_join (List.cons_ne_nil part others) hspelt]
        exact filterMap_ofPiece? hspelt
  rw [Path.parts, habsolute, htext, pieces, if_pos rfl]
  simp only [hpieces]
  rfl

/-- Steps that are settled are read off from the path that makes them. -/
theorem parts_join {done : List PathPart} (hsettled : IsSettled done) :
    (⟨join done.reverse⟩ : Path).parts = done.reverse := by
  rcases hsettled.reverse_cases with hall | ⟨rest, hrest, hall⟩
  · exact parts_join_relative hall
  · rw [hrest]
    exact parts_join_absolute hall

/-- The steps that are read off from a path are proper. -/
theorem isProper_parts (path : Path) : IsProper path.parts := by
  have hslash : ∀ piece ∈ pieces path.text.toList, '/' ∉ piece :=
    fun _ hpiece => slash_notMem_of_mem_pieces hpiece
  rw [Path.parts]
  cases hpieces : pieces path.text.toList with
  | nil => exact ⟨by simp, by simp⟩
  | cons first others =>
      rw [hpieces] at hslash
      have hothers : ∀ part ∈ others.filterMap (ofPiece? false),
          ∃ piece ∈ others, ofPiece? false piece = some part :=
        fun part hpart => List.mem_filterMap.mp hpart
      have hroot : ∀ part ∈ others.filterMap (ofPiece? false), part ≠ .root := by
        intro part hpart
        obtain ⟨piece, _, hread⟩ := hothers part hpart
        exact ofPiece?_ne_root hread
      have hnames : ∀ text, .name text ∈ others.filterMap (ofPiece? false) →
          IsSpelt (.name text) := by
        intro text htext
        obtain ⟨piece, hpiece, hread⟩ := hothers _ htext
        exact isSpelt_name_of_ofPiece?
          (hslash piece (List.mem_cons_of_mem first hpiece)) hread
      dsimp only
      split
      · exact ⟨hroot, by simpa using hnames⟩
      · cases hfirst : ofPiece? true first with
        | none =>
            exact ⟨fun part hpart => hroot part (List.mem_of_mem_tail hpart),
              hnames⟩
        | some part =>
            refine ⟨hroot, fun text htext => ?_⟩
            rcases List.mem_cons.mp htext with rfl | htext
            · exact isSpelt_name_of_ofPiece? (hslash first List.mem_cons_self)
                hfirst
            · exact hnames text htext

theorem root_notMem_parts {path : Path} (hrelative : path.isAbsolute = false) :
    .root ∉ path.parts := by
  intro hroot
  rw [Path.parts, hrelative] at hroot
  split at hroot
  · simp at hroot
  · rename_i first others _
    rcases List.mem_append.mp hroot with hfirst | hother
    · exact ofPiece?_ne_root (Option.mem_toList.mp hfirst) rfl
    · obtain ⟨_, _, hread⟩ := List.mem_filterMap.mp hother
      exact ofPiece?_ne_root hread rfl

theorem isProper_directoryParts (path : Path) :
    IsProper path.directoryParts := by
  rw [directoryParts]
  split
  · exact ⟨by simp, by simp⟩
  · constructor
    · intro part hpart
      rw [List.tail_dropLast] at hpart
      exact path.isProper_parts.root part (List.dropLast_subset _ hpart)
    · exact fun text htext =>
        path.isProper_parts.spelt text (List.dropLast_subset _ htext)

/-- A path along whose steps a walk takes nothing back. -/
def IsNormal (path : Path) : Prop := path.normalize.parts = path.parts

theorem isNormal_of_parts {path : Path} {done : List PathPart}
    (hsettled : IsSettled done) (hparts : path.parts = done.reverse) :
    path.IsNormal := by
  rw [IsNormal, normalize, hparts, hsettled.foldl_reverse, parts_join hsettled]

theorem isNormal_join {parts : List PathPart} (hproper : IsProper parts) :
    (⟨join (parts.foldl walk []).reverse⟩ : Path).IsNormal :=
  isNormal_of_parts hproper.isSettled (parts_join hproper.isSettled)

theorem isNormal_normalize (path : Path) : path.normalize.IsNormal :=
  isNormal_join path.isProper_parts

/-- The extension of a script turns the last step into a name or adds one. -/
theorem isNormal_withScriptExtension {done : List PathPart}
    (hsettled : IsSettled done) :
    (⟨join done.reverse⟩ : Path).withScriptExtension.IsNormal := by
  obtain ⟨extended, hextended, htext⟩ := hsettled.exists_script
  rw [withScriptExtension, ← htext]
  exact isNormal_of_parts hextended (parts_join hextended)

theorem isNormal_entryPath (path : Path) :
    (Bundle.entryPath path).IsNormal := by
  rw [Bundle.entryPath]
  split
  · exact isNormal_normalize path
  · exact isNormal_withScriptExtension path.isProper_parts.isSettled

/-- A relative specifier leads to a normal path; an absolute one is a path as it
stands. -/
theorem isNormal_of_followDefault {specifier : String} {importer target : Path}
    (hfollow : Resolver.followDefault specifier importer = some target) :
    target.IsNormal ∨ target = ⟨specifier⟩ ∧ target.isAbsolute = true := by
  rw [Resolver.followDefault] at hfollow
  dsimp only at hfollow
  split at hfollow
  · rename_i habsolute
    obtain rfl := Option.some.inj hfollow
    exact .inr ⟨rfl, habsolute⟩
  · rename_i hrelative
    have hproper := importer.isProper_directoryParts.append
      (isProper_parts ⟨specifier⟩) (root_notMem_parts (by simpa using hrelative))
    apply Or.inl
    split at hfollow
    · cases hfollow
    · split at hfollow
      · obtain rfl := Option.some.inj hfollow
        exact isNormal_join hproper
      · obtain rfl := Option.some.inj hfollow
        exact isNormal_withScriptExtension hproper.isSettled

end Path

end Bundler
