import Bundler.Proofs.Build.Freshness
import Mathlib.Data.List.Induction
import Mathlib.Data.List.Nodup

/-!
# Claims to names

Settling the names of a bundle starts from a list of claims: names that are
wanted in the shared scope, each with what wants it.  First come the
definitions and the objects of the modules, then the modules that are not
bundled, and last the names that no module knows, which cannot be renamed.
Collecting the names that are wanted goes through this list once, groups the
claims by name, and lets everything be written as the name it claims.
-/

namespace Bundler

/-- A name that is wanted, and what wants it. -/
abbrev Claim := String × Occupant

section EraseDups

variable {α : Type} [BEq α] [LawfulBEq α] [DecidableEq α] {values : List α}
  {value : α}

theorem eraseDups_concat :
    (values ++ [value]).eraseDups = pushNew values.eraseDups value := by
  rw [List.eraseDups_append, pushNew]
  by_cases hmem : value ∈ values <;>
    simp [hmem, List.removeAll, List.eraseDups_cons]

theorem nodup_eraseDups (values : List α) : values.eraseDups.Nodup := by
  induction values using List.reverseRecOn with
  | nil => exact .nil
  | append_singleton values value ih =>
      rw [eraseDups_concat]
      exact nodup_pushNew ih

theorem eraseDups_sublist (values : List α) :
    values.eraseDups.Sublist values := by
  induction values using List.reverseRecOn with
  | nil => exact .slnil
  | append_singleton values value ih =>
      rw [eraseDups_concat, pushNew]
      split
      · exact ih.trans (List.sublist_append_left values [value])
      · exact ih.append (.refl [value])

theorem filter_pushNew (test : α → Bool) :
    (pushNew values value).filter test =
      if test value then pushNew (values.filter test) value
      else values.filter test := by
  rw [pushNew, pushNew]
  by_cases hmem : value ∈ values <;> by_cases htest : test value <;>
    simp [hmem, htest]

end EraseDups

namespace Names

variable (names : Names)

/-- The name that a name or slot of a module has at first. -/
def initialName (module : Module) (name : String) : String :=
  if name = defaultSlot ∨ name = namespaceSlot then
    (names.nameSlot module name).1
  else name

/-- What is written for the one that makes a claim. -/
def granted : Claim → String
  | (_, .binding path name) => names.written path name
  | (_, .external specifier) => names.writtenExternal specifier
  | (name, .unknown) => name

variable {names} {later : Names}

theorem initialName_eq (hsame : names.SameSuggested later) (module : Module)
    (name : String) :
    later.initialName module name = names.initialName module name := by
  simp only [initialName, nameSlot, hsame.suggested]

theorem preferredExternal_eq (hsame : names.SameSuggested later)
    (specifier : String) :
    later.preferredExternal specifier = names.preferredExternal specifier := by
  simp only [preferredExternal, hsame.external]

theorem SameSuggested.refl (names : Names) : names.SameSuggested names :=
  ⟨fun _ _ => rfl, fun _ => rfl⟩

theorem SameSuggested.trans {first second third : Names}
    (hfirst : first.SameSuggested second)
    (hsecond : second.SameSuggested third) : first.SameSuggested third where
  suggested path slot :=
    (hsecond.suggested path slot).trans (hfirst.suggested path slot)
  external specifier :=
    (hsecond.external specifier).trans (hfirst.external specifier)

/-- A renaming changes what is granted to one claimant only. -/
theorem granted_rename {path : Path} {name replacement : String}
    {claim : Claim} (hother : claim.2 ≠ .binding path name) :
    (names.rename path name replacement).granted claim =
      names.granted claim := by
  obtain ⟨wanted, occupant⟩ := claim
  cases occupant with
  | binding other asked =>
      have hdiffers : ¬ (other = path ∧ asked = name) := by
        rintro ⟨rfl, rfl⟩
        exact hother rfl
      rw [granted, granted, written_rename, if_neg hdiffers]
  | external specifier => rfl
  | unknown => rfl

theorem granted_renameExternal {specifier replacement : String}
    {claim : Claim} (hother : claim.2 ≠ .external specifier) :
    (names.renameExternal specifier replacement).granted claim =
      names.granted claim := by
  obtain ⟨wanted, occupant⟩ := claim
  cases occupant with
  | binding path name => rfl
  | external asked =>
      have hdiffers : asked ≠ specifier := by
        rintro rfl
        exact hother rfl
      rw [granted, granted, writtenExternal_renameExternal, if_neg hdiffers]
  | unknown => rfl

end Names

namespace NameContext

variable (context : NameContext) (names : Names)

/-- What a module defines, and its object if that is used, claim their initial
names. -/
def moduleClaims (module : Module) : List Claim :=
  let own := context.statements.filter (·.1.path = module.path)
  let object :=
    if context.namespaces.contains module.path then [namespaceSlot] else []
  (own.flatMap (·.2.defines) ++ object).map fun name =>
    (names.initialName module name, .binding module.path name)

/-- The names that a statement reads and that its module does not know. -/
def unknownNames (included : Module × Statement) : List String :=
  included.2.dependsOn.filter fun name =>
    !included.1.imports.contains name && !included.1.definitions.contains name

/-- The claims of a bundle: definitions and objects by the order of the modules,
then modules that are not bundled, then unknown names. -/
def claims : List Claim :=
  context.modules.flatMap (context.moduleClaims names) ++
    context.externals.map
      (fun specifier => (names.preferredExternal specifier,
        .external specifier)) ++
    context.statements.flatMap
      fun included => (unknownNames included).map (·, .unknown)

/-- Contexts as builds have them: no module is listed twice, and no statement
defines a name that is spelled like the slot for the object. -/
structure IsProper : Prop where
  once : (context.modules.map (·.path)).Nodup
  plain : ∀ included ∈ context.statements, namespaceSlot ∉ included.2.defines

variable {context names} {claim other : Claim}

theorem mem_claims_of_module {module : Module}
    (hmodule : module ∈ context.modules)
    (hclaim : claim ∈ context.moduleClaims names module) :
    claim ∈ context.claims names :=
  List.mem_append_left _ (List.mem_append_left _
    (List.mem_flatMap.mpr ⟨module, hmodule, hclaim⟩))

theorem mem_claims_of_external {specifier : String}
    (hspecifier : specifier ∈ context.externals) :
    (names.preferredExternal specifier, .external specifier) ∈
      context.claims names :=
  List.mem_append_left _ (List.mem_append_right _
    (List.mem_map.mpr ⟨specifier, hspecifier, rfl⟩))

theorem mem_claims_of_unknown {included : Module × Statement} {name : String}
    (hincluded : included ∈ context.statements)
    (hname : name ∈ unknownNames included) :
    (name, .unknown) ∈ context.claims names :=
  List.mem_append_right _ (List.mem_flatMap.mpr
    ⟨included, hincluded, List.mem_map.mpr ⟨name, hname, rfl⟩⟩)

/-- A claim wants the initial name of a definition or slot of a module, or the
preferred name of a module that is not bundled, or it is for an unknown
name. -/
theorem claim_cases (hclaim : claim ∈ context.claims names) :
    (∃ module ∈ context.modules, ∃ name,
      claim = (names.initialName module name, .binding module.path name)) ∨
    (∃ specifier, claim =
      (names.preferredExternal specifier, .external specifier)) ∨
    claim.2 = .unknown := by
  rw [claims, List.append_assoc, List.mem_append, List.mem_append] at hclaim
  rcases hclaim with hmodules | hexternals | hunknown
  · obtain ⟨module, hmodule, hclaim⟩ := List.mem_flatMap.mp hmodules
    obtain ⟨name, _, rfl⟩ := List.mem_map.mp hclaim
    exact .inl ⟨module, hmodule, name, rfl⟩
  · obtain ⟨specifier, _, rfl⟩ := List.mem_map.mp hexternals
    exact .inr (.inl ⟨specifier, rfl⟩)
  · obtain ⟨included, _, hclaim⟩ := List.mem_flatMap.mp hunknown
    obtain ⟨name, _, rfl⟩ := List.mem_map.mp hclaim
    exact .inr (.inr rfl)

/-- Everything but an unknown name claims one name. -/
theorem claim_eq_of_same (honce : (context.modules.map (·.path)).Nodup)
    (hclaim : claim ∈ context.claims names)
    (hother : other ∈ context.claims names) (hsame : claim.2 = other.2)
    (hknown : claim.2 ≠ .unknown) : claim = other := by
  rcases claim_cases hclaim with ⟨module, hmodule, name, rfl⟩ |
    ⟨specifier, rfl⟩ | hunknown
  · rcases claim_cases hother with ⟨second, hsecond, asked, rfl⟩ |
      ⟨specifier, rfl⟩ | hunknown
    · obtain ⟨hpath, rfl⟩ := Occupant.binding.inj hsame
      rw [List.inj_on_of_nodup_map honce hmodule hsecond hpath]
    · cases hsame
    · rw [hunknown] at hsame
      cases hsame
  · rcases claim_cases hother with ⟨second, hsecond, asked, rfl⟩ |
      ⟨asked, rfl⟩ | hunknown
    · cases hsame
    · rw [Occupant.external.inj hsame]
    · rw [hunknown] at hsame
      cases hsame
  · exact absurd hunknown hknown

/-- Unknown names come last. -/
theorem pairwise_claims (context : NameContext) (names : Names) :
    (context.claims names).Pairwise
      fun first second => first.2 = .unknown → second.2 = .unknown := by
  rw [claims, List.pairwise_append]
  have hknown : ∀ claim ∈ context.modules.flatMap
        (context.moduleClaims names) ++ context.externals.map
          (fun specifier => (names.preferredExternal specifier,
            Occupant.external specifier)), claim.2 ≠ .unknown := by
    intro claim hclaim
    rcases List.mem_append.mp hclaim with hmodules | hexternals
    · obtain ⟨module, _, hclaim⟩ := List.mem_flatMap.mp hmodules
      obtain ⟨name, _, rfl⟩ := List.mem_map.mp hclaim
      exact Occupant.noConfusion
    · obtain ⟨specifier, _, rfl⟩ := List.mem_map.mp hexternals
      exact Occupant.noConfusion
  have hunknown : ∀ claim ∈ context.statements.flatMap
        (fun included => (unknownNames included).map
          fun name => (name, Occupant.unknown)), claim.2 = .unknown := by
    intro claim hclaim
    obtain ⟨included, _, hclaim⟩ := List.mem_flatMap.mp hclaim
    obtain ⟨name, _, rfl⟩ := List.mem_map.mp hclaim
    rfl
  refine ⟨?_, ?_, ?_⟩
  · exact List.pairwise_of_forall_mem_list fun first hfirst _ _ hisUnknown =>
      absurd hisUnknown (hknown first hfirst)
  · exact List.pairwise_of_forall_mem_list fun _ _ second hsecond _ =>
      hunknown second hsecond
  · exact fun first hfirst _ _ hisUnknown =>
      absurd hisUnknown (hknown first hfirst)

end NameContext

namespace Occupancy

variable {claims : List Claim} {claim : Claim} {name : String}

/-- The names that a list of claims wants, with those that want them. -/
def ofClaims (claims : List Claim) : Occupancy :=
  claims.foldl (fun occupancy claim => occupancy.occupy claim.1 claim.2) .empty

/-- The claims to a name in the order in which they come up first. -/
def rivals (claims : List Claim) (name : String) : List Claim :=
  claims.eraseDups.filter (·.1 = name)

theorem ofClaims_concat :
    ofClaims (claims ++ [claim]) =
      (ofClaims claims).occupy claim.1 claim.2 := by
  rw [ofClaims, List.foldl_append]
  rfl

theorem mem_rivals :
    claim ∈ rivals claims name ↔ claim ∈ claims ∧ claim.1 = name := by
  rw [rivals, List.mem_filter, List.mem_eraseDups, decide_eq_true_eq]

theorem nodup_rivals : (rivals claims name).Nodup :=
  (nodup_eraseDups claims).filter _

theorem rivals_concat :
    rivals (claims ++ [claim]) name =
      if claim.1 = name then pushNew (rivals claims name) claim
      else rivals claims name := by
  rw [rivals, eraseDups_concat, filter_pushNew]
  simp only [decide_eq_true_eq]
  rfl

/-- Claims to one name differ in what makes them. -/
theorem mem_map_snd_rivals :
    claim.2 ∈ (rivals claims claim.1).map (·.2) ↔
      claim ∈ rivals claims claim.1 := by
  rw [List.mem_map]
  constructor
  · rintro ⟨other, hother, hsame⟩
    have hname : other.1 = claim.1 := (mem_rivals.mp hother).2
    rwa [Prod.ext hname hsame] at hother
  · exact fun hclaim => ⟨claim, hclaim, rfl⟩

theorem map_snd_pushNew_rivals :
    (pushNew (rivals claims claim.1) claim).map (·.2) =
      pushNew ((rivals claims claim.1).map (·.2)) claim.2 := by
  rw [pushNew, pushNew]
  simp only [mem_map_snd_rivals]
  split
  · rfl
  · rw [List.map_append]
    rfl

/-- Under each name there are those that claim it, in their order. -/
theorem get?_ofClaims :
    ((ofClaims claims).get? name).getD [] =
      (rivals claims name).map (·.2) := by
  induction claims using List.reverseRecOn with
  | nil => rfl
  | append_singleton claims claim ih =>
      rw [ofClaims_concat, occupy, NameMap.get?_insert, rivals_concat]
      by_cases hname : claim.1 = name
      · subst hname
        rw [if_pos rfl, if_pos rfl, ih, map_snd_pushNew_rivals]
        rfl
      · rw [if_neg (Ne.symm hname), if_neg hname]
        exact ih

theorem mem_keys_ofClaims :
    name ∈ (ofClaims claims).keys ↔ ∃ claim ∈ claims, claim.1 = name := by
  induction claims using List.reverseRecOn with
  | nil => simp [ofClaims, NameMap.keys, NameMap.empty]
  | append_singleton claims claim ih =>
      rw [ofClaims_concat, occupy, NameMap.keys_insert, mem_pushNew, ih]
      simp only [List.mem_append, List.mem_singleton]
      grind

theorem nodup_keys_ofClaims : (ofClaims claims).keys.Nodup := by
  induction claims using List.reverseRecOn with
  | nil => exact .nil
  | append_singleton claims claim ih =>
      rw [ofClaims_concat, occupy, NameMap.keys_insert]
      exact nodup_pushNew ih

end Occupancy

namespace Settling

variable {context : NameContext} {names : Names} {claims : List Claim}
  {settling : Settling}

/-- A state in which some of the claims of a context are collected, and granted
for the time being. -/
structure Records (context : NameContext) (names : Names)
    (claims : List Claim) (settling : Settling) : Prop where
  within : ∀ claim ∈ claims, claim ∈ context.claims names
  occupancy : settling.occupancy = .ofClaims claims
  suggested : names.SameSuggested settling.names
  plain : ∀ path name, name ≠ defaultSlot → name ≠ namespaceSlot →
    settling.names.written path name = name
  granted : ∀ claim ∈ claims, settling.names.granted claim = claim.1

namespace Records

theorem start (hsame : Names.initial.SameWritten names) :
    Records context names [] ⟨names, .empty⟩ where
  within := by simp
  occupancy := rfl
  suggested := .refl names
  plain path name _ _ := hsame.written path name
  granted := by simp

/-- One more claim is collected, while at most what is granted to the one that
makes it changes. -/
theorem claim (hrecords : Records context names claims settling)
    (honce : (context.modules.map (·.path)).Nodup) {claim : Claim}
    (hclaim : claim ∈ context.claims names) {later : Names}
    (hsuggested : settling.names.SameSuggested later)
    (hplain : ∀ path name, name ≠ defaultSlot → name ≠ namespaceSlot →
      later.written path name = settling.names.written path name)
    (hgranted : later.granted claim = claim.1)
    (hothers : ∀ other : Claim, other.2 ≠ claim.2 →
      later.granted other = settling.names.granted other) :
    Records context names (claims ++ [claim])
      ⟨later, settling.occupancy.occupy claim.1 claim.2⟩ where
  within other hother := by
    rcases List.mem_append.mp hother with hold | hnew
    · exact hrecords.within other hold
    · rwa [List.mem_singleton.mp hnew]
  occupancy := by rw [Occupancy.ofClaims_concat, hrecords.occupancy]
  suggested := hrecords.suggested.trans hsuggested
  plain path name hdefault hnamespace := by
    rw [hplain path name hdefault hnamespace]
    exact hrecords.plain path name hdefault hnamespace
  granted other hother := by
    rcases List.mem_append.mp hother with hold | hnew
    · by_cases hsame : other.2 = claim.2
      · by_cases hunknown : other.2 = .unknown
        · obtain ⟨name, occupant⟩ := other
          obtain rfl : occupant = .unknown := hunknown
          rfl
        · rw [NameContext.claim_eq_of_same honce (hrecords.within other hold)
            hclaim hsame hunknown]
          exact hgranted
      · rw [hothers other hsame]
        exact hrecords.granted other hold
    · rw [List.mem_singleton.mp hnew]
      exact hgranted

/-- A fold whose steps collect lists of claims collects all of them. -/
theorem foldl {α : Type} (step : Settling → α → Settling) (values : List α)
    {claimsOf : α → List Claim}
    (hstep : ∀ value ∈ values, ∀ {claims settling},
      Records context names claims settling →
        Records context names (claims ++ claimsOf value) (step settling value))
    (hrecords : Records context names claims settling) :
    Records context names (claims ++ values.flatMap claimsOf)
      (values.foldl step settling) := by
  induction values generalizing claims settling with
  | nil => simpa using hrecords
  | cons value values ih =>
      rw [List.flatMap_cons, ← List.append_assoc]
      exact ih (fun other hother => hstep other (List.mem_cons_of_mem _ hother))
        (hstep value List.mem_cons_self hrecords)

/-- A slot claims the name that it is given. -/
theorem slot (hrecords : Records context names claims settling)
    (honce : (context.modules.map (·.path)).Nodup) {module : Module}
    {slot : String} (hslot : slot = defaultSlot ∨ slot = namespaceSlot)
    (hclaim : (names.initialName module slot, .binding module.path slot) ∈
      context.claims names) :
    Records context names
      (claims ++
        [(names.initialName module slot, .binding module.path slot)])
      ((settling.nameSlot module slot).occupyName module slot) := by
  have hinitial : names.initialName module slot =
      (settling.names.nameSlot module slot).1 := by
    rw [← Names.initialName_eq hrecords.suggested, Names.initialName,
      if_pos hslot]
  have hwritten : (settling.nameSlot module slot).names.written module.path
      slot = names.initialName module slot := by
    rw [hinitial, Settling.nameSlot, Names.nameSlot, Names.written_rename,
      if_pos ⟨rfl, rfl⟩]
  rw [occupyName, hwritten]
  apply hrecords.claim honce hclaim Names.sameSuggested_rename
  · intro path name hdefault hnamespace
    have hdiffers : ¬ (path = module.path ∧ name = slot) := by
      rintro ⟨_, rfl⟩
      exact hslot.elim hdefault hnamespace
    exact Names.written_rename.trans (if_neg hdiffers)
  · exact hwritten
  · exact fun other hother => Names.granted_rename hother

/-- A definition claims its own name, and a default export that of its slot. -/
theorem definition (hrecords : Records context names claims settling)
    (honce : (context.modules.map (·.path)).Nodup) {module : Module}
    {name : String} (hplain : name ≠ namespaceSlot)
    (hclaim : (names.initialName module name, .binding module.path name) ∈
      context.claims names) :
    Records context names
      (claims ++
        [(names.initialName module name, .binding module.path name)])
      (addDefinition module settling name) := by
  rw [addDefinition]
  by_cases hdefault : name = defaultSlot
  · rw [if_pos hdefault]
    subst hdefault
    exact hrecords.slot honce (.inl rfl) hclaim
  · have hinitial : names.initialName module name = name := by
      rw [Names.initialName, if_neg (not_or.mpr ⟨hdefault, hplain⟩)]
    have hwritten := hrecords.plain module.path name hdefault hplain
    rw [if_neg hdefault, occupyName, hwritten]
    rw [hinitial] at hclaim ⊢
    exact hrecords.claim honce hclaim (.refl _) (fun _ _ _ _ => rfl) hwritten
      fun _ _ => rfl

theorem module (hrecords : Records context names claims settling)
    (hproper : context.IsProper) {module : Module}
    (hmodule : module ∈ context.modules) :
    Records context names (claims ++ context.moduleClaims names module)
      (addModule context settling module) := by
  have hclaims : ∀ claim ∈ context.moduleClaims names module,
      claim ∈ context.claims names := fun claim =>
    NameContext.mem_claims_of_module hmodule
  rw [NameContext.moduleClaims] at hclaims ⊢
  rw [addModule]
  rw [List.map_append] at hclaims ⊢
  rw [← List.append_assoc]
  generalize hown : context.statements.filter (·.1.path = module.path) = own
    at hclaims ⊢
  have hdefinitions : Records context names
      (claims ++ (own.flatMap (·.2.defines)).map fun name =>
        (names.initialName module name, .binding module.path name))
      ((own.flatMap (·.2.defines)).foldl (addDefinition module) settling) := by
    rw [List.map_eq_flatMap]
    refine hrecords.foldl (addDefinition module) _
      fun name hname _ _ hearlier => ?_
    apply hearlier.definition hproper.once
    · rintro rfl
      obtain ⟨included, hincluded, hdefines⟩ := List.mem_flatMap.mp hname
      rw [← hown, List.mem_filter] at hincluded
      exact hproper.plain included hincluded.1 hdefines
    · exact hclaims _ (List.mem_append_left _ (List.mem_map_of_mem hname))
  split
  · rename_i hused
    rw [if_pos hused] at hclaims
    exact hdefinitions.slot hproper.once (.inr rfl)
      (hclaims _ (List.mem_append_right _ List.mem_cons_self))
  · rw [List.map_nil, List.append_nil]
    exact hdefinitions

theorem external (hrecords : Records context names claims settling)
    (honce : (context.modules.map (·.path)).Nodup) {specifier : String}
    (hspecifier : specifier ∈ context.externals) :
    Records context names
      (claims ++
        [(names.preferredExternal specifier, .external specifier)])
      (addExternal settling specifier) := by
  rw [addExternal, Names.preferredExternal_eq hrecords.suggested]
  apply hrecords.claim honce (NameContext.mem_claims_of_external hspecifier)
    Names.sameSuggested_renameExternal
  · exact fun _ _ _ _ => rfl
  · rw [Names.granted, Names.writtenExternal_renameExternal, if_pos rfl]
  · exact fun other hother => Names.granted_renameExternal hother

theorem unknown (hrecords : Records context names claims settling)
    (honce : (context.modules.map (·.path)).Nodup) {unknown : List String}
    (hclaims : ∀ name ∈ unknown, (name, .unknown) ∈ context.claims names) :
    Records context names (claims ++ unknown.map (·, .unknown))
      { settling with
        occupancy := unknown.foldl (·.occupy · .unknown)
          settling.occupancy } := by
  induction unknown generalizing claims settling with
  | nil => simpa using hrecords
  | cons name unknown ih =>
      have hfirst : Records context names (claims ++ [(name, .unknown)])
          ⟨settling.names, settling.occupancy.occupy name .unknown⟩ :=
        hrecords.claim honce (hclaims name List.mem_cons_self) (.refl _)
          (fun _ _ _ _ => rfl) rfl fun _ _ => rfl
      have hothers := ih hfirst fun other hother =>
        hclaims other (List.mem_cons_of_mem name hother)
      rw [List.append_assoc] at hothers
      exact hothers

end Records

/-- All claims are collected, and granted for the time being. -/
theorem records_collect (hproper : context.IsProper)
    (hsame : Names.initial.SameWritten names) :
    Records context names (context.claims names) (collect context names) := by
  have hstart : Records context names [] ⟨names, .empty⟩ := .start hsame
  have hmodules := hstart.foldl (addModule context) context.modules
    fun module hmodule _ _ hearlier => hearlier.module hproper hmodule
  have hexternals := hmodules.foldl addExternal context.externals
    fun specifier hspecifier _ _ hearlier =>
      hearlier.external hproper.once hspecifier
  have hstatements := hexternals.foldl addUnknown context.statements
    fun included hincluded _ _ hearlier =>
      hearlier.unknown hproper.once fun name hname =>
        NameContext.mem_claims_of_unknown hincluded hname
  rw [← List.map_eq_flatMap] at hstatements
  exact hstatements

end Settling

end Bundler
