import Bundler.Proofs.Build.Reading
import Bundler.Proofs.Shake.Interrupted

/-!
# Requests of a session

Statements may be asked for again and again, also after a request that failed.
What that one left in progress stays so: later requests take it for a statement
that is being included further up, and leave it alone.  So a request for a
statement succeeds without including it just if an earlier one failed that had
started it.
-/

namespace Bundler

namespace Session

/-- A request to a session. -/
inductive Request
  | load (path : Path)
  | loadGraph (path : Path)
  | expand (module : Module) (id : Nat)
  | includeEffects (module : Module)
  | includeExport (module : Module) (name : String)

namespace Request

/-- What a session does upon a request. -/
def work : Request → Work Unit
  | .load path => do let _ ← Work.load path
  | .loadGraph path => do let _ ← Work.loadGraph path
  | .expand module id =>
      Work.shaking fun loader => Shaking.expand loader module id
  | .includeEffects module =>
      Work.shaking fun loader => Shaking.includeEffects loader module
  | .includeExport module name => do
      let _ ← Work.shaking fun loader =>
        Shaking.includeExport loader module name

/-- Requests are about modules that the session knows and statements that these
have. -/
def IsProper (session : Session) : Request → Prop
  | .load _ | .loadGraph _ => True
  | .expand module id => session.loader.module module.path = .ok module ∧
      id < module.statements.length
  | .includeEffects module | .includeExport module _ =>
      session.loader.module module.path = .ok module

end Request

/-- One session becomes another one by requests, of which some may fail. -/
inductive Becomes (start : Session) : Session → Prop
  | refl : Becomes start start
  | request {session : Session} (request : Request) :
      Becomes start session → request.IsProper session →
      Becomes start (request.work.leave session)

/-- The passage from a session to a later one. -/
structure Keeps (before after : Session) : Prop where
  grows : before.loader.Grows after.loader
  shaker : before.shaker.Keeps after.shaker

theorem Keeps.trans {first second third : Session}
    (hfirst : first.Keeps second) (hsecond : second.Keeps third) :
    first.Keeps third :=
  ⟨hfirst.grows.trans hsecond.grows, hfirst.shaker.trans hsecond.shaker⟩

end Session

namespace Work

variable {α : Type} {session : Session}

theorem leave_of_ok {work : Work α} {after : Session} {value : α}
    (hrun : work session = .ok value after) : work.leave session = after := by
  rw [leave, hrun]

theorem leave_of_error {work : Work α} {after : Session} {error : BundleError}
    (hrun : work session = .error error after) :
    work.leave session = after := by
  rw [leave, hrun]

/-- A piece of work that changes no statement which was met before, and leaves none
in progress if it succeeds. -/
def IsTidyAt (session : Session) (work : Work α) : Prop :=
  match work session with
  | .ok _ after => session.Keeps after ∧ session.shaker.Finishes after.shaker
  | .error _ after => session.Keeps after

namespace IsTidyAt

theorem ok {work : Work α} {after : Session} {value : α}
    (htidy : work.IsTidyAt session) (hrun : work session = .ok value after) :
    session.Keeps after ∧ session.shaker.Finishes after.shaker := by
  rwa [IsTidyAt, hrun] at htidy

theorem error {work : Work α} {after : Session} {error : BundleError}
    (htidy : work.IsTidyAt session)
    (hrun : work session = .error error after) : session.Keeps after := by
  rwa [IsTidyAt, hrun] at htidy

theorem leave {work : Work α} (htidy : work.IsTidyAt session) :
    session.Keeps (work.leave session) := by
  cases hrun : work session with
  | ok value after =>
      rw [leave_of_ok hrun]
      exact (htidy.ok hrun).1
  | error error after =>
      rw [leave_of_error hrun]
      exact htidy.error hrun

theorem loading {operation : Loading α} (hgrowth : operation.IsGrowth) :
    IsTidyAt session (loading operation) := by
  have hgrows := hgrowth session.loader
  rw [Loading.leave] at hgrows
  rw [IsTidyAt, Work.loading]
  cases hrun : operation session.loader with
  | ok value after =>
      rw [hrun] at hgrows
      exact ⟨⟨hgrows, .refl _⟩, .of_eq rfl⟩
  | error error after =>
      rw [hrun] at hgrows
      exact ⟨hgrows, .refl _⟩

theorem shakingWith {operation : Loader → Shaking α} (times : Nat)
    (htidy : ∀ later, session.loader.Grows later →
      (operation later).IsTidy) :
    IsTidyAt session (shakingWith operation times) := by
  rw [IsTidyAt]
  fun_induction Work.shakingWith operation times session with
  | case1 times session value after hrun =>
      obtain ⟨hkeeps, hfinishes⟩ := (htidy session.loader .refl).ok hrun
      exact ⟨⟨.refl, hkeeps⟩, hfinishes⟩
  | case2 times session error after hrun =>
      exact ⟨.refl, (htidy session.loader .refl).error hrun⟩
  | case3 session path after hrun => exact ⟨.refl, .refl _⟩
  | case4 session path after hrun times ih =>
      rw [request_eq] at ih ⊢
      have hgrows := Loading.IsGrowth.load path session.loader
      have hrest := ih fun later hlater => htidy later (hgrows.trans hlater)
      have hkeeps : session.Keeps { session with
          loader := (Loading.load path).leave session.loader } :=
        ⟨hgrows, .refl session.shaker⟩
      generalize Work.shakingWith operation times _ = outcome at hrest ⊢
      cases outcome with
      | ok value after => exact ⟨hkeeps.trans hrest.1, hrest.2⟩
      | error error after => exact hkeeps.trans hrest

/-- The value of the work does not matter. -/
theorem discard {work : Work α} (htidy : work.IsTidyAt session) :
    IsTidyAt session (do let _ ← work) := by
  rw [IsTidyAt]
  cases hrun : work session with
  | ok value after =>
      rw [Outcome.bind_of_ok hrun]
      exact htidy.ok hrun
  | error error after =>
      rw [Outcome.bind_of_error hrun]
      exact htidy.error hrun

end IsTidyAt

end Work

namespace Session

variable {start session before after : Session} {module : Module} {id : Nat}
  {statement : StatementId}

theorem Keeps.isFaithful (hkeeps : before.Keeps after)
    (hfaithful : before.loader.IsFaithful) : after.loader.IsFaithful :=
  hkeeps.grows.isFaithful hfaithful

/-- What a request does to the statements that were met before it. -/
theorem Request.work_isTidyAt {request : Request}
    (hfaithful : session.loader.IsFaithful)
    (hproper : request.IsProper session) :
    request.work.IsTidyAt session := by
  cases request with
  | load path => exact .discard (.loading (.load path))
  | loadGraph path => exact .discard (.loading (.loadGraph path))
  | expand module id =>
      exact .shakingWith _ fun later hgrows =>
        Shaking.expand_isTidy (hgrows.isFaithful hfaithful)
          (hgrows.module_eq_ok hproper.1) hproper.2
  | includeEffects module =>
      exact .shakingWith _ fun later hgrows =>
        Shaking.seedEffects_isTidy (hgrows.isFaithful hfaithful) _
          (hgrows.module_eq_ok hproper)
  | includeExport module name =>
      exact .discard (.shakingWith _ fun later hgrows =>
        Shaking.includeExport_isTidy (hgrows.isFaithful hfaithful) module name)

/-- Requests change no statement that was met before, whatever comes of them. -/
theorem Becomes.keeps (hbecomes : start.Becomes session)
    (hfaithful : start.loader.IsFaithful) : start.Keeps session := by
  induction hbecomes with
  | refl => exact ⟨.refl, .refl _⟩
  | request request _ hproper ih =>
      have htidy := Request.work_isTidyAt (ih.isFaithful hfaithful) hproper
      exact ih.trans htidy.leave

theorem Becomes.isFaithful (hbecomes : start.Becomes session)
    (hfaithful : start.loader.IsFaithful) : session.loader.IsFaithful :=
  (hbecomes.keeps hfaithful).isFaithful hfaithful

/-- A request that failed and has left a statement in progress of which there had
been no trace. -/
def Abandons (statement : StatementId) (before failed : Session) : Prop :=
  ∃ (request : Request) (error : BundleError), request.IsProper before ∧
    request.work before = .error error failed ∧
    before.shaker.state? statement = none ∧
    failed.shaker.state? statement = some .inProgress

/-- A statement is found in progress just if a request has failed that had
started it. -/
theorem Becomes.inProgress_iff (hbecomes : start.Becomes session)
    (hfaithful : start.loader.IsFaithful)
    (hfresh : start.shaker.state? statement = none) :
    session.shaker.state? statement = some .inProgress ↔
      ∃ before failed, start.Becomes before ∧
        Abandons statement before failed ∧ failed.Becomes session := by
  constructor
  · intro hstate
    induction hbecomes with
    | refl =>
        rw [hfresh] at hstate
        cases hstate
    | @request session request hbecomes hproper ih =>
        have hfaithfulNow := hbecomes.isFaithful hfaithful
        have htidy := Request.work_isTidyAt hfaithfulNow hproper
        rcases htidy.leave.shaker.inProgress_cases hstate with hold | hnone
        · obtain ⟨before, failed, hbefore, habandons, hfailed⟩ := ih hold
          exact ⟨before, failed, hbefore, habandons,
            .request request hfailed hproper⟩
        · cases hrun : request.work session with
          | ok value after =>
              rw [Work.leave_of_ok hrun] at hstate
              exact absurd hstate
                ((htidy.ok hrun).2.state?_ne_inProgress hnone)
          | error error failed =>
              rw [Work.leave_of_error hrun] at hstate ⊢
              exact ⟨session, failed, hbecomes,
                ⟨request, error, hproper, hrun, hnone, hstate⟩, .refl⟩
  · rintro ⟨before, failed, hbefore, ⟨request, error, hproper, hrun, _, hstate⟩,
      hfailed⟩
    have hfaithfulBefore := hbefore.isFaithful hfaithful
    have hkeeps :=
      (Request.work_isTidyAt hfaithfulBefore hproper).error hrun
    have hlater := hfailed.keeps (hkeeps.isFaithful hfaithfulBefore)
    exact hlater.shaker.inProgress hstate

/-- A request for a statement in progress does nothing. -/
theorem Request.work_expand_of_inProgress
    (hstate : session.shaker.state? (module.path, id) = some .inProgress) :
    (Request.expand module id).work session = .ok () session := by
  have hstarted := (Shaker.state?_eq_inProgress_iff.mp hstate).1
  obtain ⟨steps, hexpand⟩ :=
    Shaking.exists_expand_eq session.loader module id
  have hrun : Shaking.expand session.loader module id session.shaker =
      .ok () session.shaker := by
    rw [hexpand, Shaking.includeStatement_of_started hstarted]
  rw [Request.work, Work.shaking, Work.shakingWith, hrun]

/-- A request for a statement which succeeds includes it just if the statement was
not in progress, that is, if no request has failed that had started it.  Otherwise
nothing is done. -/
theorem expand_includes_iff {files : Files} {resolver : Resolver}
    {loader : Loader} {names : Names}
    (hloader : Loader.Reachable files resolver loader)
    (hbecomes : Becomes ⟨loader, .ofNames names⟩ session)
    (hproper : (Request.expand module id).IsProper session)
    (hrun : (Request.expand module id).work session = .ok () after) :
    (after.shaker.state? (module.path, id) = some .included ∧
        (module.path, id) ∈ after.shaker.included ↔
      session.shaker.state? (module.path, id) ≠ some .inProgress) ∧
    (session.shaker.state? (module.path, id) = some .inProgress ↔
      ∃ before failed, Becomes ⟨loader, .ofNames names⟩ before ∧
        Abandons (module.path, id) before failed ∧ failed.Becomes session) ∧
    (session.shaker.state? (module.path, id) = some .inProgress →
      after = session) := by
  have hfaithful := hbecomes.isFaithful hloader.isFaithful
  have hfresh : (Shaker.ofNames names).state? (module.path, id) = none := by
    simp [Shaker.state?_eq_none_iff, Shaker.ofNames]
  obtain ⟨hkeeps, hfinishes⟩ :=
    (Request.work_isTidyAt hfaithful hproper).ok hrun
  have hshaken : (Loader.Reachable files resolver session.loader →
        Loader.Reachable files resolver after.loader) ∧
      Shaking.expand after.loader module id session.shaker =
        .ok () after.shaker :=
    (Work.shakingWith_eq_ok hrun).2
  have hstarted := Shaking.started_of_expand (hkeeps.isFaithful hfaithful)
    (hkeeps.grows.module_eq_ok hproper.1) hproper.2 hshaken.2
  refine ⟨?_, hbecomes.inProgress_iff hloader.isFaithful hfresh, ?_⟩
  · rw [Shaker.state?_eq_included_iff, and_self]
    constructor
    · intro hincluded hstate
      have hstays := hkeeps.shaker.inProgress hstate
      exact (Shaker.state?_eq_inProgress_iff.mp hstays).2 hincluded
    · intro hstate
      rw [Ne, Shaker.state?_eq_inProgress_iff, not_and_not_right] at hstate
      cases hfinishes _ hstarted with
      | inl hold => exact hkeeps.shaker.included _ (hstate hold)
      | inr hdone => exact hdone
  · intro hstate
    rw [Request.work_expand_of_inProgress hstate] at hrun
    exact (EStateM.Result.ok.inj hrun).2.symm

/-- A module that imports what another one does not export. -/
def missingExport : Files := .ofList
  [(⟨"/a.js"⟩, "export let y = 1;"),
    (⟨"/m.js"⟩, "import { x } from './a';\nx();\nlet z = 1;")]

/-- The second statement of the module fails for what it reads, and stays in
progress. -/
theorem exists_failed_missingExport :
    let start := ofFiles missingExport .plain
    let session := (Request.load ⟨"/m.js"⟩).work.leave start
    ∃ module failed after, session.loader.module ⟨"/m.js"⟩ = .ok module ∧
      (∀ id < 3, (Request.expand module id).IsProper session) ∧
      (Request.expand module 1).work session =
        .error (.missingExport ⟨"/a.js"⟩ ⟨"/m.js"⟩ "x") failed ∧
      failed.shaker.state? (module.path, 1) = some .inProgress ∧
      failed.shaker.state? (module.path, 2) = none ∧
      (Request.expand module 2).work failed = .ok () after := by
  intro start session
  have hfacts : Outcome.passes (Work.load ⟨"/m.js"⟩) start
      (fun module session =>
        decide (module.statements.length = 3) &&
        match (Request.expand module 1).work session with
        | .ok _ _ => false
        | .error error failed =>
            decide (error = .missingExport ⟨"/a.js"⟩ ⟨"/m.js"⟩ "x") &&
            decide (failed.shaker.state? (module.path, 1) =
              some .inProgress) &&
            decide (failed.shaker.state? (module.path, 2) = none) &&
            Outcome.passes (Request.expand module 2).work failed
              fun _ _ => true) = true := by
    decide +kernel
  obtain ⟨module, loaded, hload, hfacts⟩ := Outcome.exists_of_passes hfacts
  have hsession : session = loaded :=
    Work.leave_of_ok (Outcome.bind_of_ok hload)
  have hmodule := Loading.load_eq_ok (Work.loading_eq_ok hload).1
  have hbecomes : start.Becomes session := .request (.load _) .refl trivial
  have hstart : Loader.Reachable missingExport .plain start.loader := .start
  have hfaithful := hbecomes.isFaithful hstart.isFaithful
  rw [hsession] at hfaithful ⊢
  cases hrun : (Request.expand module 1).work loaded with
  | ok value after => simp [hrun] at hfacts
  | error error failed =>
      simp only [hrun, Bool.and_eq_true, decide_eq_true_eq] at hfacts
      obtain ⟨hlength, ⟨⟨rfl, hstate⟩, hnone⟩, hpasses⟩ := hfacts
      obtain ⟨_, after, hlast, _⟩ := Outcome.exists_of_passes hpasses
      refine ⟨module, failed, after, hmodule, fun id hid => ?_, hrun, hstate,
        hnone, hlast⟩
      exact ⟨hfaithful.module_path hmodule, hlength ▸ hid⟩

/-- The third statement is included though the request for the second one has
failed; that request has left the second one in progress. -/
theorem expand_includes_iff_missingExport :
    let start := ofFiles missingExport .plain
    let session := (Request.load ⟨"/m.js"⟩).work.leave start
    ∃ module failed after, session.loader.module ⟨"/m.js"⟩ = .ok module ∧
      (Request.expand module 1).work session =
        .error (.missingExport ⟨"/a.js"⟩ ⟨"/m.js"⟩ "x") failed ∧
      (Request.expand module 2).work failed = .ok () after ∧
      after.shaker.state? (module.path, 2) = some .included ∧
      ∃ before failing, start.Becomes before ∧
        Abandons (module.path, 1) before failing ∧ failing.Becomes failed := by
  intro start session
  obtain ⟨module, failed, after, hmodule, hproper, hfailed, hstate, hnone,
    hrun⟩ := exists_failed_missingExport
  have hloader : Loader.Reachable missingExport .plain start.loader := .start
  have hsession : start.Becomes session := .request (.load _) .refl trivial
  have hfirst := hproper 1 (by decide)
  have hbecomes : start.Becomes failed := by
    rw [← Work.leave_of_error hfailed]
    exact .request _ hsession hfirst
  have hkeeps := (Request.work_isTidyAt
    (hsession.isFaithful hloader.isFaithful) hfirst).error hfailed
  have hlater : ∀ id < 3, (Request.expand module id).IsProper failed :=
    fun id hid => ⟨hkeeps.grows.module_eq_ok (hproper id hid).1,
      (hproper id hid).2⟩
  refine ⟨module, failed, after, hmodule, hfailed, hrun, ?_, ?_⟩
  · refine ((expand_includes_iff hloader hbecomes (hlater 2 (by decide))
      hrun).1.mpr ?_).1
    rw [hnone]
    exact nofun
  · exact (expand_includes_iff hloader hbecomes (hlater 1 (by decide))
      (Request.work_expand_of_inProgress hstate)).2.1.mp hstate

/-- A request that has failed succeeds the next time, though its statement is
still not included. -/
theorem expand_again_missingExport :
    let session :=
      (Request.load ⟨"/m.js"⟩).work.leave (ofFiles missingExport .plain)
    ∃ module failed, session.loader.module ⟨"/m.js"⟩ = .ok module ∧
      (Request.expand module 1).IsProper session ∧
      (Request.expand module 1).work session =
        .error (.missingExport ⟨"/a.js"⟩ ⟨"/m.js"⟩ "x") failed ∧
      (Request.expand module 1).work failed = .ok () failed ∧
      failed.shaker.state? (module.path, 1) = some .inProgress ∧
      (module.path, 1) ∉ failed.shaker.included := by
  obtain ⟨module, failed, _, hmodule, hproper, hfailed, hstate, _, _⟩ :=
    exists_failed_missingExport
  exact ⟨module, failed, hmodule, hproper 1 (by decide), hfailed,
    Request.work_expand_of_inProgress hstate, hstate,
    (Shaker.state?_eq_inProgress_iff.mp hstate).2⟩

end Session

end Bundler
