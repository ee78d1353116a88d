import Bundler.Build.Shake

/-!
# Sessions

A session works on one set of files.  It loads modules as they come to be
needed: an operation that stops at a module that is not loaded is started over
once the module is, so it has the outcome it would have had if everything had
been loaded before, and loads nothing that it does not need.
-/

namespace Bundler

structure Session where
  loader : Loader
  shaker : Shaker

abbrev Work := EStateM BundleError Session

namespace Session

def ofFiles (files : Files) (resolver : Resolver) : Session :=
  ⟨.ofFiles files resolver, .ofNames .initial⟩

end Session

namespace Work

variable {α : Type}

/-- Runs an operation of the loader. -/
def loading (operation : Loading α) : Work α := fun session =>
  match operation session.loader with
  | .ok value loader => .ok value { session with loader := loader }
  | .error error loader => .error error { session with loader := loader }

def load (path : Path) : Work Module := loading (Loading.load path)

def loadGraph (path : Path) : Work Module := loading (Loading.loadGraph path)

/-- Asks for a module, whatever comes of it. -/
def request (path : Path) (session : Session) : Session :=
  match load path session with
  | .ok _ session => session
  | .error _ session => session

/-- Runs an operation on what is loaded, and again at most `times` times after
loading what it lacked. -/
def shakingWith (operation : Loader → Shaking α) : Nat → Work α
  | times, session =>
      match operation session.loader session.shaker with
      | .ok value shaker => .ok value { session with shaker := shaker }
      | .error (.refused error) shaker =>
          .error error { session with shaker := shaker }
      | .error (.unloaded path) _ =>
          match times with
          | 0 => .error (.unsettled path) session
          | times + 1 => shakingWith operation times (request path session)

/-- Runs an operation that includes statements.  What it did before it failed
stays done. -/
def shaking (operation : Loader → Shaking α) : Work α := fun session =>
  shakingWith operation (session.loader.capacity + 1) session

/-- Runs an operation that only follows imports. -/
def linking (operation : Loader → Except LinkFailure α) : Work α :=
  shaking fun loader => Shaking.ofExcept (operation loader)

/-- Changes names. -/
def changeNames (change : Names → Names) : Work Unit :=
  modify fun session =>
    let shaker := { session.shaker with names := change session.shaker.names }
    { session with shaker := shaker }

/-- Runs an operation with a shaker of its own, of which only the names are
kept. -/
def apart (operation : Work α) : Work α := fun session =>
  let fresh := { session with shaker := .ofNames session.shaker.names }
  let kept (after : Session) : Session :=
    let shaker := { session.shaker with names := after.shaker.names }
    { after with shaker := shaker }
  match operation fresh with
  | .ok value after => .ok value (kept after)
  | .error error after => .error error (kept after)

end Work

end Bundler
