import Bundler.Build.Plan
import Bundler.Json

/-!
# Plans as documents

The form in which a build plan is shown to other programs.
-/

namespace Bundler

namespace Json

def ofPath (path : Path) : Json := .text path.text

def ofNames (names : List String) : Json := .list (names.map .text)

end Json

namespace PlannedStatement

def document (statement : PlannedStatement) : Json :=
  .object
    [("index", .number statement.index),
     ("defines", .ofNames statement.defines),
     ("depends_on", .ofNames statement.dependsOn)]

end PlannedStatement

namespace PlannedModule

def document (module : PlannedModule) : Json :=
  .object
    [("path", .ofPath module.path),
     ("statements", .list (module.statements.map (·.document)))]

end PlannedModule

namespace PlannedRename

def document (rename : PlannedRename) : Json :=
  .object
    [("module", .ofPath rename.module),
     ("name", .text rename.name),
     ("renamed", .text rename.renamed)]

end PlannedRename

namespace ExternalInfo

def document (external : ExternalInfo) : Json :=
  .object
    [("specifier", .text external.specifier),
     ("name", .text external.name)]

end ExternalInfo

namespace BundlePlan

def document (plan : BundlePlan) : Json :=
  .object
    [("entry", .ofPath plan.entry),
     ("modules", .list (plan.modules.map (·.document))),
     ("externals", .list (plan.externals.map (·.document))),
     ("renames", .list (plan.renames.map (·.document)))]

end BundlePlan

end Bundler
