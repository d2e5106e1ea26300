import FunLang.Import.Discovery
import FunLang.Text.Part

set_option autoImplicit false

/-!
# Watching files

A watched program is run again when a source file beside it changes.
-/

namespace FunLang.Watch

/-- What has happened to a file. -/
structure Change where
  file : String
  created : Bool
  written : Bool
  removed : Bool
  renamed : Bool
  modeChanged : Bool
deriving DecidableEq, Repr, Inhabited

/-- Whether a change is a reason to run a program again: a source file has new contents. -/
def Change.isRelevant (c : Change) : Bool :=
  Text.endsWith Import.extension c.file && (c.created || c.written || c.renamed)

end FunLang.Watch
