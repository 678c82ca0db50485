-- The settings of a session.
namespace Builtins

/-- The line that `range` prints when it has no value, and what is logged. -/
structure Config where
  rangeDiagnostic : String := "Error"
  logFilter : String := "warn"
deriving DecidableEq

end Builtins
