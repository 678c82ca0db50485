-- Settings as YAML: a record of texts, each of which may be left out.
import Builtins.Config
import Builtins.Yaml.Reader
import Builtins.Text.Blank

namespace Builtins

/-- Why there are no settings. -/
inductive ConfigError where
  /-- The source is not a mapping of settings. -/
  | malformed
deriving DecidableEq

def ConfigError.message : ConfigError → String
  | malformed => "Parsing runtime config"

namespace Config

/-- The settings as they are declared. -/
def record : Record where
  fields := [("range_diagnostic", ({} : Config).rangeDiagnostic),
    ("log_filter", ({} : Config).logFilter)]
  fillsIn := true
  refusesOthers := true

/-- The settings by the texts of their fields. -/
def ofTexts? : List String → Option Config
  | [rangeDiagnostic, logFilter] => some { rangeDiagnostic, logFilter }
  | _ => none

/-- The settings of a source. A blank one gives the defaults. -/
def ofSource [Yaml.Reader] (source : String) : Except ConfigError Config :=
  if source.toList.all Text.isBlank then .ok {}
  else
    match (Yaml.Reader.record? record source).bind ofTexts? with
    | some config => .ok config
    | none => .error .malformed

end Config

end Builtins
