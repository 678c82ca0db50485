-- The tokens of a YAML source.
import Builtins.Yaml.Tag

namespace Builtins.Yaml

/-- How a scalar is written: as it stands, or between quotes. -/
inductive Style where
  | plain
  | quoted
deriving DecidableEq

/-- A token. Blocks are opened and closed by indentation. -/
inductive Token where
  | documentStart
  | documentEnd
  | blockSequenceStart
  | blockMappingStart
  | blockEnd
  | flowSequenceStart
  | flowSequenceEnd
  | flowMappingStart
  | flowMappingEnd
  | blockEntry
  | flowEntry
  | key
  | value
  | tag (tag : Tag)
  | scalar (style : Style) (text : String)
deriving DecidableEq

end Builtins.Yaml
