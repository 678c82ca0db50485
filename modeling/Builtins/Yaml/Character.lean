-- The character classes of YAML, and places in a source.
namespace Builtins.Yaml

/-! ## Classes -/

/-- Whether a character may stand in a source at all. Control characters may not, except for
the tabulator and line breaks. -/
def isAllowed (c : Char) : Bool :=
  c == '\t' || c == '\n' || c == '\r' || (0x20 ≤ c.toNat && c.toNat ≤ 0x7e) || c.toNat == 0x85
    || (0xa0 ≤ c.toNat && c.toNat ≤ 0xfffd) || 0x10000 ≤ c.toNat

/-- A space or a tabulator. -/
def isBlank (c : Char) : Bool := c == ' ' || c == '\t'

/-- A line break: line feed, carriage return, next line, line or paragraph separator. -/
def isBreak (c : Char) : Bool :=
  c == '\n' || c == '\r' || c.toNat == 0x85 || c.toNat == 0x2028 || c.toNat == 0x2029

/-- What a line break stands for in a folded text. Separators stand for themselves. -/
def breakValue (c : Char) : Char :=
  if c.toNat == 0x2028 || c.toNat == 0x2029 then c else '\n'

/-- Whether a source ends here or goes on with a blank or a line break. -/
def endsWord : List Char → Bool
  | [] => true
  | c :: _ => isBlank c || isBreak c

/-- An ASCII letter or digit, an underscore or a hyphen. -/
def isWordChar (c : Char) : Bool := c.isAlphanum || c == '_' || c == '-'

/-- A character of a tag that stands for itself. A percent sign starts an escape instead. -/
def isTagChar (c : Char) : Bool :=
  isWordChar c ||
    c ∈ [';', '/', '?', ':', '@', '&', '=', '+', '$', '.', '!', '~', '*', '\'', '(', ')']

/-- A bracket, a brace or a comma: what ends a plain scalar inside brackets. -/
def isFlowIndicator (c : Char) : Bool := c ∈ [',', '[', ']', '\x7b', '\x7d']

def isByteOrderMark (c : Char) : Bool := c.toNat == 0xfeff

/-- A character with a meaning of its own at the start of a token. -/
def isIndicator (c : Char) : Bool :=
  isFlowIndicator c ||
    c ∈ ['-', '?', ':', '#', '&', '*', '!', '|', '>', '\'', '"', '%', '@', '\x60']

def hexValue? (c : Char) : Option Nat :=
  if c.isDigit then some (c.toNat - 0x30)
  else if 'a' ≤ c ∧ c ≤ 'f' then some (c.toNat - 0x57)
  else if 'A' ≤ c ∧ c ≤ 'F' then some (c.toNat - 0x37)
  else none

/-- The character with a code, unless the code is a surrogate or too large. -/
def charOfCode? (n : Nat) : Option Char := if n.isValidChar then some (Char.ofNat n) else none

/-! ## Places -/

/-- A place in a source: how many octets of UTF-8 and how many lines lie before it, and how many
characters of its own line. -/
structure Place where
  index : Nat := 0
  line : Nat := 0
  column : Nat := 0

namespace Place

/-- The place after one more character of the line. -/
def right (p : Place) (c : Char) : Place :=
  { p with index := p.index + c.utf8Size, column := p.column + 1 }

/-- The place after more characters of the line. -/
def rightOver (p : Place) (cs : List Char) : Place := cs.foldl right p

/-- The start of the next line, after a line break. -/
def down (p : Place) (c : Char) : Place := ⟨p.index + c.utf8Size, p.line + 1, 0⟩

/-- The start of the next line, after a carriage return and a line feed. -/
def downPair (p : Place) : Place := ⟨p.index + 2, p.line + 1, 0⟩

end Place

/-! ## Folding -/

/-- The blanks and line breaks between two parts of a scalar. -/
structure Gap where
  /-- The blanks before the first line break. -/
  blanks : List Char := []
  /-- What the line breaks stand for. -/
  breaks : List Char := []
  /-- Whether there is a line break, an escaped one included. -/
  broken : Bool := false
  /-- Whether the first line break is escaped, and so stands for nothing. -/
  escaped : Bool := false

namespace Gap

/-- Adds a blank. Blanks after a line break are indentation and do not count. -/
def blank (g : Gap) (c : Char) : Gap :=
  if g.broken then g else { g with blanks := g.blanks ++ [c] }

def lineBreak (g : Gap) (c : Char) : Gap :=
  { g with breaks := g.breaks ++ [breakValue c], broken := true }

/-- What a gap stands for: without a line break its blanks, a single line break a space, and
more of them all but the first. -/
def fold (g : Gap) : List Char :=
  if g.escaped then g.breaks
  else if g.broken then
    match g.breaks with
    | ['\n'] => [' ']
    | '\n' :: more => more
    | breaks => breaks
  else g.blanks

def isEmpty (g : Gap) : Bool := g.blanks.isEmpty && !g.broken

end Gap

end Builtins.Yaml
