-- The tokens of a whole source. Outside brackets, indentation opens and closes blocks; a
-- scalar or a bracket turns out to be a key when a colon follows it on the same line.
import Builtins.Yaml.Token
import Builtins.Yaml.Token.Quoted
import Builtins.Yaml.Token.Tag

namespace Builtins.Yaml

/-- A place where a key may have begun. -/
structure Candidate where
  /-- Whether the line makes no sense unless it is a key. -/
  required : Bool
  /-- How many tokens lie before it. -/
  position : Nat
  place : Place

/-- The longest distance, in octets of UTF-8, between the start of a key and its colon. -/
def keyReach : Nat := 1024

/-- A source that is partly read. -/
structure Scanner where
  rest : List Char
  place : Place := {}
  /-- For each open block, innermost first, one more than its column. -/
  margins : List Nat := []
  /-- The candidate inside the innermost brackets, or outside all brackets. -/
  candidate : Option Candidate := none
  /-- The candidates of the enclosing levels, one for each open bracket. -/
  outer : List (Option Candidate) := []
  /-- Whether a key may begin here. -/
  keyAllowed : Bool := true
  tokens : Array Token := #[]

namespace Scanner

def inFlow (s : Scanner) : Bool := !s.outer.isEmpty

/-- The least column of a line that goes on with a scalar of the innermost block. -/
def margin (s : Scanner) : Nat := s.margins.headD 0

def emit (s : Scanner) (t : Token) : Scanner := { s with tokens := s.tokens.push t }

/-- Moves over `n` characters of the line. -/
def skip (s : Scanner) (n : Nat) : Scanner :=
  { s with rest := s.rest.drop n, place := s.place.rightOver (s.rest.take n) }

/-! ## Between tokens -/

/-- Passes over blanks, comments and line breaks, and over a byte order mark at the start of a
line. Where a key may begin outside brackets, a tabulator is no blank; a line break outside
brackets lets a key begin. -/
def skipBlanks (inFlow : Bool) :
    List Char → Place → Bool → Bool → List Char × Place × Bool
  | [], place, keyAllowed, _ => ([], place, keyAllowed)
  | '\r' :: '\n' :: rest, place, keyAllowed, _ =>
    skipBlanks inFlow rest place.downPair (keyAllowed || !inFlow) false
  | c :: rest, place, keyAllowed, inComment =>
    if isBreak c then skipBlanks inFlow rest (place.down c) (keyAllowed || !inFlow) false
    else if inComment then skipBlanks inFlow rest (place.right c) keyAllowed true
    else if c == ' ' || (c == '\t' && (inFlow || !keyAllowed))
        || (isByteOrderMark c && place.column == 0) then
      skipBlanks inFlow rest (place.right c) keyAllowed false
    else if c == '#' then skipBlanks inFlow rest (place.right c) keyAllowed true
    else (c :: rest, place, keyAllowed)

/-- Goes to the start of the next token. -/
def toToken (s : Scanner) : Scanner :=
  let (rest, place, keyAllowed) := skipBlanks s.inFlow s.rest s.place s.keyAllowed false
  { s with rest, place, keyAllowed }

/-! ## Keys -/

/-- Whether a candidate can no longer be a key: its line has ended, or it lies too far back. -/
def isStale (place : Place) (c : Candidate) : Bool :=
  c.place.line < place.line || c.place.index + keyReach < place.index

/-- Gives up stale candidates. One that is required must not become stale. -/
def dropStale (s : Scanner) : Option Scanner :=
  let stale (c : Option Candidate) : Bool := c.any (isStale s.place)
  let fresh (c : Option Candidate) : Option Candidate := if stale c then none else c
  if (s.candidate :: s.outer).any fun c => stale c && c.any (·.required) then none
  else some { s with candidate := fresh s.candidate, outer := s.outer.map fresh }

/-- Gives up the candidate of the level. -/
def dropCandidate (s : Scanner) : Option Scanner :=
  if s.candidate.any (·.required) then none else some { s with candidate := none }

/-- Notes that a key may begin here. -/
def noteCandidate (s : Scanner) : Option Scanner :=
  if s.keyAllowed then do
    let s ← s.dropCandidate
    let required := !s.inFlow && s.margin == s.place.column + 1
    return { s with candidate := some ⟨required, s.tokens.size, s.place⟩ }
  else some s

/-! ## Blocks -/

/-- Closes the blocks whose margin is above `limit`. Brackets keep blocks open. -/
def closeBlocks (s : Scanner) (limit : Nat) : Scanner :=
  if s.inFlow then s
  else
    let closed := s.margins.takeWhile (limit < ·)
    { s with
      margins := s.margins.drop closed.length
      tokens := s.tokens ++ closed.map fun _ => Token.blockEnd }

/-- Opens a block at a column, unless one is open there or further right. Its token is put at
a position among the tokens read so far. -/
def openBlock (s : Scanner) (column position : Nat) (t : Token) : Scanner :=
  if !s.inFlow && s.margin ≤ column then
    { s with
      margins := (column + 1) :: s.margins
      tokens := s.tokens.insertIdxIfInBounds position t }
  else s

/-- Opens a block here, where a key or an entry has to be allowed. -/
def openBlockHere (s : Scanner) (t : Token) : Option Scanner :=
  if s.inFlow then some s
  else if s.keyAllowed then some (s.openBlock s.place.column s.tokens.size t)
  else none

/-! ## Tokens -/

/-- A document marker closes all blocks. -/
def documentMarker (s : Scanner) (t : Token) : Option Scanner := do
  let s ← (s.closeBlocks 0).dropCandidate
  return ({ s with keyAllowed := false }.skip 3).emit t

/-- An opening bracket may begin a key. -/
def openBracket (s : Scanner) (t : Token) : Option Scanner := do
  let s ← s.noteCandidate
  return ({ s with
    candidate := none, outer := s.candidate :: s.outer, keyAllowed := true }.skip 1).emit t

/-- A closing bracket goes back to the enclosing level. -/
def closeBracket (s : Scanner) (t : Token) : Option Scanner := do
  let s ← s.dropCandidate
  return ({ s with
    candidate := s.outer.head?.join, outer := s.outer.tail, keyAllowed := false }.skip 1).emit t

def comma (s : Scanner) : Option Scanner := do
  let s ← s.dropCandidate
  return ({ s with keyAllowed := true }.skip 1).emit .flowEntry

def hyphen (s : Scanner) : Option Scanner := do
  let s ← (← s.openBlockHere .blockSequenceStart).dropCandidate
  return ({ s with keyAllowed := true }.skip 1).emit .blockEntry

def questionMark (s : Scanner) : Option Scanner := do
  let s ← (← s.openBlockHere .blockMappingStart).dropCandidate
  return ({ s with keyAllowed := !s.inFlow }.skip 1).emit .key

/-- The colon before a value. It makes a key of the candidate, if there is one. -/
def colon (s : Scanner) : Option Scanner :=
  match s.candidate with
  | some c =>
    let s := { s with
      tokens := s.tokens.insertIdxIfInBounds c.position .key
      candidate := none, keyAllowed := false }
    let s := s.openBlock c.place.column c.position .blockMappingStart
    some ((s.skip 1).emit .value)
  | none => do
    let s ← s.openBlockHere .blockMappingStart
    return ({ s with keyAllowed := !s.inFlow }.skip 1).emit .value

/-- A tag, which has to end before a blank or, inside brackets, before a comma. -/
def tag (s : Scanner) : Option Scanner := do
  let s ← s.noteCandidate
  let (octets, rest) ← tagOctets s.rest.tail
  if endsWord rest || (s.inFlow && rest.head? == some ',') then
    let length := s.rest.length - rest.length
    return ({ s with keyAllowed := false }.skip length).emit (.tag (.ofOctets octets))
  else none

/-- A scalar, which may be a key. After a line break at its end a key may begin. -/
def scalar (s : Scanner) (style : Style) (read : Scanner → Option ScalarText) :
    Option Scanner := do
  let s ← s.noteCandidate
  let t ← read s
  return { s with rest := t.rest, place := t.place, keyAllowed := t.broken }.emit
    (.scalar style (String.ofList t.text))

/-- Whether a plain scalar may begin with `c`, of which `rest` follows. -/
def beginsPlain (inFlow : Bool) (c : Char) (rest : List Char) : Bool :=
  !(isBlank c || isIndicator c) || (c == '-' && !rest.head?.any isBlank)
    || (!inFlow && (c == '?' || c == ':') && !endsWord rest)

/-- Reads the token at the start of what is left, `c` and then `rest`. Anchors, aliases, block
scalars and directives are not part of the language. -/
def token (s : Scanner) (c : Char) (rest : List Char) : Option Scanner :=
  if s.place.column == 0 && c == '%' then none
  else if s.place.column == 0 && isDocumentMarker (c :: rest) then
    s.documentMarker (if c == '-' then .documentStart else .documentEnd)
  else if c == '[' then s.openBracket .flowSequenceStart
  else if c == '\x7b' then s.openBracket .flowMappingStart
  else if c == ']' then s.closeBracket .flowSequenceEnd
  else if c == '\x7d' then s.closeBracket .flowMappingEnd
  else if c == ',' then s.comma
  else if c == '-' && endsWord rest then s.hyphen
  else if c == '?' && (s.inFlow || endsWord rest) then s.questionMark
  else if c == ':' && (s.inFlow || endsWord rest) then s.colon
  else if c == '!' then s.tag
  else if c == '\'' then s.scalar .quoted fun s => singleQuoted rest (s.place.right c) [] {}
  else if c == '"' then s.scalar .quoted fun s => doubleQuoted rest (s.place.right c) [] {} .closed
  else if beginsPlain s.inFlow c rest then
    s.scalar .plain fun s => plainScalar s.inFlow s.margin s.rest s.place [] {}
  else none

/-- Closes everything at the end of the source. -/
def finish (s : Scanner) : Option (Array Token) := do
  return (← (s.closeBlocks 0).dropCandidate).tokens

def readAll : Nat → Scanner → Option (Array Token)
  | 0, _ => none
  | fuel + 1, s => do
    let s ← s.toToken.dropStale
    let s := s.closeBlocks (s.place.column + 1)
    match s.rest with
    | [] => s.finish
    | c :: rest => readAll fuel (← s.token c rest)

end Scanner

/-- The tokens of a source, if it has any reading. Every token takes at least one character. -/
def tokens (source : List Char) : Option (List Token) := do
  guard (source.all isAllowed)
  return (← Scanner.readAll (source.length + 1) { rest := source }).toList

end Builtins.Yaml
