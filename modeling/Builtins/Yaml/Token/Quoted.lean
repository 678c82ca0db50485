-- Quoted scalars. Between single quotes only a doubled quote is special; between double quotes
-- a backslash starts an escape. Line breaks fold as they do in plain scalars.
import Builtins.Yaml.Token.Plain

namespace Builtins.Yaml

/-- Reads the rest of a scalar in single quotes, of which `text` (last character first) and
then a gap were read. -/
def singleQuoted : List Char → Place → List Char → Gap → Option ScalarText
  | [], _, _, _ => none
  | '\'' :: '\'' :: rest, place, text, gap =>
    singleQuoted rest (place.rightOver ['\'', '\'']) ('\'' :: (gap.fold.reverse ++ text)) {}
  | '\r' :: '\n' :: rest, place, text, gap =>
    singleQuoted rest place.downPair text (gap.lineBreak '\n')
  | c :: rest, place, text, gap =>
    if c == '\'' then some ⟨(gap.fold.reverse ++ text).reverse, false, rest, place.right c⟩
    else if isBlank c then singleQuoted rest (place.right c) text (gap.blank c)
    else if isBreak c then singleQuoted rest (place.down c) text (gap.lineBreak c)
    else if place.column == 0 && isDocumentMarker (c :: rest) then none
    else singleQuoted rest (place.right c) (c :: (gap.fold.reverse ++ text)) {}

/-- The character that a backslash and a letter stand for. -/
def simpleEscape? : Char → Option Char
  | '0' => some '\x00'
  | 'a' => some '\x07'
  | 'b' => some '\x08'
  | 't' | '\t' => some '\t'
  | 'n' => some '\n'
  | 'v' => some '\x0b'
  | 'f' => some '\x0c'
  | 'r' => some '\r'
  | 'e' => some '\x1b'
  | ' ' => some ' '
  | '"' => some '"'
  | '/' => some '/'
  | '\\' => some '\\'
  | 'N' => some '\u0085'
  | '_' => some '\u00a0'
  | 'L' => some '\u2028'
  | 'P' => some '\u2029'
  | _ => none

/-- How many hexadecimal digits follow a backslash and a letter. -/
def codeLength? : Char → Option Nat
  | 'x' => some 2
  | 'u' => some 4
  | 'U' => some 8
  | _ => none

/-- How far an escape has been read. -/
inductive Escape where
  /-- No escape is open. -/
  | closed
  /-- The backslash has been read. -/
  | opened
  /-- One digit more than `after` is missing of a code that has come to `code`. -/
  | digits (after code : Nat)

/-- Reads the rest of a scalar in double quotes, of which `text` (last character first), then
a gap and then a part of an escape were read. -/
def doubleQuoted : List Char → Place → List Char → Gap → Escape → Option ScalarText
  | [], _, _, _, _ => none
  | '\r' :: '\n' :: rest, place, text, gap, .opened =>
    doubleQuoted rest place.downPair (gap.fold.reverse ++ text)
      { broken := true, escaped := true } .closed
  | c :: rest, place, text, gap, .opened =>
    if isBreak c then
      doubleQuoted rest (place.down c) (gap.fold.reverse ++ text)
        { broken := true, escaped := true } .closed
    else
      match simpleEscape? c, codeLength? c with
      | some d, _ => doubleQuoted rest (place.right c) (d :: (gap.fold.reverse ++ text)) {} .closed
      | none, some n => doubleQuoted rest (place.right c) text gap (.digits (n - 1) 0)
      | none, none => none
  | c :: rest, place, text, gap, .digits after code => do
    let code := code * 16 + (← hexValue? c)
    match after with
    | 0 =>
      let d ← charOfCode? code
      doubleQuoted rest (place.right c) (d :: (gap.fold.reverse ++ text)) {} .closed
    | after + 1 => doubleQuoted rest (place.right c) text gap (.digits after code)
  | '\r' :: '\n' :: rest, place, text, gap, .closed =>
    doubleQuoted rest place.downPair text (gap.lineBreak '\n') .closed
  | c :: rest, place, text, gap, .closed =>
    if c == '"' then some ⟨(gap.fold.reverse ++ text).reverse, false, rest, place.right c⟩
    else if isBlank c then doubleQuoted rest (place.right c) text (gap.blank c) .closed
    else if isBreak c then doubleQuoted rest (place.down c) text (gap.lineBreak c) .closed
    else if place.column == 0 && isDocumentMarker (c :: rest) then none
    else if c == '\\' then doubleQuoted rest (place.right c) text gap .opened
    else doubleQuoted rest (place.right c) (c :: (gap.fold.reverse ++ text)) {} .closed

end Builtins.Yaml
