-- Plain scalars: text without quotes. Blanks at its end do not belong to it, and it may go on
-- over several lines.
import Builtins.Yaml.Character

namespace Builtins.Yaml

/-- Whether a document starts or ends here, at the start of a line. -/
def isDocumentMarker : List Char → Bool
  | '-' :: '-' :: '-' :: rest => endsWord rest
  | '.' :: '.' :: '.' :: rest => endsWord rest
  | _ => false

/-- A scalar that was read: its text, whether it ended after a line break, and what follows. -/
structure ScalarText where
  text : List Char
  broken : Bool
  rest : List Char
  place : Place

/-- Whether a plain scalar ends before `c`, of which `rest` follows. A colon ends it only
before a blank, and inside brackets the flow indicators do. -/
def endsPlain (inFlow : Bool) (c : Char) (rest : List Char) : Bool :=
  (c == ':' && endsWord rest) || (inFlow && isFlowIndicator c)

/-- Whether a plain scalar cannot go on with `c` after a gap: at a comment, at a document
marker, and outside brackets where the line is indented too little. -/
def endsAfterGap (inFlow : Bool) (margin : Nat) (place : Place) (c : Char)
    (rest : List Char) : Bool :=
  c == '#' || (place.column == 0 && isDocumentMarker (c :: rest))
    || (!inFlow && place.column < margin)

/-- Inside brackets a colon may not stand directly before an indicator. -/
def isStrayColon (inFlow : Bool) (c : Char) (rest : List Char) : Bool :=
  inFlow && c == ':' && rest.head?.any fun d => isFlowIndicator d || d == '?'

/-- Reads a plain scalar of which `text` (last character first) and then a gap were read. A
tabulator may not stand in the indentation. -/
def plainScalar (inFlow : Bool) (margin : Nat) :
    List Char → Place → List Char → Gap → Option ScalarText
  | [], place, text, gap => some ⟨text.reverse, gap.broken, [], place⟩
  | '\r' :: '\n' :: rest, place, text, gap =>
    plainScalar inFlow margin rest place.downPair text (gap.lineBreak '\n')
  | c :: rest, place, text, gap =>
    if isBlank c then
      if gap.broken && c == '\t' && place.column < margin then none
      else plainScalar inFlow margin rest (place.right c) text (gap.blank c)
    else if isBreak c then
      plainScalar inFlow margin rest (place.down c) text (gap.lineBreak c)
    else if !gap.isEmpty && endsAfterGap inFlow margin place c rest then
      some ⟨text.reverse, gap.broken, c :: rest, place⟩
    else if isStrayColon inFlow c rest then none
    else if endsPlain inFlow c rest then
      some ⟨text.reverse, gap.broken, c :: rest, place⟩
    else
      plainScalar inFlow margin rest (place.right c) (c :: (gap.fold.reverse ++ text)) {}

end Builtins.Yaml
