-- Data on one line: words, texts between quotes, and sequences between brackets. Here is what a
-- reader of YAML is relied on for with such lines; how it reads anything else is of no account.
import Builtins.Word
import Builtins.Yaml.Reader

namespace Builtins.Yaml

/-! ## Quoted texts -/

/-- Whether a character is a printable one of ASCII. -/
def Printable (c : Char) : Prop := 0x20 ≤ c.toNat ∧ c.toNat ≤ 0x7e

instance (c : Char) : Decidable (Printable c) := inferInstanceAs (Decidable (_ ∧ _))

/-- A text as it is written between single quotes, each quote in it twice. -/
def quotesDoubled (s : List Char) : List Char :=
  s.flatMap fun c => if c = '\'' then ['\'', '\''] else [c]

/-- A text as a scalar in single quotes. -/
def singleQuote (s : String) : String :=
  String.ofList ('\'' :: (quotesDoubled s.toList ++ ['\'']))

theorem toList_singleQuote (s : String) :
    (singleQuote s).toList = '\'' :: (quotesDoubled s.toList ++ ['\'']) :=
  String.toList_ofList

/-! ## Lines -/

/-- Data as it may be written on a line. -/
inductive Flow where
  /-- A truth value, with a capital or without. -/
  | bool (b capital : Bool)
  | int (n : Word)
  | singleQuoted (s : String)
  | doubleQuoted (s : String)
  | sequence (items : List Flow)

namespace Flow

def boolText : Bool → Bool → String
  | true, true => "True"
  | true, false => "true"
  | false, true => "False"
  | false, false => "false"

mutual

/-- The line. -/
def text : Flow → String
  | bool b capital => boolText b capital
  | int n => toString n.toInt
  | singleQuoted s => singleQuote s
  | doubleQuoted s => "\"" ++ s ++ "\""
  | sequence items => "[" ++ ", ".intercalate (texts items) ++ "]"

def texts : List Flow → List String
  | [] => []
  | f :: fs => f.text :: texts fs

end

mutual

/-- What is written there. -/
def tree : Flow → Tree
  | bool b _ => .bool b
  | int n => .int n.toInt
  | singleQuoted s | doubleQuoted s => .text s
  | sequence items => .sequence (trees items)

def trees : List Flow → List Tree
  | [] => []
  | f :: fs => f.tree :: trees fs

end

/-- Whether all texts can be written as they stand, and sequences are nested at most `depth` deep. -/
inductive Fits : Nat → Flow → Prop
  | bool (depth : Nat) (b capital : Bool) : Fits depth (.bool b capital)
  | int (depth : Nat) (n : Word) : Fits depth (.int n)
  | singleQuoted (depth : Nat) {s : String} (hs : ∀ c ∈ s.toList, Printable c) :
    Fits depth (.singleQuoted s)
  | doubleQuoted (depth : Nat) {s : String} (hs : ∀ c ∈ s.toList, Printable c)
    (no_quote : '"' ∉ s.toList) (no_backslash : '\\' ∉ s.toList) : Fits depth (.doubleQuoted s)
  | sequence {depth : Nat} {items : List Flow} (hitems : ∀ f ∈ items, Fits depth f) :
    Fits (depth + 1) (.sequence items)

end Flow

/-! ## What is relied on -/

/-- Whether a reader reads lines as what is written there. -/
def Reader.ReadsFlow (reader : Reader) : Prop :=
  ∀ f : Flow, f.Fits Tree.maxDepth → reader.tree? f.text = some f.tree

/-- Whether a reader reads texts between single quotes, by themselves and as the only item of a
sequence. -/
structure Reader.ReadsQuoted (reader : Reader) : Prop where
  alone : ∀ s : String, (∀ c ∈ s.toList, Printable c) →
    reader.tree? (singleQuote s) = some (.text s)
  only : ∀ s : String, (∀ c ∈ s.toList, Printable c) →
    reader.tree? ("[" ++ singleQuote s ++ "]") = some (.sequence [.text s])

theorem Reader.ReadsFlow.readsQuoted {reader : Reader} (h : reader.ReadsFlow) :
    reader.ReadsQuoted where
  alone s hs := h (.singleQuoted s) (.singleQuoted _ hs)
  only s hs := by
    have hfits : Flow.Fits Tree.maxDepth (.sequence [.singleQuoted s]) :=
      .sequence (by simpa using .singleQuoted _ hs)
    simpa [Flow.text, Flow.texts, Flow.tree, Flow.trees] using h _ hfits

end Builtins.Yaml
