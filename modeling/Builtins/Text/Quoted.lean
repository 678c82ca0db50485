-- Quoted texts: how a string is shown inside other values. The quote is the double one only
-- where that saves an escape, and no control character survives.
namespace Builtins.Text.Quoted

/-- The quote that a text is written in: `"` where the text holds `'` and no `"`. -/
def quoteOf (s : List Char) : Char :=
  if '\'' ∈ s ∧ '"' ∉ s then '"' else '\''

/-- Whether a character is a control character: up to U+001F, or from U+007F to U+009F. -/
def isControl (c : Char) : Bool :=
  c.toNat < 0x20 || (0x7f ≤ c.toNat && c.toNat < 0xa0)

/-- A code below 256 as two lower-case hexadecimal digits. -/
def hexPair (n : Nat) : List Char := [Nat.digitChar (n / 16), Nat.digitChar (n % 16)]

/-- One character as it is written between the quotes `q`. -/
def escape (q c : Char) : List Char :=
  if c = '\\' then ['\\', '\\']
  else if c = '\n' then ['\\', 'n']
  else if c = '\r' then ['\\', 'r']
  else if c = '\t' then ['\\', 't']
  else if c = q then ['\\', c]
  else if isControl c then '\\' :: 'x' :: hexPair c.toNat
  else [c]

def encode (s : List Char) : List Char :=
  quoteOf s :: (s.flatMap (escape (quoteOf s)) ++ [quoteOf s])

def ofString (s : String) : String := String.ofList (encode s.toList)

@[simp] theorem toList_ofString (s : String) : (ofString s).toList = encode s.toList := by
  simp [ofString]

end Builtins.Text.Quoted
