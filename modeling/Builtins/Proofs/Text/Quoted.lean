-- Quoted texts read back. What stands between the quotes is read one character at a time, and the
-- quote never begins one, so a text and its end are always found again.
import Builtins.Text.Quoted

namespace Builtins.Text.Quoted

/-- The number that a lower-case hexadecimal digit stands for. -/
def hexValue? (c : Char) : Option Nat := (List.range 16).find? (Nat.digitChar · == c)

/-- The character that a code after a backslash stands for, and what comes after the code. -/
def readCode? : List Char → Option (Char × List Char)
  | 'n' :: rest => some ('\n', rest)
  | 'r' :: rest => some ('\r', rest)
  | 't' :: rest => some ('\t', rest)
  | 'x' :: high :: low :: rest => do
    return (Char.ofNat (16 * (← hexValue? high) + (← hexValue? low)), rest)
  | c :: rest => if c = '\\' ∨ c = '\'' ∨ c = '"' then some (c, rest) else none
  | [] => none

/-- The first character that is written between quotes, and what comes after it. -/
def read? : List Char → Option (Char × List Char)
  | [] => none
  | c :: rest => if c = '\\' then readCode? rest else some (c, rest)

theorem hexValue?_digitChar : ∀ n < 16, hexValue? (Nat.digitChar n) = some n := by decide

/-- A control character has a code of two digits. -/
theorem toNat_lt_of_isControl {c : Char} (hcontrol : isControl c = true) : c.toNat < 256 := by
  unfold isControl at hcontrol
  simp only [Bool.or_eq_true, Bool.and_eq_true, decide_eq_true_eq] at hcontrol
  omega

theorem quoteOf_eq (s : List Char) : quoteOf s = '\'' ∨ quoteOf s = '"' := by
  unfold quoteOf
  split
  · exact Or.inr rfl
  · exact Or.inl rfl

/-- A character is written with a backslash before a code, or as it is, and the quote never as it
is. -/
theorem escape_cases (q c : Char) :
    (∃ code, escape q c = '\\' :: code) ∨ escape q c = [c] ∧ c ≠ q := by
  unfold escape
  split
  · exact Or.inl ⟨_, rfl⟩
  split
  · exact Or.inl ⟨_, rfl⟩
  split
  · exact Or.inl ⟨_, rfl⟩
  split
  · exact Or.inl ⟨_, rfl⟩
  split
  · exact Or.inl ⟨_, rfl⟩
  split
  · exact Or.inl ⟨_, rfl⟩
  · next hne _ => exact Or.inr ⟨rfl, hne⟩

section

variable {q : Char} (hq : q = '\'' ∨ q = '"')
include hq

/-- A character is read as it is written. -/
theorem read?_escape (c : Char) (rest : List Char) :
    read? (escape q c ++ rest) = some (c, rest) := by
  unfold escape
  split
  · next hc => simp [hc, read?, readCode?]
  split
  · next hc => simp [hc, read?, readCode?]
  split
  · next hc => simp [hc, read?, readCode?]
  split
  · next hc => simp [hc, read?, readCode?]
  split
  · next hc =>
    subst hc
    rcases hq with rfl | rfl <;> simp [read?, readCode?]
  split
  · next hcontrol =>
    have hlt := toNat_lt_of_isControl hcontrol
    have hcode : 16 * (c.toNat / 16) + c.toNat % 16 = c.toNat := Nat.div_add_mod _ _
    simp [read?, readCode?, hexPair, hexValue?_digitChar (c.toNat / 16) (by omega),
      hexValue?_digitChar (c.toNat % 16) (by omega), hcode]
  · next hslash _ _ _ _ _ => simp [read?, hslash]

/-- No character is written with the quote at its beginning. -/
theorem escape_append_ne (c : Char) (rest after : List Char) :
    escape q c ++ rest ≠ q :: after := by
  intro h
  rcases escape_cases q c with ⟨code, he⟩ | ⟨he, hne⟩
  · have hslash : '\\' = q := by simpa [he] using congrArg List.head? h
    rcases hq with rfl | rfl <;> simp at hslash
  · exact hne (by simpa [he] using congrArg List.head? h)

/-- What is written up to a quote determines the text and what comes after the quote. -/
theorem flatMap_escape_inj {s t after after' : List Char}
    (h : s.flatMap (escape q) ++ q :: after = t.flatMap (escape q) ++ q :: after') :
    s = t ∧ after = after' := by
  induction s generalizing t with
  | nil =>
    cases t with
    | nil => exact ⟨rfl, List.cons.inj h |>.2⟩
    | cons d t =>
      rw [List.flatMap_cons, List.append_assoc] at h
      exact absurd h.symm (escape_append_ne hq d _ after)
  | cons c s ih =>
    rw [List.flatMap_cons, List.append_assoc] at h
    cases t with
    | nil => exact absurd h (escape_append_ne hq c _ after')
    | cons d t =>
      rw [List.flatMap_cons, List.append_assoc] at h
      have hread := congrArg read? h
      rw [read?_escape hq, read?_escape hq] at hread
      obtain ⟨rfl, hrest⟩ : c = d ∧ _ = _ := by simpa using hread
      obtain ⟨rfl, rfl⟩ := ih hrest
      exact ⟨rfl, rfl⟩

end

/-- A quoted text determines the text and where it ends. -/
theorem encode_inj {s t after after' : List Char} (h : encode s ++ after = encode t ++ after') :
    s = t ∧ after = after' := by
  simp only [encode, List.cons_append, List.append_assoc, List.nil_append] at h
  obtain ⟨hquote, hrest⟩ := List.cons.inj h
  rw [← hquote] at hrest
  exact flatMap_escape_inj (quoteOf_eq s) hrest

end Builtins.Text.Quoted
