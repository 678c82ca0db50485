-- The text of a snapshot, character by character. The text of a list or a tuple is that of its
-- first item, and for each further one a comma, a blank and its text, between brackets.
import Builtins.Snapshot

namespace Builtins

namespace Decimal

theorem isDigit_of_mem_toDigits {n : Nat} {c : Char} (hc : c ∈ Nat.toDigits 10 n) :
    c.isDigit = true :=
  Nat.isDigit_of_mem_toDigits (by decide) (by decide) hc

/-- Digits begin with no sign. -/
theorem toDigits_ne_signed (n : Nat) {c : Char} (hc : c.isDigit = false) (ds : List Char) :
    Nat.toDigits 10 n ≠ c :: ds := by
  intro h
  have hdigit : c.isDigit = true :=
    isDigit_of_mem_toDigits (by rw [h]; exact List.mem_cons_self)
  rw [hc] at hdigit
  exact Bool.noConfusion hdigit

theorem toDigits_inj {m n : Nat} (h : Nat.toDigits 10 m = Nat.toDigits 10 n) : m = n := by
  have hvalue := congrArg (Nat.ofDigitChars 10 · 0) h
  simpa [Nat.ofDigitChars_ten_toDigits] using hvalue

end Decimal

/-- Texts that are joined by a comma and a blank are the first one, and these and one more for each
further text. -/
theorem Text.toList_intercalate (t : String) (ts : List String) :
    (", ".intercalate (t :: ts)).toList = t.toList ++ ts.flatMap fun t => ',' :: ' ' :: t.toList := by
  induction ts generalizing t with
  | nil => simp
  | cons u ts ih =>
    rw [String.intercalate_cons_cons, String.toList_append, ih u]
    simp

namespace Snapshot

open Decimal

/-- The characters of the text of a snapshot. -/
def chars (s : Snapshot) : List Char := s.render.toList

/-- The characters of further items, each after a comma and a blank. -/
def moreChars (ss : List Snapshot) : List Char := ss.flatMap fun s => ',' :: ' ' :: s.chars

theorem moreChars_cons (s : Snapshot) (ss : List Snapshot) :
    moreChars (s :: ss) = ',' :: ' ' :: (s.chars ++ moreChars ss) := by
  simp [moreChars]

theorem toList_intercalate (s : Snapshot) (ss : List Snapshot) :
    (", ".intercalate (renderAll (s :: ss))).toList = s.chars ++ moreChars ss := by
  rw [renderAll_eq_map, List.map_cons, Text.toList_intercalate, List.flatMap_map]
  rfl

theorem chars_list_nil : (list []).chars = ['[', ']'] := by
  simp [chars, render, renderAll, listText]

theorem chars_list_cons (s : Snapshot) (ss : List Snapshot) :
    (list (s :: ss)).chars = '[' :: (s.chars ++ moreChars ss ++ [']']) := by
  have hitems := toList_intercalate s ss
  simp only [chars, render, listText, String.toList_append] at hitems ⊢
  rw [hitems]
  simp

theorem chars_tuple_nil : (tuple []).chars = ['(', ')'] := by
  simp [chars, render, renderAll, tupleText]

theorem chars_tuple_one (s : Snapshot) : (tuple [s]).chars = '(' :: (s.chars ++ [',', ')']) := by
  simp [chars, render, renderAll, tupleText]

theorem chars_tuple_cons_cons (s t : Snapshot) (ss : List Snapshot) :
    (tuple (s :: t :: ss)).chars = '(' :: (s.chars ++ moreChars (t :: ss) ++ [')']) := by
  have hitems := toList_intercalate s (t :: ss)
  simp only [chars, render, renderAll, tupleText, String.toList_append] at hitems ⊢
  rw [hitems]
  simp

theorem chars_text (s : String) : (text s).chars = Text.Quoted.encode s.toList :=
  Text.Quoted.toList_ofString s

/-! ## Integers -/

/-- An integer is written with its digits, after a sign if it is negative. -/
theorem chars_int (n : Word) :
    (int n).chars =
      if 0 ≤ n.toInt then Nat.toDigits 10 n.toInt.toNat
      else '-' :: Nat.toDigits 10 (-n.toInt).toNat := by
  change (toString n.toInt).toList = _
  rw [Int.toString_eq_repr, Int.repr_eq_if]
  split <;> simp [Nat.toList_repr]

/-- Whether a character can be one of an integer. -/
def IsNumeral (c : Char) : Prop := c.isDigit = true ∨ c = '-'

theorem isNumeral_of_mem_chars {n : Word} {c : Char} (hc : c ∈ (int n).chars) : IsNumeral c := by
  rw [chars_int] at hc
  split at hc
  · exact Or.inl (isDigit_of_mem_toDigits hc)
  · rcases List.mem_cons.mp hc with rfl | hc
    · exact Or.inr rfl
    · exact Or.inl (isDigit_of_mem_toDigits hc)

theorem chars_int_ne_nil (n : Word) : (int n).chars ≠ [] := by
  rw [chars_int]
  split
  · exact Nat.toDigits_ne_nil
  · simp

theorem int_eq_of_chars_eq {m n : Word} (h : (int m).chars = (int n).chars) : m = n := by
  rw [chars_int, chars_int] at h
  apply Int64.toInt_inj.mp
  split at h <;> split at h
  · have hdigits := toDigits_inj h
    omega
  · exact absurd h (toDigits_ne_signed _ rfl _)
  · exact absurd h.symm (toDigits_ne_signed _ rfl _)
  · have hdigits := toDigits_inj (List.cons.inj h).2
    omega

end Snapshot

end Builtins
