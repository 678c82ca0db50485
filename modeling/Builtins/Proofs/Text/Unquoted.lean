-- Quoted texts as literals of the language. What stands between the quotes ends where the text does,
-- and decoded it is the text again, whatever characters that has.
import Builtins.Repr
import Builtins.Proofs.Text.Quoted

namespace Builtins.Text.Quoted

/-- Whether a text can stand between two quotes `q`. A backslash takes the character behind it along;
no quote stands for itself, and no backslash is left over at the end. -/
inductive Enclosed (q : Char) : List Char → Prop
  | nil : Enclosed q []
  | plain {c : Char} {rest : List Char} (hquote : c ≠ q) (hslash : c ≠ '\\')
    (hrest : Enclosed q rest) : Enclosed q (c :: rest)
  | escaped {c : Char} {rest : List Char} (hrest : Enclosed q rest) :
    Enclosed q ('\\' :: c :: rest)

theorem length_lt_of_readCode? {text rest : List Char} {c : Char}
    (h : readCode? text = some (c, rest)) : rest.length < text.length := by
  unfold readCode? at h
  split at h
  · cases h
    simp
  · cases h
    simp
  · cases h
    simp
  · obtain ⟨high, -, h⟩ := Option.bind_eq_some_iff.mp h
    obtain ⟨low, -, h⟩ := Option.bind_eq_some_iff.mp h
    cases h
    simp
    omega
  · split at h
    · cases h
      simp
    · cases h
  · cases h

theorem length_lt_of_read? {text rest : List Char} {c : Char} (h : read? text = some (c, rest)) :
    rest.length < text.length := by
  unfold read? at h
  split at h
  · cases h
  · split at h
    · have hcode := length_lt_of_readCode? h
      rw [List.length_cons]
      omega
    · cases h
      simp

/-- The text that stands for all that is written between two quotes: a backslash and the code after
it for the character with that code, and any other character for itself. -/
def decode? (text : List Char) : Option (List Char) :=
  if text.isEmpty then some []
  else
    match _h : read? text with
    | some (c, rest) => (decode? rest).map (c :: ·)
    | none => none
termination_by text.length
decreasing_by exact length_lt_of_read? (by assumption)

theorem decode?_nil : decode? [] = some [] := by
  rw [decode?]
  rfl

theorem decode?_of_read? {text rest : List Char} {c : Char} (h : read? text = some (c, rest)) :
    decode? text = (decode? rest).map (c :: ·) := by
  have hnonempty : ¬ text.isEmpty = true := by
    rintro hempty
    rw [List.isEmpty_iff.mp hempty] at h
    cases h
  rw [decode?, if_neg hnonempty]
  split
  · next hread =>
    rw [h] at hread
    cases hread
    rfl
  · next hread =>
    rw [h] at hread
    cases hread

section

variable {q : Char} (hq : q = '\'' ∨ q = '"')
include hq

theorem decode?_flatMap_escape (s : List Char) : decode? (s.flatMap (escape q)) = some s := by
  induction s with
  | nil => exact decode?_nil
  | cons c s ih =>
    rw [List.flatMap_cons, decode?_of_read? (read?_escape hq c _), ih]
    rfl

theorem digitChar_ne (n : Nat) (hn : n < 16) : Nat.digitChar n ≠ q ∧ Nat.digitChar n ≠ '\\' := by
  have hdigits : ∀ n < 16, Nat.digitChar n ≠ '\'' ∧ Nat.digitChar n ≠ '"' ∧
      Nat.digitChar n ≠ '\\' := by decide
  obtain ⟨hsingle, hdouble, hslash⟩ := hdigits n hn
  rcases hq with rfl | rfl
  · exact ⟨hsingle, hslash⟩
  · exact ⟨hdouble, hslash⟩

/-- One character more leaves a text between its quotes. -/
theorem Enclosed.escape {rest : List Char} (hrest : Enclosed q rest) (c : Char) :
    Enclosed q (escape q c ++ rest) := by
  unfold Quoted.escape
  split
  · exact .escaped hrest
  split
  · exact .escaped hrest
  split
  · exact .escaped hrest
  split
  · exact .escaped hrest
  split
  · exact .escaped hrest
  split
  · next hcontrol =>
    have hlt := toNat_lt_of_isControl hcontrol
    obtain ⟨hhigh, hhigh'⟩ := digitChar_ne hq (c.toNat / 16) (by omega)
    obtain ⟨hlow, hlow'⟩ := digitChar_ne hq (c.toNat % 16) (by omega)
    exact .escaped (.plain hhigh hhigh' (.plain hlow hlow' hrest))
  · next hslash _ _ _ hquote _ => exact .plain hquote hslash hrest

theorem enclosed_flatMap_escape (s : List Char) : Enclosed q (s.flatMap (escape q)) := by
  induction s with
  | nil => exact .nil
  | cons c s ih =>
    rw [List.flatMap_cons]
    exact ih.escape hq c

end

theorem quoteOf_eq_iff (s : List Char) : quoteOf s = '"' ↔ '\'' ∈ s ∧ '"' ∉ s := by
  unfold quoteOf
  split <;> simp_all

/-- The text of a string begins and ends with the same quote, the double one exactly if the string has
single quotes and no double ones. What stands between them neither ends before the second quote nor
takes it along, and decoded it is the string. -/
theorem a_quoted_string_is_read_back (h : Heap) (s : String) :
    ∃ q body, (h.repr (.text s)).toList = q :: (body ++ [q]) ∧ (q = '"' ∨ q = '\'') ∧
      (q = '"' ↔ '\'' ∈ s.toList ∧ '"' ∉ s.toList) ∧
      Enclosed q body ∧ decode? body = some s.toList := by
  have hrepr : (h.repr (.text s)).toList = encode s.toList := toList_ofString s
  have hq := quoteOf_eq s.toList
  exact ⟨_, _, hrepr, hq.symm, quoteOf_eq_iff s.toList, enclosed_flatMap_escape hq s.toList,
    decode?_flatMap_escape hq s.toList⟩

/-- A backslash before what looks like a code is not taken for one. -/
example : encode ['\\', 'x', '4', '1', '\u0085', '\''] =
    ['"', '\\', '\\', 'x', '4', '1', '\\', 'x', '8', '5', '\'', '"'] := by decide

end Builtins.Text.Quoted
