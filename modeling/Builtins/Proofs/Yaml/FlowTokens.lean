-- The tokens of data on one line: a scalar for each word and each quoted text, and brackets and
-- commas as they stand. Each piece of the line is one token of the source.
import Builtins.Proofs.Snapshot.Chars
import Builtins.Proofs.Yaml.Scanning

namespace Builtins.Yaml.Flow

/-! ## The characters of a line -/

def chars (f : Flow) : List Char := f.text.toList

/-- The characters of further items, each after a comma and a blank. -/
def moreChars (fs : List Flow) : List Char := fs.flatMap fun f => ',' :: ' ' :: f.chars

theorem moreChars_cons (f : Flow) (fs : List Flow) :
    moreChars (f :: fs) = ',' :: ' ' :: (f.chars ++ moreChars fs) := by
  simp [moreChars]

theorem texts_eq_map (fs : List Flow) : texts fs = fs.map text := by
  induction fs with
  | nil => rfl
  | cons f fs ih => simp [texts, ih]

theorem chars_singleQuoted (s : String) :
    (singleQuoted s).chars = '\'' :: (quotesDoubled s.toList ++ ['\'']) :=
  toList_singleQuote s

theorem chars_doubleQuoted (s : String) :
    (doubleQuoted s).chars = '"' :: (s.toList ++ ['"']) := by
  simp [chars, text]

theorem chars_sequence_nil : (sequence []).chars = ['[', ']'] := by
  simp [chars, text, texts]

theorem chars_sequence_cons (f : Flow) (fs : List Flow) :
    (sequence (f :: fs)).chars = '[' :: (f.chars ++ moreChars fs ++ [']']) := by
  have hitems : (", ".intercalate (texts (f :: fs))).toList = f.chars ++ moreChars fs := by
    rw [texts_eq_map, List.map_cons, Text.toList_intercalate, List.flatMap_map]
    rfl
  simp only [chars, text, String.toList_append] at hitems ⊢
  rw [hitems]
  simp

/-! ## Tokens -/

mutual

/-- The tokens of a line. -/
def tokens : Flow → List Token
  | singleQuoted s | doubleQuoted s => [.scalar .quoted s]
  | sequence [] => [.flowSequenceStart, .flowSequenceEnd]
  | sequence (f :: fs) => .flowSequenceStart :: (f.tokens ++ moreTokens fs ++ [.flowSequenceEnd])
  | f => [.scalar .plain f.text]

/-- The tokens of further items, each after a comma. -/
def moreTokens : List Flow → List Token
  | [] => []
  | f :: fs => .flowEntry :: (f.tokens ++ moreTokens fs)

end

/-- What may come after the text of an item: nothing, or between brackets a comma or the end. -/
def Follows (depth : Nat) (rest : List Char) : Prop :=
  ∀ c ∈ rest.head?, 0 < depth ∧ (c = ',' ∨ c = ']')

theorem follows_cons {depth : Nat} {c : Char} (hc : c = ',' ∨ c = ']') (rest : List Char) :
    Follows (depth + 1) (c :: rest) := by
  simpa [Follows] using hc

theorem follows_moreChars (depth : Nat) (fs : List Flow) (rest : List Char) :
    Follows (depth + 1) (moreChars fs ++ ']' :: rest) := by
  cases fs with
  | nil => exact follows_cons (Or.inr rfl) rest
  | cons f fs =>
    rw [moreChars_cons]
    exact follows_cons (Or.inl rfl) _

theorem Follows.ne_quote {depth : Nat} {rest : List Char} (h : Follows depth rest) :
    rest.head? ≠ some '\'' := by
  intro hquote
  rcases (h '\'' hquote).2 with hc | hc <;> exact absurd hc (by decide)

/-! ## Words -/

theorem isWordChar_of_isDigit {c : Char} (hc : c.isDigit = true) : isWordChar c = true := by
  simp [isWordChar, Char.isAlphanum, hc]

theorem chars_int (n : Word) : (int n).chars = (Snapshot.int n).chars := rfl

/-- The text of an integer is a word. -/
theorem isWord_int {n : Word} {c : Char} {cs : List Char} (h : (int n).chars = c :: cs) :
    Scanner.IsWord c cs := by
  rw [chars_int] at h
  constructor
  case chars =>
    intro d hd
    rw [← h] at hd
    rcases Snapshot.isNumeral_of_mem_chars hd with hd | rfl
    · exact isWordChar_of_isDigit hd
    · rfl
  case minus =>
    rintro rfl
    rw [Snapshot.chars_int] at h
    split at h
    · exact absurd h (Decimal.toDigits_ne_signed _ rfl _)
    · obtain ⟨d, ds, hdigits⟩ := List.exists_cons_of_ne_nil
        (Nat.toDigits_ne_nil (b := 10) (n := (-n.toInt).toNat))
      have hcs : cs = d :: ds := (List.cons.inj h).2.symm.trans hdigits
      have hmem : d ∈ Nat.toDigits 10 (-n.toInt).toNat := by rw [hdigits]; exact List.mem_cons_self
      exact ⟨d, ds, hcs, Decimal.isDigit_of_mem_toDigits hmem⟩

/-- What is written as one word: a truth value or an integer. -/
inductive Bare : Flow → Prop
  | bool (b capital : Bool) : Bare (.bool b capital)
  | int (n : Word) : Bare (.int n)

namespace Bare

variable {f : Flow} (hf : f.Bare)
include hf

theorem tokens_eq : f.tokens = [.scalar .plain f.text] := by
  cases hf <;> rfl

theorem exists_word : ∃ c cs, f.chars = c :: cs ∧ Scanner.IsWord c cs := by
  cases hf with
  | bool b capital =>
    match b, capital with
    | true, true => exact ⟨'T', ['r', 'u', 'e'], by decide, ⟨by simp [isWordChar], by simp⟩⟩
    | true, false => exact ⟨'t', ['r', 'u', 'e'], by decide, ⟨by simp [isWordChar], by simp⟩⟩
    | false, true =>
      exact ⟨'F', ['a', 'l', 's', 'e'], by decide, ⟨by simp [isWordChar], by simp⟩⟩
    | false, false =>
      exact ⟨'f', ['a', 'l', 's', 'e'], by decide, ⟨by simp [isWordChar], by simp⟩⟩
  | int n =>
    obtain ⟨c, cs, hchars⟩ := List.exists_cons_of_ne_nil (Snapshot.chars_int_ne_nil n)
    exact ⟨c, cs, hchars, isWord_int hchars⟩

/-- A word is scanned as the plain scalar that it is. -/
theorem scans {pad rest : List Char} (hpad : pad = [] ∨ pad = [' ']) {depth : Nat}
    (hrest : Follows depth rest) :
    Scanner.Scans depth (pad ++ f.chars ++ rest) f.tokens depth rest := by
  obtain ⟨c, cs, hchars, hword⟩ := hf.exists_word
  have htext : String.ofList (c :: cs) = f.text := by
    rw [← hchars]
    exact String.ofList_toList
  rw [hf.tokens_eq, ← htext, hchars]
  simpa using Scanner.scans_word hpad depth hword hrest

theorem printable : ∀ c ∈ f.chars, Printable c := by
  intro c hc
  obtain ⟨d, ds, hchars, hword⟩ := hf.exists_word
  rw [hchars] at hc
  exact printable_of_isWordChar (hword.chars c hc)

theorem length_tokens_le : f.tokens.length ≤ f.chars.length := by
  obtain ⟨c, cs, hchars, -⟩ := hf.exists_word
  simp [hchars, hf.tokens_eq]

end Bare

/-! ## Lines -/

theorem scans_more {depth : Nat} {fs : List Flow} (rest : List Char)
    (hfs : ∀ f ∈ fs, ∀ pad : List Char, pad = [] ∨ pad = [' '] → ∀ after,
      Follows (depth + 1) after →
        Scanner.Scans (depth + 1) (pad ++ f.chars ++ after) f.tokens (depth + 1) after) :
    Scanner.Scans (depth + 1) (moreChars fs ++ ']' :: rest) (moreTokens fs) (depth + 1)
      (']' :: rest) := by
  induction fs with
  | nil => exact Scanner.scans_nil _ _
  | cons f fs ih =>
    have hcomma := Scanner.scans_comma (depth + 1)
      ([' '] ++ f.chars ++ (moreChars fs ++ ']' :: rest))
    have hitem := hfs f List.mem_cons_self [' '] (Or.inr rfl) _ (follows_moreChars depth fs rest)
    have hmore := ih fun d hd => hfs d (List.mem_cons_of_mem f hd)
    rw [moreChars_cons, moreTokens]
    simpa using hcomma.append (hitem.append hmore)

namespace Fits

variable {n : Nat} {f : Flow}

/-- Where an item may end after it, a line is scanned as its tokens. -/
theorem scans (hf : f.Fits n) {pad rest : List Char} (hpad : pad = [] ∨ pad = [' ']) {depth : Nat}
    (hrest : Follows depth rest) :
    Scanner.Scans depth (pad ++ f.chars ++ rest) f.tokens depth rest := by
  induction hf generalizing pad depth rest with
  | bool _ b capital => exact (Bare.bool b capital).scans hpad hrest
  | int _ n => exact (Bare.int n).scans hpad hrest
  | singleQuoted _ hs =>
    have hscans := Scanner.scans_singleQuoted hpad depth hs hrest.ne_quote
    rw [String.ofList_toList] at hscans
    rw [chars_singleQuoted, tokens]
    simpa using hscans
  | @doubleQuoted _ s hs hquote hslash =>
    have hplain : ∀ c ∈ s.toList, Printable c ∧ c ≠ '"' ∧ c ≠ '\\' :=
      fun c hc => ⟨hs c hc, fun h => hquote (h ▸ hc), fun h => hslash (h ▸ hc)⟩
    have hscans : Scanner.Scans depth (pad ++ '"' :: (s.toList ++ '"' :: rest))
        [.scalar .quoted (String.ofList s.toList)] depth rest :=
      Scanner.scans_doubleQuoted hpad depth hplain
    rw [String.ofList_toList] at hscans
    rw [chars_doubleQuoted, tokens]
    simpa using hscans
  | @sequence _ fs _ ih =>
    cases fs with
    | nil =>
      rw [chars_sequence_nil, tokens]
      simpa using (Scanner.scans_openBracket hpad depth (']' :: rest)).append
        (Scanner.scans_closeBracket depth rest)
    | cons f fs =>
      have hopen := Scanner.scans_openBracket hpad depth
        (f.chars ++ (moreChars fs ++ ']' :: rest))
      have hitem := ih f List.mem_cons_self (Or.inl rfl) (follows_moreChars depth fs rest)
      have hmore : Scanner.Scans (depth + 1) (moreChars fs ++ ']' :: rest) (moreTokens fs)
          (depth + 1) (']' :: rest) :=
        scans_more rest fun d hd pad hpad after hafter =>
          ih d (List.mem_cons_of_mem f hd) hpad hafter
      have hclose := Scanner.scans_closeBracket depth rest
      rw [chars_sequence_cons, tokens]
      simpa using hopen.append (hitem.append (hmore.append hclose))

/-- A line is written in printable characters only. -/
theorem printable (hf : f.Fits n) : ∀ c ∈ f.chars, Printable c := by
  have hmark : ∀ c ∈ ['"', '[', ']', ',', ' '], Printable c := by
    simp [Printable]
  induction hf with
  | bool _ b capital => exact (Bare.bool b capital).printable
  | int _ n => exact (Bare.int n).printable
  | singleQuoted _ hs => exact printable_singleQuote hs
  | doubleQuoted _ hs _ _ =>
    intro c hc
    rw [chars_doubleQuoted] at hc
    simp only [List.mem_cons, List.mem_append, List.not_mem_nil, or_false] at hc
    rcases hc with rfl | hc | rfl
    · exact hmark _ (by simp)
    · exact hs c hc
    · exact hmark _ (by simp)
  | @sequence _ fs _ ih =>
    intro c hc
    cases fs with
    | nil =>
      rw [chars_sequence_nil] at hc
      exact hmark c (by simp at hc; rcases hc with rfl | rfl <;> simp)
    | cons f fs =>
      rw [chars_sequence_cons] at hc
      simp only [List.mem_cons, List.mem_append, List.not_mem_nil, or_false, moreChars,
        List.mem_flatMap] at hc
      rcases hc with rfl | (hc | ⟨d, hd, rfl | rfl | hc⟩) | rfl
      · exact hmark _ (by simp)
      · exact ih f List.mem_cons_self c hc
      · exact hmark _ (by simp)
      · exact hmark _ (by simp)
      · exact ih d (List.mem_cons_of_mem f hd) c hc
      · exact hmark _ (by simp)

end Fits

theorem length_moreTokens_le {fs : List Flow}
    (hfs : ∀ f ∈ fs, f.tokens.length ≤ f.chars.length) :
    (moreTokens fs).length ≤ (moreChars fs).length := by
  induction fs with
  | nil => exact Nat.le_refl 0
  | cons f fs ih =>
    have hitem := hfs f List.mem_cons_self
    have hmore := ih fun d hd => hfs d (List.mem_cons_of_mem f hd)
    rw [moreTokens, moreChars_cons]
    simp
    omega

namespace Fits

variable {n : Nat} {f : Flow}

/-- Each token takes at least one character. -/
theorem length_tokens_le (hf : f.Fits n) : f.tokens.length ≤ f.chars.length := by
  induction hf with
  | bool _ b capital => exact (Bare.bool b capital).length_tokens_le
  | int _ n => exact (Bare.int n).length_tokens_le
  | singleQuoted _ _ =>
    rw [chars_singleQuoted, tokens]
    simp
  | doubleQuoted _ _ _ _ =>
    rw [chars_doubleQuoted, tokens]
    simp
  | @sequence _ fs _ ih =>
    cases fs with
    | nil =>
      rw [chars_sequence_nil, tokens]
      exact Nat.le_refl 2
    | cons f fs =>
      have hitem := ih f List.mem_cons_self
      have hmore := length_moreTokens_le fun d hd => ih d (List.mem_cons_of_mem f hd)
      rw [chars_sequence_cons, tokens]
      simp
      omega

/-- The tokens of a line are read off it. -/
theorem tokens_chars (hf : f.Fits n) : Yaml.tokens f.chars = some f.tokens := by
  refine tokens_of_scans (fun c hc => (hf.printable c hc).isAllowed) hf.length_tokens_le ?_
  have hend : Follows 0 [] := by simp [Follows]
  simpa using hf.scans (Or.inl rfl) hend

end Fits

end Builtins.Yaml.Flow
