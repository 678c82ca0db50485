-- Scalars on one line. Between quotes printable characters stand for themselves, blanks included,
-- and a word that is not quoted ends where a comma or a bracket comes.
import Mathlib.Data.List.Basic
import Builtins.Proofs.Yaml.Flow

namespace Builtins.Yaml

namespace Printable

variable {c : Char} (hc : Printable c)
include hc

theorem isAllowed : isAllowed c = true := by
  simp only [Printable] at hc
  simp [Yaml.isAllowed, hc]

theorem isBreak : isBreak c = false := by
  obtain ⟨hlow, hhigh⟩ := hc
  have hfeed : c ≠ '\n' := by rintro rfl; simp at hlow
  have hreturn : c ≠ '\r' := by rintro rfl; simp at hlow
  simp [Yaml.isBreak, hfeed, hreturn]
  omega

theorem ne_return : c ≠ '\r' := by
  rintro rfl
  exact absurd hc.1 (by decide)

theorem isBlank : isBlank c = (c == ' ') := by
  have htab : c ≠ '\t' := by
    rintro rfl
    exact absurd hc.1 (by decide)
  simp [Yaml.isBlank, htab]

theorem isByteOrderMark : isByteOrderMark c = false := by
  have hhigh := hc.2
  simp only [Yaml.isByteOrderMark, beq_eq_false_iff_ne]
  omega

end Printable

/-! ## Places -/

namespace Place

theorem line_rightOver (p : Place) (cs : List Char) : (p.rightOver cs).line = p.line := by
  induction cs generalizing p with
  | nil => rfl
  | cons c cs ih => exact ih (p.right c)

theorem index_rightOver (p : Place) {cs : List Char} (hcs : ∀ c ∈ cs, Printable c) :
    (p.rightOver cs).index = p.index + cs.length := by
  induction cs generalizing p with
  | nil => rfl
  | cons c cs ih =>
    have hsize : c.utf8Size = 1 := by
      have hhigh := (hcs c List.mem_cons_self).2
      rw [Char.utf8Size_eq_one_iff, UInt32.le_iff_toNat_le]
      exact Nat.le_trans hhigh (by decide)
    have hstep : p.rightOver (c :: cs) = (p.right c).rightOver cs := rfl
    have hright : (p.right c).index = p.index + 1 := by
      simp [right, hsize]
    rw [hstep, ih (p.right c) fun d hd => hcs d (List.mem_cons_of_mem c hd), hright,
      List.length_cons]
    omega

end Place

/-! ## Between quotes -/

section Quoted

variable {c : Char} {rest text : List Char} {place : Place} {blanks : List Char}

/-- To read a printable character that is no quote is to keep it, after the blanks before it. -/
theorem singleQuoted_cons (hc : Printable c) (hquote : c ≠ '\'') (hplace : place.column ≠ 0) :
    singleQuoted (c :: rest) place text { blanks } =
      if c = ' ' then singleQuoted rest (place.right c) text { blanks := blanks ++ [c] }
      else singleQuoted rest (place.right c) (c :: (blanks.reverse ++ text)) {} := by
  rw [singleQuoted.eq_def]
  split
  · next h => cases h
  · next h => cases h; exact absurd rfl hquote
  · next h => cases h; exact absurd rfl hc.ne_return
  · next h =>
    cases h
    simp [hquote, hc.isBlank, hc.isBreak, hplace, Gap.blank, Gap.fold]

theorem doubleQuoted_cons (hc : Printable c) (hquote : c ≠ '"') (hslash : c ≠ '\\')
    (hplace : place.column ≠ 0) :
    doubleQuoted (c :: rest) place text { blanks } .closed =
      if c = ' ' then doubleQuoted rest (place.right c) text { blanks := blanks ++ [c] } .closed
      else doubleQuoted rest (place.right c) (c :: (blanks.reverse ++ text)) {} .closed := by
  rw [doubleQuoted.eq_def]
  split
  · next h => cases h
  · next h => cases h
  · next h => cases h
  · next h => cases h
  · next h _ => cases h; exact absurd rfl hc.ne_return
  · next h _ =>
    cases h
    simp [hquote, hslash, hc.isBlank, hc.isBreak, hplace, Gap.blank, Gap.fold]

theorem quotesDoubled_eq_self {s : List Char} (hs : '\'' ∉ s) : quotesDoubled s = s := by
  have hsingle : ∀ c ∈ s, (if c = '\'' then ['\'', '\''] else [c]) = [c] := by
    intro c hc
    rw [if_neg]
    rintro rfl
    exact hs hc
  calc quotesDoubled s
      = s.flatMap (fun c => [c]) := List.flatMap_congr hsingle
    _ = s := List.flatMap_singleton' s

theorem printable_quotesDoubled {s : String} (hs : ∀ c ∈ s.toList, Printable c) :
    ∀ c ∈ quotesDoubled s.toList, Printable c := by
  intro c hc
  obtain ⟨d, hd, hc⟩ := List.mem_flatMap.mp hc
  have hcd : c = d := by
    split at hc
    · next hquote => simpa [hquote] using hc
    · exact List.mem_singleton.mp hc
  rw [hcd]
  exact hs d hd

theorem printable_singleQuote {s : String} (hs : ∀ c ∈ s.toList, Printable c) :
    ∀ c ∈ (singleQuote s).toList, Printable c := by
  intro c hc
  have hquote : Printable '\'' := by decide
  rw [toList_singleQuote] at hc
  simp only [List.mem_cons, List.mem_append, List.not_mem_nil, or_false] at hc
  rcases hc with rfl | hc | rfl
  · exact hquote
  · exact printable_quotesDoubled hs c hc
  · exact hquote

/-- To read a quote that is written twice is to keep it once, after the blanks before it. -/
theorem singleQuoted_quotes :
    singleQuoted ('\'' :: '\'' :: rest) place text { blanks } =
      singleQuoted rest (place.rightOver ['\'', '\'']) ('\'' :: (blanks.reverse ++ text)) {} := by
  simp [singleQuoted, Gap.fold]

/-- What stands between single quotes on one line is the text whose quotes are doubled there. -/
theorem singleQuoted_line {s : List Char} (text blanks : List Char) (hs : ∀ c ∈ s, Printable c)
    (hrest : rest.head? ≠ some '\'') (hplace : place.column ≠ 0) :
    singleQuoted (quotesDoubled s ++ '\'' :: rest) place text { blanks } =
      some ⟨text.reverse ++ (blanks ++ s), false, rest,
        place.rightOver (quotesDoubled s ++ ['\''])⟩ := by
  induction s generalizing place text blanks with
  | nil =>
    rw [quotesDoubled, List.flatMap_nil, List.nil_append, singleQuoted.eq_def]
    split
    · next h => cases h
    · next h => cases h; exact absurd rfl hrest
    · next h => cases h
    · next h => cases h; simp [Gap.fold, Place.rightOver]
  | cons c s ih =>
    have hmore : ∀ (place : Place) (text blanks : List Char), place.column ≠ 0 →
        singleQuoted (quotesDoubled s ++ '\'' :: rest) place text { blanks } =
          some ⟨text.reverse ++ (blanks ++ s), false, rest,
            place.rightOver (quotesDoubled s ++ ['\''])⟩ :=
      fun place text blanks hplace =>
        ih text blanks (fun d hd => hs d (List.mem_cons_of_mem c hd)) hplace
    rw [quotesDoubled, List.flatMap_cons, ← quotesDoubled, List.append_assoc, List.append_assoc]
    split
    · next hquote =>
      have hquotes := hmore (place.rightOver ['\'', '\'']) ('\'' :: (blanks.reverse ++ text)) []
        (Nat.succ_ne_zero _)
      rw [List.cons_append, List.cons_append, List.nil_append, singleQuoted_quotes, hquotes]
      simp [hquote, Place.rightOver]
    · next hquote =>
      rw [List.singleton_append,
        singleQuoted_cons (hs c List.mem_cons_self) hquote hplace]
      split
      · rw [hmore (place.right c) text (blanks ++ [c]) (Nat.succ_ne_zero _)]
        simp [Place.rightOver]
      · rw [hmore (place.right c) (c :: (blanks.reverse ++ text)) [] (Nat.succ_ne_zero _)]
        simp [Place.rightOver]

/-- What stands between double quotes on one line is the text, if no quote and no backslash is in
it. -/
theorem doubleQuoted_line {s : List Char} (text blanks : List Char)
    (hs : ∀ c ∈ s, Printable c ∧ c ≠ '"' ∧ c ≠ '\\') (hplace : place.column ≠ 0) :
    ∃ p, doubleQuoted (s ++ '"' :: rest) place text { blanks } .closed =
      some ⟨text.reverse ++ (blanks ++ s), false, rest, p⟩ := by
  induction s generalizing place text blanks with
  | nil =>
    refine ⟨place.right '"', ?_⟩
    rw [List.nil_append, doubleQuoted.eq_def]
    split
    · next h => cases h
    · next h => cases h
    · next h => cases h
    · next h => cases h
    · next h _ => cases h
    · next h _ => cases h; simp [Gap.fold]
  | cons c s ih =>
    obtain ⟨hc, hquote, hslash⟩ := hs c List.mem_cons_self
    have hmore : ∀ text blanks, ∃ p,
        doubleQuoted (s ++ '"' :: rest) (place.right c) text { blanks } .closed =
          some ⟨text.reverse ++ (blanks ++ s), false, rest, p⟩ :=
      fun text blanks =>
        ih text blanks (fun d hd => hs d (List.mem_cons_of_mem c hd)) (Nat.succ_ne_zero _)
    rw [List.cons_append, doubleQuoted_cons hc hquote hslash hplace]
    split
    · obtain ⟨p, hp⟩ := hmore text (blanks ++ [c])
      exact ⟨p, by simpa using hp⟩
    · obtain ⟨p, hp⟩ := hmore (c :: (blanks.reverse ++ text)) []
      exact ⟨p, by simpa using hp⟩

end Quoted

/-! ## Words -/

theorem ne_of_isWordChar {c d : Char} (hc : isWordChar c = true) (hd : isWordChar d = false) :
    c ≠ d := by
  rintro rfl
  rw [hc] at hd
  exact Bool.noConfusion hd

theorem printable_of_between {a b c : Char} (ha : Printable a) (hb : Printable b)
    (hc : a.val ≤ c.val ∧ c.val ≤ b.val) : Printable c :=
  ⟨Nat.le_trans ha.1 (UInt32.le_iff_toNat_le.mp hc.1),
    Nat.le_trans (UInt32.le_iff_toNat_le.mp hc.2) hb.2⟩

theorem printable_of_isAlphanum {c : Char} (hc : c.isAlphanum = true) : Printable c := by
  have hclass : (c.isUpper = true ∨ c.isLower = true) ∨ c.isDigit = true := by
    rw [← Bool.or_eq_true, ← Bool.or_eq_true]
    exact hc
  rcases hclass with (hupper | hlower) | hdigit
  · exact printable_of_between (a := 'A') (b := 'Z') (by decide) (by decide)
      (of_decide_eq_true hupper)
  · obtain ⟨hlow, hhigh⟩ := Bool.and_eq_true_iff.mp hlower
    exact printable_of_between (a := 'a') (b := 'z') (by decide) (by decide)
      ⟨of_decide_eq_true hlow, of_decide_eq_true hhigh⟩
  · obtain ⟨hlow, hhigh⟩ := Bool.and_eq_true_iff.mp hdigit
    exact printable_of_between (a := '0') (b := '9') (by decide) (by decide)
      ⟨of_decide_eq_true hlow, of_decide_eq_true hhigh⟩

theorem printable_of_isWordChar {c : Char} (hc : isWordChar c = true) : Printable c := by
  simp only [isWordChar, Bool.or_eq_true, beq_iff_eq] at hc
  rcases hc with (hletter | rfl) | rfl
  · exact printable_of_isAlphanum hletter
  · exact ⟨by decide, by decide⟩
  · exact ⟨by decide, by decide⟩

theorem plainScalar_cons {inFlow : Bool} {margin : Nat} {c : Char} {rest text : List Char}
    {place : Place} (hc : isWordChar c = true) :
    plainScalar inFlow margin (c :: rest) place text {} =
      plainScalar inFlow margin rest (place.right c) (c :: text) {} := by
  have hprintable := printable_of_isWordChar hc
  have hspace : c ≠ ' ' := ne_of_isWordChar hc rfl
  have hcolon : c ≠ ':' := ne_of_isWordChar hc rfl
  have hindicator : isFlowIndicator c = false := by
    unfold isFlowIndicator
    rw [decide_eq_false_iff_not]
    intro hmem
    have hno : ∀ d ∈ [',', '[', ']', '\x7b', '\x7d'], isWordChar d = false := by
      simp [isWordChar]
    exact ne_of_isWordChar hc (hno c hmem) rfl
  rw [plainScalar.eq_def]
  split
  · next h => cases h
  · next h => cases h; exact absurd rfl hprintable.ne_return
  · next h =>
    cases h
    simp [hprintable.isBlank, hprintable.isBreak, hspace, hcolon, hindicator, isStrayColon,
      endsPlain, Gap.isEmpty, Gap.fold]

/-- A word goes up to the end of the source, or between brackets up to a comma or a bracket. -/
theorem plainScalar_word {inFlow : Bool} {margin : Nat} {s rest : List Char} {place : Place}
    (text : List Char) (hs : ∀ c ∈ s, isWordChar c = true)
    (hrest : ∀ c ∈ rest.head?, inFlow = true ∧ (c = ',' ∨ c = ']')) :
    ∃ p, plainScalar inFlow margin (s ++ rest) place text {} =
      some ⟨text.reverse ++ s, false, rest, p⟩ := by
  induction s generalizing place text with
  | nil =>
    refine ⟨place, ?_⟩
    rw [List.nil_append, plainScalar.eq_def]
    split
    · simp
    · exact absurd (hrest '\r' rfl).2 (by decide)
    · next c rest _ =>
      obtain ⟨rfl, rfl | rfl⟩ := hrest c rfl
      · simp [isBlank, isBreak, isStrayColon, endsPlain, isFlowIndicator, Gap.isEmpty]
      · simp [isBlank, isBreak, isStrayColon, endsPlain, isFlowIndicator, Gap.isEmpty]
  | cons c s ih =>
    have hmore : ∀ text, ∃ p, plainScalar inFlow margin (s ++ rest) (place.right c) text {} =
        some ⟨text.reverse ++ s, false, rest, p⟩ :=
      fun text => ih text fun d hd => hs d (List.mem_cons_of_mem c hd)
    rw [List.cons_append, plainScalar_cons (hs c List.mem_cons_self)]
    obtain ⟨p, hp⟩ := hmore (c :: text)
    exact ⟨p, by simpa using hp⟩

end Builtins.Yaml
