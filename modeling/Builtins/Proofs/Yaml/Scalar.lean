-- The numbers that plain scalars are read as. Digits without a leading zero are read as the number
-- that they are, with a sign or without.
import Builtins.Proofs.Snapshot.Chars
import Builtins.Yaml.Scalar

namespace Builtins

/-! ## Digits -/

namespace Decimal

theorem hexValue?_of_isDigit {c : Char} (hc : c.isDigit = true) :
    Yaml.hexValue? c = some (c.toNat - 0x30) := if_pos hc

theorem digit_lt_ten {c : Char} (hc : c.isDigit = true) : c.toNat - 0x30 < 10 := by
  have hrange : 48 ≤ c.val ∧ c.val ≤ 57 := by simpa [Char.isDigit] using hc
  have hhigh : c.toNat ≤ 57 := UInt32.le_iff_toNat_le.mp hrange.2
  omega

/-- Decimal digits are read from the left, each worth ten of the next. -/
theorem foldlM_digits {ds : List Char} (hds : ∀ c ∈ ds, c.isDigit = true) (n : Nat) :
    ds.foldlM (fun n c => do
      let d ← Yaml.hexValue? c
      if d < 10 then some (n * 10 + d) else none) n = some (Nat.ofDigitChars 10 ds n) := by
  induction ds generalizing n with
  | nil => rfl
  | cons c ds ih =>
    have hc := hds c List.mem_cons_self
    have hstep : (do
        let d ← Yaml.hexValue? c
        if d < 10 then some (n * 10 + d) else none) = some (10 * n + (c.toNat - 0x30)) := by
      simp [hexValue?_of_isDigit hc, digit_lt_ten hc, Nat.mul_comm]
    rw [List.foldlM_cons, hstep]
    exact ih (fun d hd => hds d (List.mem_cons_of_mem c hd)) _

theorem digitsValue?_toDigits (n : Nat) :
    digitsValue? 10 Yaml.hexValue? (Nat.toDigits 10 n) = some n := by
  unfold digitsValue?
  rw [if_neg (by simp [Nat.toDigits_ne_nil]), foldlM_digits fun _ => isDigit_of_mem_toDigits]
  simp [Nat.ofDigitChars_ten_toDigits]

/-- Only zero itself begins with a zero. -/
theorem head_toDigits {n : Nat} (hn : 0 < n) : (Nat.toDigits 10 n).head? ≠ some '0' := by
  induction n using Nat.strongRecOn with
  | ind n ih =>
    rcases Nat.lt_or_ge n 10 with hlt | hge
    · rw [Nat.toDigits_of_lt_base hlt]
      have hdigits : ∀ m < 10, 0 < m → [Nat.digitChar m].head? ≠ some '0' := by decide
      exact hdigits n hlt hn
    · rw [Nat.toDigits_of_base_le (by decide) hge]
      have hfirst := ih (n / 10) (by omega) (by omega)
      cases hd : Nat.toDigits 10 (n / 10) with
      | nil => exact absurd hd Nat.toDigits_ne_nil
      | cons c ds => simpa [hd] using hfirst

theorem toDigits_ne_padded (n : Nat) (d : Char) (ds : List Char) :
    Nat.toDigits 10 n ≠ '0' :: d :: ds := by
  intro h
  rcases Nat.eq_zero_or_pos n with rfl | hn
  · simp [Nat.toDigits_zero] at h
  · exact head_toDigits hn (by rw [h]; rfl)

end Decimal

/-! ## Words -/

namespace Yaml.Scalar

open Snapshot Decimal

theorem natural?_toDigits (n : Nat) : natural? (Nat.toDigits 10 n) = some n := by
  unfold natural?
  split
  · next h => exact absurd h (toDigits_ne_padded n _ _)
  · next h => exact absurd h (toDigits_ne_padded n _ _)
  · next h => exact absurd h (toDigits_ne_padded n _ _)
  · exact digitsValue?_toDigits n

theorem isPadded_toDigits (n : Nat) : isPadded (Nat.toDigits 10 n) = false := by
  unfold isPadded
  split
  · next h => exact absurd h (toDigits_ne_signed n rfl _)
  · next h => exact absurd h (toDigits_ne_signed n rfl _)
  · dsimp only
    split
    · next h => exact absurd h (toDigits_ne_padded n _ _)
    · rfl

theorem isPadded_minus_toDigits (n : Nat) : isPadded ('-' :: Nat.toDigits 10 n) = false := by
  unfold isPadded
  dsimp only
  split
  · next h => exact absurd h (toDigits_ne_padded n _ _)
  · rfl

/-- The text of an integer is read as the integer. -/
theorem integer?_chars (n : Word) : integer? (Snapshot.int n).chars = some n.toInt := by
  rw [chars_int]
  unfold integer?
  split
  · next hn =>
    rw [if_neg (by simp [isPadded_toDigits])]
    split
    · next hs => exact absurd hs (toDigits_ne_signed _ rfl _)
    · next hs => exact absurd hs (toDigits_ne_signed _ rfl _)
    · rw [natural?_toDigits]
      exact congrArg some (Int.toNat_of_nonneg hn)
  · next hn =>
    rw [if_neg (by simp [isPadded_minus_toDigits])]
    have hvalue : -((-n.toInt).toNat : Int) = n.toInt := by omega
    simp only [natural?_toDigits]
    exact congrArg some hvalue

theorem ofInteger?_toInt (n : Word) : ofInteger? n.toInt = some (some (.int n.toInt)) := by
  have hlow : -Int.pow 2 63 ≤ n.toInt := Int64.le_toInt n
  have hhigh : n.toInt < Int.pow 2 64 := Int.lt_trans (Int64.toInt_lt n) (by decide)
  exact if_pos ⟨hlow, hhigh⟩

/-- A text of numerals is none of some words that each have another character. -/
theorem not_mem_of_numerals {s : String} (hs : ∀ c ∈ s.toList, IsNumeral c) {words : List String}
    (hwords : ∀ w ∈ words, ∃ c ∈ w.toList, ¬ IsNumeral c) : s ∉ words := by
  intro hmem
  obtain ⟨c, hc, hnot⟩ := hwords s hmem
  exact hnot (hs c hc)

/-- A plain scalar that is the text of an integer means the integer. -/
theorem ofPlain?_int (n : Word) : ofPlain? (Snapshot.int n).render = some (.int n.toInt) := by
  have hnumerals : ∀ c ∈ (Snapshot.int n).render.toList, IsNumeral c :=
    fun c => isNumeral_of_mem_chars
  have hempty : (Snapshot.int n).render.isEmpty = false := by
    rw [← Bool.not_eq_true, String.isEmpty_iff]
    intro h
    exact chars_int_ne_nil n (by rw [chars, h]; rfl)
  have hnull : isNull (Snapshot.int n).render = false := by
    unfold isNull
    rw [decide_eq_false_iff_not]
    exact not_mem_of_numerals hnumerals (by simp [IsNumeral])
  have hbool : bool? (Snapshot.int n).render = none := by
    unfold bool?
    rw [if_neg (not_mem_of_numerals hnumerals (by simp [IsNumeral])),
      if_neg (not_mem_of_numerals hnumerals (by simp [IsNumeral]))]
  have hinteger : (integer? (Snapshot.int n).render.toList).bind ofInteger? =
      some (some (.int n.toInt)) := by
    rw [show integer? (Snapshot.int n).render.toList = some n.toInt from integer?_chars n]
    exact ofInteger?_toInt n
  unfold ofPlain?
  simp [hempty, hnull, hbool, hinteger]

end Yaml.Scalar

end Builtins
