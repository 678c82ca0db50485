-- Signed words of sixty-four bits, the integers of the language. A result is worked out
-- on whole numbers and becomes a word only when it fits, so no operation ever wraps.
namespace Builtins

/-- An integer of the language. -/
abbrev Word := Int64

namespace Word

/-- Whether a whole number is the value of a word. -/
def Fits (n : Int) : Prop := Int64.minValue.toInt ≤ n ∧ n ≤ Int64.maxValue.toInt

instance (n : Int) : Decidable (Fits n) := inferInstanceAs (Decidable (_ ∧ _))

/-- The word whose value is `n`, when there is one. -/
def ofInt? (n : Int) : Option Word := if Fits n then some (Int64.ofInt n) else none

/-- The sum of two words, when it fits. -/
def add? (a b : Word) : Option Word := ofInt? (a.toInt + b.toInt)

def mul? (a b : Word) : Option Word := ofInt? (a.toInt * b.toInt)

def ofBool (b : Bool) : Word := if b then 1 else 0

/-! ## What the operations give -/

theorem fits_toInt (w : Word) : Fits w.toInt := by
  have hlow := Int64.le_toInt w
  have hhigh := Int64.toInt_lt w
  unfold Fits
  rw [Int64.toInt_minValue, Int64.toInt_maxValue]
  omega

theorem toInt_ofInt_of_fits {n : Int} (h : Fits n) : (Int64.ofInt n).toInt = n := by
  unfold Fits at h
  rw [Int64.toInt_minValue, Int64.toInt_maxValue] at h
  rw [Int64.toInt_ofInt]
  simp only [Int64.size]
  rw [Int.bmod_def]
  omega

theorem ofInt?_eq_some_iff {n : Int} {w : Word} : ofInt? n = some w ↔ w.toInt = n := by
  unfold ofInt?
  constructor
  · intro h
    split at h
    · next hf =>
      obtain rfl := Option.some.inj h
      exact toInt_ofInt_of_fits hf
    · exact absurd h (by simp)
  · rintro rfl
    rw [if_pos (fits_toInt w), Int64.ofInt_toInt]

theorem ofInt?_eq_none_iff {n : Int} : ofInt? n = none ↔ ¬ Fits n := by
  unfold ofInt?
  split <;> simp_all

@[simp] theorem ofInt?_toInt (w : Word) : ofInt? w.toInt = some w :=
  ofInt?_eq_some_iff.2 rfl

end Word

end Builtins
