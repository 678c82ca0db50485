-- How many values a progression has, and which. On whole numbers that is a quotient rounded up: the
-- way from the start to the stop, by the step. A sum that does not fit into a word lies past the stop,
-- so it ends a progression exactly where the stop would have.
import Mathlib.Data.Rat.Floor
import Builtins.Proofs.Progression.Values

namespace Builtins

namespace Progression

/-! ## The whole numbers that the values would be -/

/-- The way from the start to the stop, measured in steps. It is zero for a step of zero. -/
def quotient (p : Progression) : ℚ := (p.stop.toInt - p.start.toInt : ℚ) / p.step.toInt

/-- The quotient rounded up, where the step is not zero and leads towards the stop. -/
def count (p : Progression) : Nat :=
  if p.step.toInt ≠ 0 ∧ 0 < p.quotient then ⌈p.quotient⌉.toNat else 0

/-- The whole number that lies `k` steps from the start. -/
def term (p : Progression) (k : Nat) : Int := p.start.toInt + k * p.step.toInt

/-- Whether a whole number lies before the stop in the direction of the step. -/
def Before (p : Progression) (n : Int) : Prop :=
  (n < p.stop.toInt ∧ 0 < p.step.toInt) ∨ (p.stop.toInt < n ∧ p.step.toInt < 0)

/-- Whether a whole number is the stop, or lies beyond it in the direction of the step. -/
def AtOrPast (p : Progression) (n : Int) : Prop :=
  (p.stop.toInt ≤ n ∧ 0 < p.step.toInt) ∨ (n ≤ p.stop.toInt ∧ p.step.toInt < 0)

theorem term_zero (p : Progression) : p.term 0 = p.start.toInt := by
  unfold term
  omega

theorem term_succ (p : Progression) (k : Nat) : p.term (k + 1) = p.term k + p.step.toInt := by
  unfold term
  push_cast
  ring

theorem lt_count_iff_lt_quotient (p : Progression) (k : Nat) :
    k < p.count ↔ p.step.toInt ≠ 0 ∧ (k : ℚ) < p.quotient := by
  unfold count
  split
  · next hpos =>
    rw [Int.lt_toNat, Int.lt_ceil]
    simp [hpos.1]
  · next hnot =>
    have hk : (0 : ℚ) ≤ k := Nat.cast_nonneg k
    constructor
    · intro h
      omega
    · rintro ⟨hne, hlt⟩
      exact absurd ⟨hne, lt_of_le_of_lt hk hlt⟩ hnot

/-- As many steps as the count are needed to come to the stop. -/
theorem lt_count_iff (p : Progression) (k : Nat) : k < p.count ↔ p.Before (p.term k) := by
  rw [lt_count_iff_lt_quotient]
  unfold quotient Before term
  rcases lt_trichotomy p.step.toInt 0 with hneg | hzero | hpos
  · have hstep : (p.step.toInt : ℚ) < 0 := by exact_mod_cast hneg
    rw [lt_div_iff_of_neg hstep]
    norm_cast
    omega
  · simp [hzero]
  · have hstep : (0 : ℚ) < p.step.toInt := by exact_mod_cast hpos
    rw [lt_div_iff₀ hstep]
    norm_cast
    omega

theorem atOrPast_of_count {p : Progression} (hcount : 0 < p.count) :
    p.AtOrPast (p.term p.count) := by
  have hfirst := (p.lt_count_iff 0).mp hcount
  have hlast := mt (p.lt_count_iff p.count).mpr (Nat.lt_irrefl _)
  unfold Before at hfirst hlast
  unfold AtOrPast
  omega

/-! ## The values -/

theorem continuesFrom_iff_before (p : Progression) (x : Word) :
    p.continuesFrom x = true ↔ p.Before x.toInt := p.continuesFrom_iff x

theorem iterates_iff (p : Progression) : p.iterates = true ↔ 0 < p.count := by
  unfold iterates
  rw [continuesFrom_iff_before, lt_count_iff, term_zero]

/-- What lies before the stop, any number of steps from the start, is a word. -/
theorem fits_term {p : Progression} {k : Nat} (hk : k < p.count) : Word.Fits (p.term k) := by
  have hbefore := (p.lt_count_iff k).mp hk
  have hstart := Word.fits_toInt p.start
  have hstop := Word.fits_toInt p.stop
  unfold Before at hbefore
  unfold Word.Fits at *
  rcases hbefore with ⟨hlt, hpos⟩ | ⟨hlt, hneg⟩
  · have hway : 0 ≤ (k : Int) * p.step.toInt := by positivity
    unfold term at *
    omega
  · have hway : (k : Int) * p.step.toInt ≤ 0 :=
      mul_nonpos_of_nonneg_of_nonpos (by positivity) hneg.le
    unfold term at *
    omega

/-- The values are the whole numbers before the stop, one step apart, each exactly. -/
theorem getElem?_values_iff (p : Progression) (k : Nat) (x : Word) :
    p.values[k]? = some x ↔ x.toInt = p.term k ∧ k < p.count := by
  induction k generalizing x with
  | zero =>
    rw [getElem?_values_zero, first?_eq_some_iff, iterates_iff, term_zero]
    constructor
    · rintro ⟨rfl, hcount⟩
      exact ⟨rfl, hcount⟩
    · rintro ⟨hx, hcount⟩
      exact ⟨Int64.toInt_inj.mp hx, hcount⟩
  | succ k ih =>
    rw [getElem?_values_succ, Option.bind_eq_some_iff]
    constructor
    · rintro ⟨y, hy, hnext⟩
      obtain ⟨hterm, -⟩ := (ih y).mp hy
      obtain ⟨hx, hcontinues⟩ := (p.next?_eq_some_iff y x).mp hnext
      rw [hterm, ← term_succ] at hx
      rw [continuesFrom_iff_before, hx, ← lt_count_iff] at hcontinues
      exact ⟨hx, hcontinues⟩
    · rintro ⟨hx, hcount⟩
      have hy := Word.toInt_ofInt_of_fits (fits_term (show k < p.count by omega))
      refine ⟨_, (ih _).mpr ⟨hy, by omega⟩, (p.next?_eq_some_iff _ x).mpr ⟨?_, ?_⟩⟩
      · rw [hy, hx, term_succ]
      · rw [continuesFrom_iff_before, hx, ← lt_count_iff]
        exact hcount

theorem exists_getElem?_values {p : Progression} {k : Nat} (hk : k < p.count) :
    ∃ x, p.values[k]? = some x ∧ x.toInt = p.term k := by
  have hx := Word.toInt_ofInt_of_fits (fits_term hk)
  exact ⟨_, (p.getElem?_values_iff k _).mpr ⟨hx, hk⟩, hx⟩

theorem length_values (p : Progression) : p.values.length = p.count := by
  apply eq_of_forall_lt_iff
  intro k
  constructor
  · intro hk
    exact ((p.getElem?_values_iff k _).mp (List.getElem?_eq_getElem hk)).2
  · intro hk
    obtain ⟨x, hx, -⟩ := exists_getElem?_values hk
    exact (List.getElem?_eq_some_iff.mp hx).1

/-- However many values are asked for, they are the first ones of all. -/
theorem take_eq (p : Progression) (n : Nat) : p.take n = p.values.take n := by
  apply List.ext_getElem?
  intro k
  rw [List.getElem?_take]
  induction k with
  | zero =>
    cases n with
    | zero => rfl
    | succ n =>
      rw [getElem?_values_zero, if_pos (Nat.succ_pos n)]
      exact p.getElem?_run_zero n p.first?
  | succ k ih =>
    have hnext : (p.take n)[k + 1]? = if k + 1 < n then (p.take n)[k]?.bind p.next? else none :=
      p.getElem?_run_succ n p.first? k
    rw [hnext, ih]
    by_cases hlt : k + 1 < n
    · rw [if_pos hlt, if_pos hlt, if_pos (by omega), getElem?_values_succ]
    · rw [if_neg hlt, if_neg hlt]

/-- A value has no next one exactly if the whole number that comes next is the one that the count
leads to, whether that is a word or not. -/
theorem next?_eq_none_iff {p : Progression} {x : Word} (hx : x ∈ p.values) :
    p.next? x = none ↔ x.toInt + p.step.toInt = p.term p.count := by
  obtain ⟨k, hk⟩ := List.getElem?_of_mem hx
  obtain ⟨hterm, hlt⟩ := (p.getElem?_values_iff k x).mp hk
  constructor
  · intro hnone
    have hend : p.values[k + 1]? = none := by
      rw [getElem?_values_succ, hk, Option.bind_some, hnone]
    rw [List.getElem?_eq_none_iff, length_values] at hend
    rw [hterm, ← term_succ, show k + 1 = p.count by omega]
  · intro hlast
    apply Option.eq_none_iff_forall_ne_some.mpr
    intro y hy
    obtain ⟨hnext, hcontinues⟩ := (p.next?_eq_some_iff x y).mp hy
    rw [continuesFrom_iff_before, hnext, hlast, ← lt_count_iff] at hcontinues
    exact Nat.lt_irrefl _ hcontinues

/-! ## The law of progressions -/

/-- A progression has as many values as the quotient says, the `k`-th exactly `k` steps from the
start, and each before the stop. However many values are asked for, there are no others: the last
value is the one from which the next whole number would be the stop or past it. So that there is no
word for the next value never ends a progression too early. There is a value exactly if the start
lies before the stop. -/
theorem the_values_go_up_to_the_stop (p : Progression) :
    p.values.length = p.count ∧
      (∀ k < p.count, ∃ x, p.values[k]? = some x ∧ x.toInt = p.term k) ∧
      (∀ x ∈ p.values, p.continuesFrom x = true) ∧
      (∀ n, p.take n = p.values.take n) ∧
      (∀ x ∈ p.values, p.next? x = none ↔ x.toInt + p.step.toInt = p.term p.count) ∧
      (0 < p.count → p.AtOrPast (p.term p.count)) ∧
      (p.iterates = true ↔ 0 < p.count) := by
  refine ⟨p.length_values, fun k hk => exists_getElem?_values hk, ?_, p.take_eq,
    fun x hx => next?_eq_none_iff hx, atOrPast_of_count, p.iterates_iff⟩
  intro x hx
  obtain ⟨k, hk⟩ := List.getElem?_of_mem hx
  exact (add_distance_le_span hk).1

/-- The third value would lie past the stop, and is no word. -/
example :
    let p : Progression := ⟨9223372036854775800, 9223372036854775807, 5⟩
    p.values = [9223372036854775800, 9223372036854775805] ∧
      Word.add? 9223372036854775805 p.step = none := by decide

end Progression

end Builtins
