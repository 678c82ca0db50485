-- The values of a progression one after the other: first the start, then from each value the
-- next, until there is none. The stop lies within the span, so the list of all values is
-- never cut short.
import Builtins.Progression

namespace Builtins

namespace Progression

/-! ## How far a value is from the stop -/

def distance (p : Progression) (x : Word) : Nat := (p.stop.toInt - x.toInt).natAbs

/-- A value that lies before the stop is short of it in the direction of the step. -/
theorem continuesFrom_iff (p : Progression) (x : Word) :
    p.continuesFrom x = true ↔
      (x.toInt < p.stop.toInt ∧ 0 < p.step.toInt) ∨
        (p.stop.toInt < x.toInt ∧ p.step.toInt < 0) := by
  unfold continuesFrom
  simp [Int64.lt_iff_toInt_lt]

theorem distance_pos {p : Progression} {x : Word} (h : p.continuesFrom x = true) :
    0 < p.distance x := by
  rw [continuesFrom_iff] at h
  unfold distance
  omega

/-- The next value lies one step further, and before the stop as well. -/
theorem next?_eq_some_iff (p : Progression) (x y : Word) :
    p.next? x = some y ↔ y.toInt = x.toInt + p.step.toInt ∧ p.continuesFrom y = true := by
  unfold next? Word.add?
  rw [Option.filter_eq_some_iff, Word.ofInt?_eq_some_iff]

theorem distance_lt_of_next? {p : Progression} {x y : Word} (h : p.next? x = some y) :
    p.distance y < p.distance x := by
  obtain ⟨hy, hc⟩ := (next?_eq_some_iff p x y).mp h
  rw [continuesFrom_iff] at hc
  unfold distance
  omega

theorem first?_eq_some_iff (p : Progression) (x : Word) :
    p.first? = some x ↔ x = p.start ∧ p.iterates = true := by
  unfold first?
  split
  · simp [*, eq_comm]
  · simp [*]

/-! ## One value after the other -/

theorem getElem?_run_zero (p : Progression) (n : Nat) (first : Option Word) :
    (p.run (n + 1) first)[0]? = first := by
  cases first <;> simp [run]

/-- Within its bound, a run goes on from each value to the next. -/
theorem getElem?_run_succ (p : Progression) (n : Nat) (first : Option Word) (k : Nat) :
    (p.run n first)[k + 1]? =
      if k + 1 < n then (p.run n first)[k]?.bind p.next? else none := by
  induction n generalizing first k with
  | zero => simp [run]
  | succ n ih =>
    cases first with
    | none => simp [run]
    | some x =>
      rw [run, List.getElem?_cons_succ]
      cases k with
      | zero => cases n <;> cases hx : p.next? x <;> simp [run, hx]
      | succ k => rw [ih, List.getElem?_cons_succ]; simp

/-- A value is as many steps nearer to the stop, at the least, as there are values before
it. -/
theorem add_distance_le_span {p : Progression} {k : Nat} {x : Word}
    (h : p.values[k]? = some x) :
    p.continuesFrom x = true ∧ k + p.distance x ≤ p.span := by
  unfold values take at h
  induction k generalizing x with
  | zero =>
    have hx : p.first? = some x := by
      cases hs : p.span with
      | zero => simp [hs, run] at h
      | succ n => rwa [hs, getElem?_run_zero] at h
    obtain ⟨rfl, hi⟩ := (first?_eq_some_iff p x).mp hx
    exact ⟨hi, by unfold distance span; omega⟩
  | succ k ih =>
    rw [getElem?_run_succ] at h
    split at h
    · obtain ⟨y, hy, hn⟩ := Option.bind_eq_some_iff.mp h
      have hle := (ih hy).2
      have hlt := distance_lt_of_next? hn
      exact ⟨((next?_eq_some_iff p y x).mp hn).2, by omega⟩
    · simp at h

/-- The list of values begins with the start, if there is any value. -/
theorem getElem?_values_zero (p : Progression) : p.values[0]? = p.first? := by
  unfold values take
  cases hf : p.first? with
  | none => simp [run]
  | some x =>
    obtain ⟨rfl, hi⟩ := (first?_eq_some_iff p x).mp hf
    have hpos : 0 < p.span := distance_pos hi
    obtain ⟨n, hn⟩ : ∃ n, p.span = n + 1 := ⟨p.span - 1, by omega⟩
    rw [hn, getElem?_run_zero]

/-- The list of values goes on from each value to the next. -/
theorem getElem?_values_succ (p : Progression) (k : Nat) :
    p.values[k + 1]? = p.values[k]?.bind p.next? := by
  have hrun := getElem?_run_succ p p.span p.first? k
  change p.values[k + 1]? = if k + 1 < p.span then p.values[k]?.bind p.next? else none at hrun
  rw [hrun]
  split
  · rfl
  · -- Past the span there is no next value: it would be nearer to the stop than the stop.
    cases hk : p.values[k]? with
    | none => rfl
    | some x =>
      have hle := (add_distance_le_span hk).2
      cases hn : p.next? x with
      | none => simp [hn]
      | some y =>
        have hlt := distance_lt_of_next? hn
        have hpos := distance_pos ((next?_eq_some_iff p x y).mp hn).2
        omega

theorem values_eq_nil_iff (p : Progression) : p.values = [] ↔ p.iterates = false := by
  rw [← List.head?_eq_none_iff, List.head?_eq_getElem?, getElem?_values_zero]
  unfold first?
  cases p.iterates <;> simp

end Progression

end Builtins
