-- A generator after any number of resumptions. Its stage is a function of their number, so
-- the resumption after `k` others hands out the value with the number `k`, and nothing is
-- lost or comes twice.
import Builtins.Generator
import Builtins.Proofs.Progression.Values

namespace Builtins

namespace Progression

/-- What the resumption after `k` others ends in. A body without any value raises at its
first resumption, every other end is a return. -/
def resumption (p : Progression) (k : Nat) : Generator.Resumption :=
  match p.values[k]? with
  | some x => .yielded x
  | none => if k = 0 then .raised else .returned

/-- Where a body stands after a number of resumptions. -/
def stageAfter (p : Progression) : Nat → Generator.Stage
  | 0 => .created
  | k + 1 =>
    match p.values[k]? with
    | some x => .suspended x
    | none => .exhausted

/-- A generator over a progression after a number of resumptions. -/
def after (p : Progression) (k : Nat) : Generator := ⟨p, p.stageAfter k⟩

@[simp] theorem value?_resumption (p : Progression) (k : Nat) :
    (p.resumption k).value? = p.values[k]? := by
  unfold resumption
  cases p.values[k]? with
  | some x => rfl
  | none => by_cases hk : k = 0 <;> simp [hk, Generator.Resumption.value?]

theorem resumption_eq_yielded_iff (p : Progression) (k : Nat) (x : Word) :
    p.resumption k = .yielded x ↔ p.values[k]? = some x := by
  unfold resumption
  cases p.values[k]? with
  | some y => simp
  | none => by_cases h0 : k = 0 <;> simp [h0]

/-- Only a body without any value raises, and only at its first resumption. -/
theorem resumption_eq_raised_iff (p : Progression) (k : Nat) :
    p.resumption k = .raised ↔ p.values = [] ∧ k = 0 := by
  unfold resumption
  cases hk : p.values[k]? with
  | some x =>
    have hne : p.values ≠ [] := by
      intro hnil
      simp [hnil] at hk
    simp [hne]
  | none =>
    have hlen : p.values.length ≤ k := List.getElem?_eq_none_iff.mp hk
    by_cases h0 : k = 0
    · subst h0
      simpa using hlen
    · simp [h0]

/-- A body returns when it is over, but for the raise that ends a body without any value. -/
theorem resumption_eq_returned_iff (p : Progression) (k : Nat) :
    p.resumption k = .returned ↔ p.values.length ≤ k ∧ 0 < k := by
  unfold resumption
  cases hk : p.values[k]? with
  | some x =>
    have hlt : k < p.values.length := (List.getElem?_eq_some_iff.mp hk).1
    simp
    omega
  | none =>
    have hlen : p.values.length ≤ k := List.getElem?_eq_none_iff.mp hk
    by_cases h0 : k = 0
    · simp [h0]
    · simp [h0, hlen, Nat.pos_of_ne_zero h0]

/-- A new generator has not been resumed. -/
theorem after_zero (p : Progression) : p.after 0 = { progression := p } := rfl

theorem after_succ_of_some {p : Progression} {k : Nat} {x : Word}
    (hk : p.values[k]? = some x) : p.after (k + 1) = ⟨p, .suspended x⟩ := by
  simp [after, stageAfter, hk]

theorem after_succ_of_none {p : Progression} {k : Nat} (hk : p.values[k]? = none) :
    p.after (k + 1) = ⟨p, .exhausted⟩ := by
  simp [after, stageAfter, hk]

/-! ## Resumptions -/

/-- The resumption after `k` others ends in the way of that number, and counts. -/
theorem resume_after (p : Progression) (k : Nat) :
    (p.after k).resume = (p.resumption k, p.after (k + 1)) := by
  cases k with
  | zero =>
    have hfirst := getElem?_values_zero p
    cases hf : p.first? with
    | none =>
      rw [hf] at hfirst
      rw [after_succ_of_none hfirst]
      simp [after_zero, Generator.resume, Generator.proceed, resumption, hf, hfirst]
    | some x =>
      rw [hf] at hfirst
      rw [after_succ_of_some hfirst]
      simp [after_zero, Generator.resume, Generator.proceed, resumption, hf, hfirst]
  | succ k =>
    have hnext := getElem?_values_succ p k
    cases hk : p.values[k]? with
    | none =>
      rw [hk, Option.bind_none] at hnext
      rw [after_succ_of_none hk, after_succ_of_none hnext]
      simp [Generator.resume, resumption, hnext]
    | some last =>
      rw [hk, Option.bind_some] at hnext
      rw [after_succ_of_some hk]
      cases hx : p.next? last with
      | none =>
        rw [hx] at hnext
        rw [after_succ_of_none hnext]
        simp [Generator.resume, Generator.proceed, resumption, hx, hnext]
      | some x =>
        rw [hx] at hnext
        rw [after_succ_of_some hnext]
        simp [Generator.resume, Generator.proceed, resumption, hx, hnext]

/-- The values that are taken natively are the next ones in order, at one resumption each. If
they are too few, one more resumption finds that there are no others. -/
theorem take_after (p : Progression) (k n : Nat) :
    (p.after k).take n =
      ((p.values.drop k).take n, p.after (k + min n (p.values.length - k + 1))) := by
  induction n generalizing k with
  | zero => simp [Generator.take]
  | succ n ih =>
    unfold Generator.take
    rw [resume_after]
    cases hk : p.values[k]? with
    | some x =>
      obtain ⟨hlt, hx⟩ := List.getElem?_eq_some_iff.mp hk
      have hcount : k + 1 + min n (p.values.length - (k + 1) + 1) =
          k + min (n + 1) (p.values.length - k + 1) := by omega
      simp only [resumption, hk]
      rw [ih, hcount, List.drop_eq_getElem_cons hlt, hx, List.take_succ_cons]
    | none =>
      have hlen : p.values.length ≤ k := List.getElem?_eq_none_iff.mp hk
      have hcount : k + min (n + 1) (p.values.length - k + 1) = k + 1 := by omega
      rw [List.drop_eq_nil_of_le hlen, hcount]
      simp only [resumption, hk, List.take_nil]
      by_cases h0 : k = 0
      · rw [if_pos h0]
      · rw [if_neg h0]

/-- The run from the value after one with a number holds all later values. -/
theorem run_next?_eq_drop {p : Progression} {k : Nat} {last : Word}
    (hk : p.values[k]? = some last) :
    p.run p.span (p.next? last) = p.values.drop (k + 1) := by
  have hspan : 0 < p.span := by
    obtain ⟨hc, hle⟩ := add_distance_le_span hk
    have := distance_pos hc
    omega
  apply List.ext_getElem?
  intro j
  rw [List.getElem?_drop]
  induction j with
  | zero =>
    obtain ⟨n, hn⟩ : ∃ n, p.span = n + 1 := ⟨p.span - 1, by omega⟩
    rw [hn, getElem?_run_zero, Nat.add_zero, getElem?_values_succ, hk, Option.bind_some]
  | succ j ih =>
    rw [getElem?_run_succ, ih, ← Nat.add_assoc, getElem?_values_succ]
    split
    · rfl
    · -- The run ends at the span, and no value lies beyond it.
      rw [← getElem?_values_succ]
      cases hv : p.values[k + 1 + j + 1]? with
      | none => rfl
      | some x =>
        have hle := (add_distance_le_span hv).2
        omega

/-- What is still to come is what has not been handed out. -/
theorem remaining_after (p : Progression) (k : Nat) :
    (p.after k).remaining = p.values.drop k := by
  cases k with
  | zero => rfl
  | succ k =>
    cases hk : p.values[k]? with
    | none =>
      have hlen : p.values.length ≤ k := List.getElem?_eq_none_iff.mp hk
      rw [after_succ_of_none hk, List.drop_eq_nil_of_le (by omega)]
      rfl
    | some last =>
      rw [after_succ_of_some hk, ← run_next?_eq_drop hk]
      rfl

end Progression

end Builtins
