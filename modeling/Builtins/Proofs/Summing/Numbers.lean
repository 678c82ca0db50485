-- Sums of numbers. They are worked out item by item, and each step has to fit into a word: a sum that
-- leaves the words on its way is a fault there, even if it would have come back.
import Mathlib.Algebra.Ring.Int.Defs
import Builtins.Proofs.Iteration.Consumers
import Builtins.Proofs.Loop.Taken

namespace Builtins

open Builtins.Action

/-! ## Numbers -/

/-- The whole number that a value counts as: an integer as itself, a truth value as one or zero. -/
def Value.whole? : Value → Option Int
  | .int n => some n.toInt
  | .bool b => some (if b then 1 else 0)
  | _ => none

theorem Value.exists_toWord?_of_whole? {v : Value} {n : Int} (h : v.whole? = some n) :
    ∃ m, v.toWord? = some m ∧ m.toInt = n := by
  cases v with
  | int m =>
    cases h
    exact ⟨m, rfl, rfl⟩
  | bool b =>
    cases h
    refine ⟨Word.ofBool b, rfl, ?_⟩
    cases b <;> rfl
  | _ => cases h

/-- The sum of two numbers is that of the whole numbers, if it is a word. -/
theorem Heap.add_of_whole? {a b : Value} {m n : Int} (ha : a.whole? = some m)
    (hb : b.whole? = some n) (h : Heap) :
    h.add a b = ((Word.ofInt? (m + n)).elim (.error (.overflow "+")) fun sum => .ok (.int sum), h) := by
  obtain ⟨x, hx, rfl⟩ := Value.exists_toWord?_of_whole? ha
  obtain ⟨y, hy, rfl⟩ := Value.exists_toWord?_of_whole? hb
  have hwords : h.add a b = (Value.addWords a b, h) := by
    cases a <;> first | cases ha | rfl
  rw [hwords]
  unfold Value.addWords
  rw [hx, hy]
  dsimp only
  unfold Word.add?
  cases Word.ofInt? (x.toInt + y.toInt) <;> rfl

/-! ## Partial sums -/

/-- What the first summand and the first `n` of more numbers come to. -/
def partialSum (first : Int) (numbers : List Int) (n : Nat) : Int := first + (numbers.take n).sum

/-- Whether what comes out is a word after each of the first `n` numbers. -/
def SumsFit (first : Int) (numbers : List Int) (n : Nat) : Prop :=
  ∀ i < n, Word.Fits (partialSum first numbers (i + 1))

/-- The value that a sum has come to after `n` numbers: at first the summand that it began with, and
then an integer. -/
def sumAfter (start : Value) (first : Int) (numbers : List Int) : Nat → Value
  | 0 => start
  | n + 1 => .int (Int64.ofInt (partialSum first numbers (n + 1)))

variable {first : Int} {numbers : List Int} {n : Nat}

theorem partialSum_zero (first : Int) (numbers : List Int) : partialSum first numbers 0 = first := by
  simp [partialSum]

theorem partialSum_succ (first : Int) (hn : n < numbers.length) :
    partialSum first numbers (n + 1) = partialSum first numbers n + numbers[n] := by
  unfold partialSum
  rw [List.take_succ_eq_append_getElem hn, List.sum_append_int, List.sum_singleton, Int.add_assoc]

/-- Where not all partial sums are words, there is a first one that is not. -/
theorem exists_first_misfit (hnot : ¬ SumsFit first numbers n) :
    ∃ k < n, SumsFit first numbers k ∧ ¬ Word.Fits (partialSum first numbers (k + 1)) := by
  induction n with
  | zero => exact absurd (fun i hi => absurd hi (Nat.not_lt_zero i)) hnot
  | succ n ih =>
    by_cases hfits : SumsFit first numbers n
    · refine ⟨n, Nat.lt_succ_self n, hfits, fun hlast => hnot fun i hi => ?_⟩
      rcases Nat.lt_succ_iff_lt_or_eq.mp hi with hlt | rfl
      · exact hfits i hlt
      · exact hlast
    · obtain ⟨k, hk, hmisfit⟩ := ih hfits
      exact ⟨k, by omega, hmisfit⟩

theorem whole?_sumAfter {start : Value} (hstart : start.whole? = some first)
    (hfits : SumsFit first numbers n) :
    (sumAfter start first numbers n).whole? = some (partialSum first numbers n) := by
  cases n with
  | zero =>
    rw [partialSum_zero]
    exact hstart
  | succ n => exact congrArg some (Word.toInt_ofInt_of_fits (hfits n (Nat.lt_succ_self n)))

/-! ## The loop -/

section Loop

variable {start : Value} {source : Source} {items : List Value} {w : World}

theorem length_of_wholes (hitems : items.map Value.whole? = numbers.map some) :
    items.length = numbers.length := by
  simpa using congrArg List.length hitems

theorem whole?_getElem (hitems : items.map Value.whole? = numbers.map some) (hlt : n < items.length)
    (hn : n < numbers.length) : items[n].whole? = some numbers[n] := by
  have hsame := congrArg (·[n]?) hitems
  simpa [hlt, hn] using hsame

variable (hstart : start.whole? = some first) (hitems : items.map Value.whole? = numbers.map some)
include hstart hitems

/-- To add a number to what the numbers before it have come to. -/
theorem ends_addItem_sumAfter (hlt : n < items.length) (hfits : SumsFit first numbers n)
    (w : World) :
    (Builtin.addItem (sumAfter start first numbers n) items[n]).Ends w
      (if Word.Fits (partialSum first numbers (n + 1)) then
        .ok (sumAfter start first numbers (n + 1)) else .error (.overflow "+")) w := by
  have hn : n < numbers.length := by rwa [← length_of_wholes hitems]
  have hsum := Heap.add_of_whole? (whole?_sumAfter hstart hfits) (whole?_getElem hitems hlt hn) w.heap
  rw [← partialSum_succ first hn] at hsum
  apply ends_attempt_iff.mpr
  rw [hsum]
  unfold Word.ofInt? sumAfter
  split <;> exact ⟨rfl, rfl⟩

/-- As long as the partial sums are words, a loop that adds goes on. -/
theorem ends_adding_after (hahead : w.heap.ahead (w.heap.cursorOf source) = items)
    (hn : n ≤ items.length) (hfits : SumsFit first numbers n) {fuel : Nat}
    {answer : Except Fault Value} {w' : World} :
    Ends (Run.loop Builtin.addItem source (fuel + n) start) w answer w' ↔
      Ends (Run.loop Builtin.addItem (w.heap.taken source n).1 fuel (sumAfter start first numbers n))
        ⟨(w.heap.taken source n).2, w.output⟩ answer w' := by
  apply ends_loop_after (sumAfter start first numbers) hahead hn
  intro i hi w₁
  have hadds := ends_addItem_sumAfter hstart hitems (show i < items.length by omega)
    (fun j hj => hfits j (by omega)) w₁
  rwa [if_pos (hfits i hi)] at hadds

/-- If all partial sums are words, the loop comes to the last one. -/
theorem ends_adding_of_fits (hahead : w.heap.ahead (w.heap.cursorOf source) = items)
    (hfits : SumsFit first numbers numbers.length) :
    Ends (Run.loop Builtin.addItem source (1 + numbers.length) start) w
      (.ok (sumAfter start first numbers numbers.length))
      ⟨(w.heap.taken source (numbers.length + 1)).2, w.output⟩ := by
  have hlength := length_of_wholes hitems
  have hover := Heap.takeFrom_taken_length hahead
  rw [hlength] at hover
  apply (ends_adding_after hstart hitems hahead (Nat.le_of_eq hlength.symm) hfits).mpr
  apply ends_loop_succ_iff.mpr
  simp [hover]

/-- At the first partial sum that is no word, the loop ends with a fault. -/
theorem ends_adding_of_misfit (hahead : w.heap.ahead (w.heap.cursorOf source) = items)
    (hlt : n < items.length) (hfits : SumsFit first numbers n)
    (hmisfit : ¬ Word.Fits (partialSum first numbers (n + 1))) :
    Ends (Run.loop Builtin.addItem source (1 + n) start) w (.error (.overflow "+"))
      ⟨(w.heap.taken source (n + 1)).2, w.output⟩ := by
  have hadds := ends_addItem_sumAfter hstart hitems hlt hfits
    ⟨(w.heap.taken source (n + 1)).2, w.output⟩
  rw [if_neg hmisfit] at hadds
  apply (ends_adding_after hstart hitems hahead (Nat.le_of_lt hlt) hfits).mpr
  apply ends_loop_succ_iff.mpr
  simp only [Heap.takeFrom_taken hahead hlt]
  exact ends_bind_iff.mpr (Or.inl ⟨_, hadds, rfl⟩)

end Loop

/-- A call of `sum` is its loop. -/
theorem Host.ends_sum_of_loop (host : Host) {args : List Value} {v start : Value} {source : Source}
    {w w' : World} {answer : Except Fault Value} {fuel : Nat}
    (hargs : Builtin.sumArguments args = .ok (v, start)) (hof : Source.of v = .ok source)
    (hloop : Action.Ends (Run.loop Builtin.addItem source fuel start) w answer w') :
    host.Ends w (.builtin .sum) args answer w' := by
  apply Host.ends_builtin_iff.mpr
  refine ⟨fuel, (ends_ofExcept_bind_of_ok hargs).mpr ?_⟩
  exact (ends_ofExcept_bind_of_ok hof).mpr hloop

/-! ## The law of sums of numbers -/

/-- A sum of numbers has a result exactly if all its partial sums are words. That is the exact total
as an integer, or the first summand itself where there is nothing to add. Else the sum fails at the
first partial sum that is no word, whatever comes after it. Nothing is done to the world but to take
items: all of them and the end, or those up to the one at which the sum fails, so that the others
are still ahead. -/
theorem a_sum_of_numbers_is_exact_or_overflows (host : Host) {args : List Value} {v start : Value}
    {source : Source} {w : World} {first : Int} {numbers : List Int}
    (hargs : Builtin.sumArguments args = .ok (v, start)) (hof : Source.of v = .ok source)
    (hstart : start.whole? = some first)
    (hitems : (w.heap.ahead (w.heap.cursorOf source)).map Value.whole? = numbers.map some) :
    ((∃ result w', host.Ends w (.builtin .sum) args (.ok result) w') ↔
        SumsFit first numbers numbers.length) ∧
      (SumsFit first numbers numbers.length →
        ∃ result, host.Ends w (.builtin .sum) args (.ok result)
            ⟨(w.heap.taken source (numbers.length + 1)).2, w.output⟩ ∧
          (numbers = [] → result = start) ∧
          (numbers ≠ [] → ∃ total, result = .int total ∧ total.toInt = first + numbers.sum)) ∧
      (¬ SumsFit first numbers numbers.length →
        ∃ k < numbers.length, SumsFit first numbers k ∧
          ¬ Word.Fits (partialSum first numbers (k + 1)) ∧
          ∃ source' h', w.heap.taken source (k + 1) = (source', h') ∧
            host.Ends w (.builtin .sum) args (.error (.overflow "+")) ⟨h', w.output⟩ ∧
            h'.ahead (h'.cursorOf source') =
              (w.heap.ahead (w.heap.cursorOf source)).drop (k + 1)) := by
  have hlength := length_of_wholes hitems
  have hfit : SumsFit first numbers numbers.length →
      host.Ends w (.builtin .sum) args (.ok (sumAfter start first numbers numbers.length))
        ⟨(w.heap.taken source (numbers.length + 1)).2, w.output⟩ := fun hfits =>
    host.ends_sum_of_loop hargs hof (ends_adding_of_fits hstart hitems rfl hfits)
  have hmisfit : ∀ k < numbers.length, SumsFit first numbers k →
      ¬ Word.Fits (partialSum first numbers (k + 1)) →
      host.Ends w (.builtin .sum) args (.error (.overflow "+"))
        ⟨(w.heap.taken source (k + 1)).2, w.output⟩ := fun k hk hfits hnot =>
    host.ends_sum_of_loop hargs hof
      (ends_adding_of_misfit hstart hitems rfl (by omega) hfits hnot)
  refine ⟨⟨?_, fun hfits => ⟨_, _, hfit hfits⟩⟩, fun hfits => ⟨_, hfit hfits, ?_, ?_⟩, ?_⟩
  · rintro ⟨result, w', hends⟩
    by_contra hnot
    obtain ⟨k, hk, hfits, hover⟩ := exists_first_misfit hnot
    cases (hends.unique (hmisfit k hk hfits hover)).1
  · rintro rfl
    rfl
  · intro hne
    obtain ⟨n, hn⟩ := Nat.exists_eq_succ_of_ne_zero (mt List.length_eq_zero_iff.mp hne)
    rw [hn] at hfits ⊢
    refine ⟨_, rfl, ?_⟩
    rw [Word.toInt_ofInt_of_fits (hfits n (Nat.lt_succ_self n))]
    unfold partialSum
    rw [← Nat.succ_eq_add_one, ← hn, List.take_length]
  · intro hnot
    obtain ⟨k, hk, hfits, hover⟩ := exists_first_misfit hnot
    have hle : k + 1 ≤ (w.heap.ahead (w.heap.cursorOf source)).length := by omega
    exact ⟨k, hk, hfits, hover, _, _, rfl, hmisfit k hk hfits hover, Heap.ahead_taken rfl hle⟩

/-- The sum of an iterator leaves the words at its second item, and the third one, which would have
led back, stays ahead of the iterator. -/
theorem a_sum_overflows_on_its_way :
    let items : List Value := [.int 9223372036854775807, .bool true, .int (-5)]
    let w : World := { heap := { cursors := #[.tuple items] } }
    let args : List Value := [.iterator ⟨.tuple, ⟨0⟩⟩, .bool false]
    Word.Fits (0 + [9223372036854775807, 1, -5].sum) ∧
      ({} : Host).Ends w (.builtin .sum) args (.error (.overflow "+"))
        { heap := { cursors := #[.tuple [.int (-5)]] } } := by
  intro items w args
  have hargs : Builtin.sumArguments args = .ok (.iterator ⟨.tuple, ⟨0⟩⟩, .bool false) := rfl
  have hof : Source.of (.iterator ⟨.tuple, ⟨0⟩⟩) = .ok (.shared ⟨0⟩) := rfl
  have hstart : (Value.bool false).whole? = some 0 := rfl
  have hitems : (w.heap.ahead (w.heap.cursorOf (.shared ⟨0⟩))).map Value.whole? =
      [9223372036854775807, 1, -5].map some := rfl
  obtain ⟨-, -, hover⟩ := a_sum_of_numbers_is_exact_or_overflows {} hargs hof hstart hitems
  have hnot : ¬ SumsFit 0 [9223372036854775807, 1, -5] 3 := fun hfits =>
    absurd (hfits 1 (by decide)) (by decide)
  obtain ⟨k, hk, hfits, hmisfit, source', h', htaken, hends, -⟩ := hover hnot
  refine ⟨by decide, ?_⟩
  -- The second partial sum is the first one that is no word.
  obtain rfl : k = 1 := by
    by_contra hne
    have hcases : k = 0 ∨ 1 < k := by omega
    rcases hcases with rfl | hlater
    · exact hmisfit (by decide)
    · exact absurd (hfits 1 hlater) (by decide)
  cases htaken
  exact hends

end Builtins
