-- Which arguments describe a progression, and what is wrong with those that do not: first
-- their number, then the first from the left that counts as no integer, under its own name.
import Builtins.Range

namespace Builtins

namespace Progression

/-- The names of arguments, by their number. A single one is the stop. -/
def argumentNames : Nat → List String
  | 1 => ["end"]
  | 2 => ["start", "end"]
  | _ => ["start", "end", "step"]

/-- What is wrong with arguments, as a fault for each name of a function. -/
def rejection? (args : List Value) : Option (String → Fault) :=
  if args.length < 1 ∨ 3 < args.length then
    some fun function => .arityRange function 1 3 args.length
  else
    (args.zip (argumentNames args.length)).findSome? fun (v, name) =>
      match v.toWord? with
      | some _ => none
      | none => some fun function => .argumentType function name "int" v.typeName

/-- The progression that one to three words describe. -/
def ofWords : List Word → Progression
  | [] => ⟨0, 0, 1⟩
  | [stop] => ⟨0, stop, 1⟩
  | [start, stop] => ⟨start, stop, 1⟩
  | start :: stop :: step :: _ => ⟨start, stop, step⟩

/-! ## One, two and three arguments -/

theorem ofArgs_one (function : String) (stop : Value) :
    ofArgs function [stop] = (do return ⟨0, ← stop.wordArgument function "end", 1⟩) := rfl

theorem ofArgs_two (function : String) (start stop : Value) :
    ofArgs function [start, stop] =
      (do return ⟨← start.wordArgument function "start", ← stop.wordArgument function "end", 1⟩) :=
  rfl

theorem ofArgs_three (function : String) (start stop step : Value) :
    ofArgs function [start, stop, step] =
      (do return ⟨← start.wordArgument function "start", ← stop.wordArgument function "end",
        ← step.wordArgument function "step"⟩) := rfl

theorem ofArgs_of_length {function : String} {args : List Value}
    (h : args.length < 1 ∨ 3 < args.length) :
    ofArgs function args = .error (.arityRange function 1 3 args.length) := by
  have hcheck : Fault.checkArityRange function 1 3 args.length =
      .error (.arityRange function 1 3 args.length) := by
    unfold Fault.checkArityRange
    rw [if_neg (by omega)]
  unfold ofArgs
  rw [hcheck]
  rfl

/-- Arguments are accepted exactly if nothing is wrong with them, under either name, and then
they count as words that describe the progression. -/
theorem ofArgs_eq (function : String) (args : List Value) :
    match rejection? args with
    | some fault => ofArgs function args = .error (fault function)
    | none => ∃ words, args.mapM Value.toWord? = some words ∧
        ofArgs function args = .ok (ofWords words) := by
  by_cases hlen : args.length < 1 ∨ 3 < args.length
  · simp only [rejection?, if_pos hlen]
    exact ofArgs_of_length hlen
  · simp only [rejection?, if_neg hlen]
    match args with
    | [] => simp at hlen
    | [stop] =>
      rw [ofArgs_one]
      cases hstop : stop.toWord? <;>
        simp [argumentNames, Value.wordArgument, hstop, bind, Except.bind, pure, Except.pure,
          ofWords]
    | [start, stop] =>
      rw [ofArgs_two]
      cases hstart : start.toWord? <;> cases hstop : stop.toWord? <;>
        simp [argumentNames, Value.wordArgument, hstart, hstop, bind, Except.bind, pure,
          Except.pure, ofWords]
    | [start, stop, step] =>
      rw [ofArgs_three]
      cases hstart : start.toWord? <;> cases hstop : stop.toWord? <;>
        cases hstep : step.toWord? <;>
        simp [argumentNames, Value.wordArgument, hstart, hstop, hstep, bind, Except.bind, pure,
          Except.pure, ofWords]
    | _ :: _ :: _ :: _ :: _ => simp at hlen

end Progression

end Builtins
