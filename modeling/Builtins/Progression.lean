-- Arithmetic progressions of words: a start, a step, and a stop that is never reached.
-- Only a value strictly short of the stop, in the direction of the step, belongs to one.
import Builtins.Word

namespace Builtins

/-- The words from `start` on, `step` apart, that lie before `stop`. -/
structure Progression where
  start : Word
  stop : Word
  step : Word
deriving DecidableEq

namespace Progression

/-- Whether `x` lies before the stop in the direction of the step. A zero step has none. -/
def continuesFrom (p : Progression) (x : Word) : Bool :=
  (x < p.stop && 0 < p.step) || (p.stop < x && p.step < 0)

/-- Whether the progression has any value at all. -/
def iterates (p : Progression) : Bool := p.continuesFrom p.start

def first? (p : Progression) : Option Word := if p.iterates then some p.start else none

/-- The value after `x`. A step beyond the words also ends a progression: the value would
lie past the stop. -/
def next? (p : Progression) (x : Word) : Option Word :=
  (Word.add? x p.step).filter p.continuesFrom

/-- At most `n` values, from a given one on. -/
def run (p : Progression) : Nat → Option Word → List Word
  | n + 1, some x => x :: p.run n (p.next? x)
  | _, _ => []

/-- The first `n` values, or all of them if they are fewer. -/
def take (p : Progression) (n : Nat) : List Word := p.run n p.first?

/-- How far the stop is from the start. No progression has more values than that. -/
def span (p : Progression) : Nat := (p.stop.toInt - p.start.toInt).natAbs

def values (p : Progression) : List Word := p.take p.span

end Progression

end Builtins
