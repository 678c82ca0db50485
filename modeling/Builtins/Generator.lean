-- Generators: a progression handed out one value at a time, by a body that is resumed.
-- A body with no value at all raises once, and a body that is over only returns.
import Builtins.Progression

namespace Builtins

/-- Where the body of a generator stands between two resumptions. -/
inductive Generator.Stage where
  | created
  /-- Waiting after it has handed out `last`. -/
  | suspended (last : Word)
  | exhausted
deriving DecidableEq

/-- A progression that is handed out, and how far that has got. -/
structure Generator where
  progression : Progression
  stage : Generator.Stage := .created
deriving DecidableEq

namespace Generator

inductive Resumption where
  | yielded (value : Word)
  | returned
  /-- The body raised the signal that ends an iteration. -/
  | raised
deriving DecidableEq

def Resumption.value? : Resumption → Option Word
  | .yielded value => some value
  | .returned | .raised => none

/-- Suspends the body after `next`, or ends it with `last` when there is no value. -/
def proceed (g : Generator) (next : Option Word) (last : Resumption) : Resumption × Generator :=
  match next with
  | some value => (.yielded value, { g with stage := .suspended value })
  | none => (last, { g with stage := .exhausted })

/-- Runs the body up to its next value. -/
def resume (g : Generator) : Resumption × Generator :=
  match g.stage with
  | .created => g.proceed g.progression.first? .raised
  | .suspended last => g.proceed (g.progression.next? last) .returned
  | .exhausted => (.returned, g)

/-- Takes at most `n` values, and resumes no more once it has them. -/
def take (g : Generator) : Nat → List Word × Generator
  | 0 => ([], g)
  | n + 1 =>
    match g.resume with
    | (.yielded value, g) =>
      let (values, g) := g.take n
      (value :: values, g)
    | (_, g) => ([], g)

/-- The values that are still to come. -/
def remaining (g : Generator) : List Word :=
  match g.stage with
  | .created => g.progression.values
  | .suspended last => g.progression.run g.progression.span (g.progression.next? last)
  | .exhausted => []

/-! ## The progression never changes -/

@[simp] theorem progression_proceed (g : Generator) (next : Option Word) (last : Resumption) :
    (g.proceed next last).2.progression = g.progression := by
  unfold proceed
  split <;> rfl

@[simp] theorem progression_resume (g : Generator) :
    g.resume.2.progression = g.progression := by
  unfold resume
  split <;> simp

end Generator

end Builtins
