-- How often a generator is resumed, over any sequence of steps and through any handle. The
-- number alone says where the generator stands, and what its next resumption hands out.
import Builtins.Proofs.Heap.Cursors

namespace Builtins

namespace Heap

/-- How many of the steps, made in order, reach a generator. -/
def visits (h : Heap) (g : GeneratorId) : List Step → Nat
  | [] => 0
  | s :: steps =>
    (if s.generator? h = some g then 1 else 0) + (s.perform h).2.visits g steps

theorem visits_append (h : Heap) (g : GeneratorId) (steps more : List Step) :
    h.visits g (steps ++ more) = h.visits g steps + (h.after steps).visits g more := by
  induction steps generalizing h with
  | nil => simp [visits]
  | cons s steps ih =>
    simp only [List.cons_append, visits, after_cons]
    rw [ih]
    omega

theorem visits_singleton (h : Heap) (g : GeneratorId) (s : Step) :
    h.visits g [s] = if s.generator? h = some g then 1 else 0 := by
  simp [visits]

/-- A step that reaches the generator from any heap is a visit each time that it is made. -/
theorem visits_replicate (h : Heap) {g : GeneratorId} {s : Step}
    (hs : ∀ h : Heap, s.generator? h = some g) (k : Nat) :
    h.visits g (List.replicate k s) = k := by
  induction k generalizing h with
  | zero => rfl
  | succ k ih =>
    rw [List.replicate_succ, visits, if_pos (hs h), ih, Nat.add_comm]

theorem generator_eq_of_getElem? {h : Heap} {g : GeneratorId} {a : Generator}
    (hg : h.generators[g.index]? = some a) : h.generator g = a := by
  simp [generator, Array.getD_eq_getD_getElem?, hg]

theorem getElem?_setGenerator {h : Heap} {g : GeneratorId} {a : Generator} (b : Generator)
    (hg : h.generators[g.index]? = some a) :
    (h.setGenerator g b).generators[g.index]? = some b := by
  have hlt : g.index < h.generators.size := (Array.getElem?_eq_some_iff.mp hg).1
  simp [setGenerator, hlt]

/-- One step moves a generator on by one if it reaches it, and not at all if it does not. -/
theorem getElem?_generators_perform {h : Heap} {g : GeneratorId} {p : Progression} {k : Nat}
    (hg : h.generators[g.index]? = some (p.after k)) (s : Step) :
    (s.perform h).2.generators[g.index]? =
      some (p.after (k + if s.generator? h = some g then 1 else 0)) := by
  have hlt : g.index < h.generators.size := (Array.getElem?_eq_some_iff.mp hg).1
  rw [generators_perform]
  split
  · -- A new generator goes behind all others.
    simp [Step.generator?, Step.iterator?, Array.getElem?_push, Nat.ne_of_lt hlt, hg]
  · cases hr : s.generator? h with
    | none => simpa using hg
    | some g' =>
      simp only [Option.some.injEq]
      by_cases he : g' = g
      · subst he
        rw [generator_eq_of_getElem? hg, Progression.resume_after]
        simp [hlt]
      · have hne : g'.index ≠ g.index := by
          intro hi
          cases g'
          cases g
          exact he (congrArg GeneratorId.mk hi)
        rw [Array.getElem?_setIfInBounds_ne hne]
        simpa [he] using hg

/-- After any steps a generator stands where the number of visits puts it. -/
theorem getElem?_generators_after {h : Heap} {g : GeneratorId} {p : Progression} {k : Nat}
    (hg : h.generators[g.index]? = some (p.after k)) (steps : List Step) :
    (h.after steps).generators[g.index]? = some (p.after (k + h.visits g steps)) := by
  induction steps generalizing h k with
  | nil => exact hg
  | cons s steps ih =>
    rw [after_cons, ih (getElem?_generators_perform hg s), visits, Nat.add_assoc]

/-! ## What the next visit finds -/

section Visit

variable {h : Heap} {g : GeneratorId} {p : Progression} {k : Nat}

theorem resume_of_getElem? (hg : h.generators[g.index]? = some (p.after k)) :
    h.resume g = (p.resumption k, h.setGenerator g (p.after (k + 1))) := by
  unfold resume
  rw [generator_eq_of_getElem? hg, Progression.resume_after]

/-- A visit that raises at the end: the value with a number, or a new signal. -/
def surfaced (h : Heap) (g : GeneratorId) (p : Progression) (k : Nat) :
    Except Fault Value × Heap :=
  let moved := h.setGenerator g (p.after (k + 1))
  match p.values[k]? with
  | some x => (.ok (.int x), moved)
  | none =>
    (.error (.raised ⟨⟨h.exceptions⟩, .stopIteration, []⟩),
      { moved with exceptions := h.exceptions + 1 })

theorem resumeValue_of_getElem? (hg : h.generators[g.index]? = some (p.after k)) :
    h.resumeValue g = h.surfaced g p k := by
  rw [resumeValue_eq, resume_of_getElem? hg, Progression.value?_resumption]
  unfold surfaced
  cases p.values[k]? <;> rfl

theorem advance_of_getElem? (hg : h.generators[g.index]? = some (p.after k)) {id : IteratorId}
    (hid : h.cursor id = .generator g) :
    h.advance id = (p.values[k]?.map .int, h.setGenerator g (p.after (k + 1))) := by
  rw [advance_of_cursor_eq_generator hid, resume_of_getElem? hg, Progression.value?_resumption]

theorem next_of_getElem? (hg : h.generators[g.index]? = some (p.after k)) {it : Iterator}
    (hid : h.cursor it.id = .generator g) : h.next (.iterator it) = h.surfaced g p k := by
  rw [next_iterator_eq, advance_of_getElem? hg hid]
  unfold surfaced
  cases p.values[k]? <;> rfl

/-- A loop that draws from the generator takes the value with the number, and goes by the same
from there. -/
theorem takeFrom_of_getElem? (hg : h.generators[g.index]? = some (p.after k)) {source : Source}
    (hs : (Step.turn source).generator? h = some g) :
    h.takeFrom source =
      ((p.values[k]?.map .int, source), h.setGenerator g (p.after (k + 1))) := by
  cases source with
  | shared id => simp only [takeFrom, advance_of_getElem? hg (Cursor.eq_generator hs)]
  | own c =>
    rw [Cursor.eq_generator hs]
    simp only [takeFrom, draw, resume_of_getElem? hg, Progression.value?_resumption]

/-- A step that reaches the generator takes the value with the number. -/
theorem item?_of_getElem? (hg : h.generators[g.index]? = some (p.after k)) {s : Step}
    (hs : s.generator? h = some g) : s.item? h = p.values[k]?.map .int := by
  cases s with
  | newGenerator p' => cases hs
  | turn source =>
    simp only [Step.item?, Step.perform, takeFrom_of_getElem? hg hs]
  | deed d =>
    cases d with
    | resume g' =>
      cases hs
      simp only [Step.item?, resume_of_getElem? hg, Progression.value?_resumption]
    | next v =>
      cases v with
      | generator g' =>
        cases hs
        simp only [Step.item?, Step.perform, Deed.perform, next, resumeValue_of_getElem? hg,
          surfaced]
        cases p.values[k]? <;> rfl
      | iterator it => rw [item?_of_iterator? rfl, advance_of_getElem? hg (Cursor.eq_generator hs)]
      | _ => cases hs
    | _ => cases hs

end Visit

/-- What steps, made in order, draw from a generator through its handles. -/
def drawn (h : Heap) (g : GeneratorId) : List Step → List Value
  | [] => []
  | s :: steps =>
    (if s.generator? h = some g then (s.item? h).toList else []) ++ (s.perform h).2.drawn g steps

/-- What is drawn from a generator are its next values in order, as many as there are visits
and values left. -/
theorem drawn_eq {h : Heap} {g : GeneratorId} {p : Progression} {k : Nat}
    (hg : h.generators[g.index]? = some (p.after k)) (steps : List Step) :
    h.drawn g steps = ((p.values.drop k).take (h.visits g steps)).map .int := by
  induction steps generalizing h k with
  | nil => simp [drawn, visits]
  | cons s steps ih =>
    rw [drawn, visits, ih (getElem?_generators_perform hg s)]
    by_cases hs : s.generator? h = some g
    · rw [if_pos hs, if_pos hs, item?_of_getElem? hg hs, Nat.add_comm 1]
      by_cases hk : k < p.values.length
      · rw [List.drop_eq_getElem_cons hk, List.getElem?_eq_getElem hk, List.take_succ_cons]
        rfl
      · have hlen : p.values.length ≤ k := Nat.not_lt.mp hk
        rw [List.getElem?_eq_none hlen, List.drop_eq_nil_of_le hlen,
          List.drop_eq_nil_of_le (Nat.le_succ_of_le hlen)]
        simp
    · simp [if_neg hs]

end Heap

end Builtins
