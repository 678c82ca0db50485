-- Where iterators stand while steps are made. A step moves the iterator that it advances and no
-- other, and an iterator over a generator keeps to that generator.
import Builtins.Proofs.Heap.Steps

namespace Builtins

namespace Heap

theorem cursor_eq_of_getElem? {h : Heap} {id : IteratorId} {c : Cursor}
    (hc : h.cursors[id.index]? = some c) : h.cursor id = c := by
  simp [cursor, Array.getD_eq_getD_getElem?, hc]

/-- A step moves an iterator if it advances it, and else leaves it where it stands. -/
theorem getElem?_cursors_perform {h : Heap} {id : IteratorId} {c : Cursor}
    (hc : h.cursors[id.index]? = some c) (s : Step) :
    (s.perform h).2.cursors[id.index]? =
      some (if s.iterator? = some id then (h.draw c).2.1 else c) := by
  have hlt : id.index < h.cursors.size := (Array.getElem?_eq_some_iff.mp hc).1
  have hstep := h.cursors_perform s
  cases hs : s.iterator? with
  | none =>
    simp only [hs] at hstep
    rcases hstep with he | ⟨c', he⟩
    · simpa [he] using hc
    · -- A new iterator goes behind all others.
      simpa [he, Array.getElem?_push, Nat.ne_of_lt hlt] using hc
  | some other =>
    simp only [hs] at hstep
    rw [hstep]
    by_cases he : other = id
    · subst he
      simp [cursor_eq_of_getElem? hc, hlt]
    · have hne : other.index ≠ id.index := by
        intro hi
        cases other
        cases id
        exact he (congrArg IteratorId.mk hi)
      rw [Array.getElem?_setIfInBounds_ne hne]
      simpa [he] using hc

/-- A step that advances an iterator takes the item that the iterator hands out. -/
theorem item?_of_iterator? {h : Heap} {s : Step} {id : IteratorId} (hs : s.iterator? = some id) :
    s.item? h = (h.advance id).1 := by
  cases s with
  | newGenerator p => cases hs
  | turn source =>
    cases source with
    | shared id =>
      cases hs
      rfl
    | own c => cases hs
  | deed d =>
    cases d with
    | next v =>
      cases v with
      | iterator it =>
        cases hs
        simp only [Step.item?, Step.perform, Deed.perform]
        rw [next_iterator_eq]
        cases (h.advance it.id).1 <;> rfl
      | _ => cases hs
    | _ => cases hs

/-- An iterator over a generator keeps to it. -/
theorem getElem?_cursors_after_of_generator {h : Heap} {id : IteratorId} {g : GeneratorId}
    (hc : h.cursors[id.index]? = some (.generator g)) (steps : List Step) :
    (h.after steps).cursors[id.index]? = some (.generator g) := by
  induction steps generalizing h with
  | nil => exact hc
  | cons s steps ih =>
    apply ih
    rw [getElem?_cursors_perform hc s]
    split <;> rfl

/-- An iterator that stands at a generator is one of the heap. -/
theorem getElem?_of_cursor_eq_generator {h : Heap} {id : IteratorId} {g : GeneratorId}
    (hid : h.cursor id = .generator g) : h.cursors[id.index]? = some (.generator g) := by
  cases hc : h.cursors[id.index]? with
  | some c => rw [← hid, cursor_eq_of_getElem? hc]
  | none =>
    -- What is no iterator of the heap stands at an empty tuple.
    simp [cursor, Array.getD_eq_getD_getElem?, hc, default] at hid

theorem cursor_after_of_generator {h : Heap} {id : IteratorId} {g : GeneratorId}
    (hid : h.cursor id = .generator g) (steps : List Step) :
    (h.after steps).cursor id = .generator g :=
  cursor_eq_of_getElem?
    (getElem?_cursors_after_of_generator (getElem?_of_cursor_eq_generator hid) steps)

/-- An iterator object over a generator draws from it, and to make one resumes nothing. -/
theorem iterate_generator (h : Heap) (g : GeneratorId) :
    ∃ it h', h.iterate (.generator g) = (.ok it, h') ∧
      h'.cursor it.id = .generator g ∧ h'.generators = h.generators := by
  refine ⟨_, _, rfl, ?_, rfl⟩
  simp [cursor, Array.getD_eq_getD_getElem?]

end Heap

end Builtins
