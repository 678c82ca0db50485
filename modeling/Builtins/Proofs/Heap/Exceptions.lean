-- The exceptions that steps make, and the signals among them that steps raise. Exceptions are
-- numbered in the order in which they are made, so each one is new.
import Builtins.Proofs.Action.Ends
import Builtins.Proofs.Heap.Steps

namespace Builtins

/-- The exception that a step makes. -/
def Step.exception? (h : Heap) : Step → Option ExceptionInstance
  | deed (.newException kind payload) => some (h.newException kind payload).1
  | s =>
    match (s.perform h).1 with
    | .ok _ => none
    | .error fault => fault.exception?

namespace Heap

/-- The exceptions that steps make, in order. -/
def exceptionsMade (h : Heap) : List Step → List ExceptionInstance
  | [] => []
  | s :: steps => (s.exception? h).toList ++ (s.perform h).2.exceptionsMade steps

@[simp] theorem exceptions_advance (h : Heap) (id : IteratorId) :
    (h.advance id).2.exceptions = h.exceptions :=
  h.exceptions_draw (h.cursor id)

@[simp] theorem exceptions_iterate (h : Heap) (v : Value) :
    (h.iterate v).2.exceptions = h.exceptions := by
  rcases h.iterate_eq v with he | ⟨c, -, he⟩ <;> rw [he]

@[simp] theorem exceptions_iter (h : Heap) (v : Value) :
    (h.iter v).2.exceptions = h.exceptions := by
  rcases h.iter_eq v with he | he <;> simp [he]

@[simp] theorem exceptions_add (h : Heap) (a b : Value) :
    (h.add a b).2.exceptions = h.exceptions := by
  rcases h.add_eq a b with he | ⟨items, he⟩ <;> rw [he]
  rfl

/-! ## Which steps raise -/

theorem iterate_ne_raised (h : Heap) (v : Value) (e : ExceptionInstance) :
    (h.iterate v).1 ≠ .error (.raised e) := by
  unfold iterate
  cases v <;> simp [Cursor.start?]

theorem iter_ne_raised (h : Heap) (v : Value) (e : ExceptionInstance) :
    (h.iter v).1 ≠ .error (.raised e) := by
  intro he
  rcases h.iter_eq v with hi | hi
  · simp [hi] at he
  · rw [hi] at he
    exact h.iterate_ne_raised v e (map_eq_error_iff.mp he)

theorem add_ne_raised (h : Heap) (a b : Value) (e : ExceptionInstance) :
    (h.add a b).1 ≠ .error (.raised e) := by
  unfold add
  split
  · simp
  · simp
  · simp
  · unfold Value.addWords
    split
    · split <;> simp
    · simp [Value.mismatch]

/-- What `next` raises is a new signal without a payload; else it makes no exception. -/
theorem next_raises (h : Heap) (v : Value) :
    ((h.next v).1 = .error (.raised ⟨⟨h.exceptions⟩, .stopIteration, []⟩) ∧
        (h.next v).2.exceptions = h.exceptions + 1) ∨
      (∀ e, (h.next v).1 ≠ .error (.raised e)) ∧ (h.next v).2.exceptions = h.exceptions := by
  cases v with
  | generator g =>
    change (h.resumeValue g).1 = _ ∧ (h.resumeValue g).2.exceptions = _ ∨
      (∀ e, (h.resumeValue g).1 ≠ _) ∧ (h.resumeValue g).2.exceptions = _
    rw [resumeValue_eq]
    cases (h.resume g).1.value? with
    | some n => exact Or.inr ⟨by simp, rfl⟩
    | none => exact Or.inl ⟨rfl, rfl⟩
  | iterator it =>
    have hadv := h.exceptions_advance it.id
    rw [next_iterator_eq]
    cases (h.advance it.id).1 with
    | some item => exact Or.inr ⟨by simp, hadv⟩
    | none =>
      refine Or.inl ⟨?_, congrArg (· + 1) hadv⟩
      rw [← hadv]
      rfl
  | _ => exact Or.inr ⟨by simp [next], rfl⟩

/-- A step that raises, raises a new signal without a payload. -/
theorem perform_raises (h : Heap) (s : Step) {e : ExceptionInstance}
    (he : (s.perform h).1 = .error (.raised e)) :
    e = ⟨⟨h.exceptions⟩, .stopIteration, []⟩ := by
  cases s with
  | turn it => simp [Step.perform] at he
  | newGenerator p => simp [Step.perform] at he
  | deed d =>
    have hd : (d.perform h).1 = .error (.raised e) := map_eq_error_iff.mp he
    cases d with
    | next v =>
      change (h.next v).1 = _ at hd
      rcases h.next_raises v with ⟨hraised, -⟩ | ⟨hnot, -⟩
      · rw [hraised] at hd
        simpa using hd.symm
      · exact absurd hd (hnot e)
    | iter v => exact absurd hd (h.iter_ne_raised v e)
    | iterate v => exact absurd (map_eq_error_iff.mp hd) (h.iterate_ne_raised v e)
    | add a b => exact absurd hd (h.add_ne_raised a b e)
    | _ => simp [Deed.perform] at hd

/-- A step that neither makes an exception as its deed nor raises makes none. -/
theorem exception?_eq_none (h : Heap) (s : Step)
    (hs : ∀ kind payload, s ≠ .deed (.newException kind payload))
    (hne : ∀ e, (s.perform h).1 ≠ .error (.raised e)) : s.exception? h = none := by
  unfold Step.exception?
  split
  · next kind payload => exact absurd rfl (hs kind payload)
  · cases hr : (s.perform h).1 with
    | ok item => rfl
    | error fault =>
      -- Of all faults only a raised one carries an exception.
      cases fault with
      | raised e => exact absurd hr (hne e)
      | _ => rfl

theorem exception?_deed_eq_none (h : Heap) (d : Deed)
    (hd : ∀ kind payload, d ≠ .newException kind payload)
    (hne : ∀ e, (d.perform h).1 ≠ .error (.raised e)) : (Step.deed d).exception? h = none := by
  apply exception?_eq_none
  · simpa using hd
  · intro e he
    exact hne e (map_eq_error_iff.mp he)

/-- A step takes as many numbers for exceptions as it makes exceptions. -/
theorem exceptions_perform (h : Heap) (s : Step) :
    match s.exception? h with
    | some e => e.id.index = h.exceptions ∧ (s.perform h).2.exceptions = h.exceptions + 1
    | none => (s.perform h).2.exceptions = h.exceptions := by
  cases s with
  | turn source =>
    rw [h.exception?_eq_none _ (by simp) (by simp [Step.perform])]
    cases source with
    | shared id => exact h.exceptions_advance id
    | own c => exact h.exceptions_draw c
  | newGenerator p =>
    rw [h.exception?_eq_none _ (by simp) (by simp [Step.perform])]
    rfl
  | deed d =>
    cases d with
    | newException kind payload => exact ⟨rfl, rfl⟩
    | next v =>
      rcases h.next_raises v with ⟨hraised, hsucc⟩ | ⟨hnot, heq⟩
      · have hsome : (Step.deed (.next v)).exception? h =
            some ⟨⟨h.exceptions⟩, .stopIteration, []⟩ := by
          simp [Step.exception?, Step.perform, Deed.perform, hraised, Except.map, Fault.exception?]
        rw [hsome]
        exact ⟨rfl, hsucc⟩
      · rw [h.exception?_deed_eq_none (.next v) (by simp) hnot]
        exact heq
    | iter v =>
      rw [h.exception?_deed_eq_none (.iter v) (by simp) (h.iter_ne_raised v)]
      exact h.exceptions_iter v
    | iterate v =>
      have hnot : ∀ e, ((Deed.iterate v).perform h).1 ≠ .error (.raised e) :=
        fun e he => h.iterate_ne_raised v e (map_eq_error_iff.mp he)
      rw [h.exception?_deed_eq_none _ (by simp) hnot]
      exact h.exceptions_iterate v
    | add a b =>
      rw [h.exception?_deed_eq_none (.add a b) (by simp) (h.add_ne_raised a b)]
      exact h.exceptions_add a b
    | newList items =>
      rw [h.exception?_deed_eq_none _ (by simp) (by simp [Deed.perform])]
      rfl
    | append list item =>
      rw [h.exception?_deed_eq_none _ (by simp) (by simp [Deed.perform])]
      rfl
    | resume id =>
      rw [h.exception?_deed_eq_none _ (by simp) (by simp [Deed.perform])]
      rfl

/-- The exceptions that steps make are numbered one after the other, from the first number that
is free. -/
theorem exceptionsMade_index (h : Heap) (steps : List Step) :
    (h.exceptionsMade steps).map (·.id.index) =
        List.range' h.exceptions (h.exceptionsMade steps).length ∧
      (h.after steps).exceptions = h.exceptions + (h.exceptionsMade steps).length := by
  induction steps generalizing h with
  | nil => simp [exceptionsMade]
  | cons s steps ih =>
    obtain ⟨hindex, hcount⟩ := ih (s.perform h).2
    have hstep := h.exceptions_perform s
    rw [exceptionsMade, after_cons]
    cases he : s.exception? h with
    | none =>
      rw [he] at hstep
      change (s.perform h).2.exceptions = _ at hstep
      rw [hstep] at hindex hcount
      exact ⟨hindex, hcount⟩
    | some e =>
      rw [he] at hstep
      obtain ⟨hid, hsucc⟩ := hstep
      rw [hsucc] at hindex hcount
      simp only [Option.toList_some, List.singleton_append, List.map_cons, List.length_cons,
        List.range'_succ]
      exact ⟨by rw [hid, hindex], by omega⟩

end Heap

end Builtins
