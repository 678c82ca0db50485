-- What is done to the heap, one thing at a time. A step is a deed of a host function, a turn
-- of a loop or a new generator; whatever a program does is a sequence of steps, so what holds
-- after every sequence of steps holds for every order in which they can come.
import Builtins.Script
import Builtins.Proofs.Generator.Resumptions

namespace Builtins

/-- One thing that is done to the heap. -/
inductive Step where
  | deed (d : Deed)
  /-- A loop takes its next item. -/
  | turn (source : Source)
  | newGenerator (p : Progression)

namespace Step

/-- Carries out a step. A turn answers with the item, and with nothing at the end. -/
def perform (h : Heap) : Step → Except Fault (Option Value) × Heap
  | deed d =>
    let (answer, h) := d.perform h
    (answer.map some, h)
  | turn source =>
    let ((item, _), h) := h.takeFrom source
    (.ok item, h)
  | newGenerator p =>
    let (id, h) := h.newGenerator p
    (.ok (some (.generator id)), h)

/-- The iterator that a step moves on. -/
def iterator? : Step → Option IteratorId
  | turn (.shared id) => some id
  | deed (.next (.iterator it)) => some it.id
  | _ => none

/-- The item that a step takes from its iterator or generator. -/
def item? (h : Heap) : Step → Option Value
  | deed (.resume id) => (h.resume id).1.value?.map .int
  | s =>
    match (s.perform h).1 with
    | .ok item => item
    | .error _ => none

end Step

/-- The generator that a cursor draws from. -/
def Cursor.generator? : Cursor → Option GeneratorId
  | .generator id => some id
  | _ => none

theorem Cursor.eq_generator {c : Cursor} {g : GeneratorId} (hc : c.generator? = some g) :
    c = .generator g := by
  cases c with
  | generator g' => exact congrArg _ (Option.some.inj hc)
  | _ => cases hc

/-- The generator that a step resumes, through whichever handle. -/
def Step.generator? (h : Heap) : Step → Option GeneratorId
  | deed (.next (.generator id)) => some id
  | deed (.resume id) => some id
  | turn (.own c) => c.generator?
  | s => s.iterator?.bind fun it => (h.cursor it).generator?

namespace Heap

/-- The heap after steps, made in order. -/
def after (h : Heap) (steps : List Step) : Heap := steps.foldl (fun h s => (s.perform h).2) h

@[simp] theorem after_nil (h : Heap) : h.after [] = h := rfl

@[simp] theorem after_cons (h : Heap) (s : Step) (steps : List Step) :
    h.after (s :: steps) = (s.perform h).2.after steps := rfl

@[simp] theorem after_append (h : Heap) (steps more : List Step) :
    h.after (steps ++ more) = (h.after steps).after more := by
  simp [after, List.foldl_append]

/-! ## What a step leaves alone -/

/-- To iterate over a value makes at most a new iterator. -/
theorem iterate_eq (h : Heap) (v : Value) :
    (h.iterate v).2 = h ∨
      ∃ c, Cursor.start? v = some c ∧
        (h.iterate v).2 = { h with cursors := h.cursors.push c } := by
  unfold iterate
  cases v with
  | iterator it => exact Or.inl rfl
  | list id => exact Or.inr ⟨_, rfl, rfl⟩
  | tuple items => exact Or.inr ⟨_, rfl, rfl⟩
  | text s => exact Or.inr ⟨_, rfl, rfl⟩
  | generator id => exact Or.inr ⟨_, rfl, rfl⟩
  | _ => exact Or.inl rfl

/-- To take an iterator of a value is to iterate over it, or nothing at all. -/
theorem iter_eq (h : Heap) (v : Value) :
    h.iter v = (.ok v, h) ∨ h.iter v = ((h.iterate v).1.map .iterator, (h.iterate v).2) := by
  unfold iter
  cases v with
  | generator id => exact Or.inl rfl
  | iterator it => exact Or.inl rfl
  | _ => exact Or.inr rfl

theorem add_eq (h : Heap) (a b : Value) :
    (h.add a b).2 = h ∨ ∃ items, (h.add a b).2 = (h.newList items).2 := by
  unfold add
  split
  · exact Or.inl rfl
  · exact Or.inr ⟨_, rfl⟩
  · exact Or.inl rfl
  · exact Or.inl rfl

/-- To draw from a cursor changes the heap only by the resumption of a generator. -/
theorem draw_heap (h : Heap) (c : Cursor) :
    (h.draw c).2.2 =
      match c.generator? with
      | some g => (h.resume g).2
      | none => h := by
  cases c with
  | list l index =>
    simp only [draw]
    split <;> rfl
  | tuple rest => cases rest <;> rfl
  | text rest => cases rest <;> rfl
  | generator g => rfl

@[simp] theorem lists_draw (h : Heap) (c : Cursor) : (h.draw c).2.2.lists = h.lists := by
  rw [draw_heap]
  cases c.generator? <;> rfl

@[simp] theorem cursors_draw (h : Heap) (c : Cursor) : (h.draw c).2.2.cursors = h.cursors := by
  rw [draw_heap]
  cases c.generator? <;> rfl

@[simp] theorem exceptions_draw (h : Heap) (c : Cursor) :
    (h.draw c).2.2.exceptions = h.exceptions := by
  rw [draw_heap]
  cases c.generator? <;> rfl

theorem generators_draw (h : Heap) (c : Cursor) :
    (h.draw c).2.2.generators =
      match c.generator? with
      | some g => h.generators.setIfInBounds g.index (h.generator g).resume.2
      | none => h.generators := by
  rw [draw_heap]
  cases c.generator? <;> rfl

/-- To advance an iterator is to draw from its cursor and to move it. -/
theorem advance_eq (h : Heap) (id : IteratorId) :
    h.advance id = ((h.draw (h.cursor id)).1,
      (h.draw (h.cursor id)).2.2.setCursor id (h.draw (h.cursor id)).2.1) := rfl

theorem setCursor_cursor (h : Heap) (id : IteratorId) : h.setCursor id (h.cursor id) = h := by
  have hset : h.cursors.setIfInBounds id.index (h.cursors.getD id.index default) = h.cursors := by
    apply Array.ext_getElem?
    intro i
    rw [Array.getElem?_setIfInBounds]
    split
    · subst i
      split
      · simp [*]
      · simp [*]
    · rfl
  cases h
  simp_all [setCursor, cursor]

/-- An iterator over a generator resumes it, and stays where it is. -/
theorem advance_of_cursor_eq_generator {h : Heap} {id : IteratorId} {g : GeneratorId}
    (hid : h.cursor id = .generator g) :
    h.advance id = ((h.resume g).1.value?.map .int, (h.resume g).2) := by
  have hstays : (h.resume g).2.setCursor id (.generator g) = (h.resume g).2 := by
    rw [← hid]
    exact (h.resume g).2.setCursor_cursor id
  rw [advance_eq, hid]
  exact congrArg (Prod.mk _) hstays

/-- To surface the end of a generator changes nothing but the number of exceptions. -/
theorem resumeValue_eq (h : Heap) (id : GeneratorId) :
    h.resumeValue id =
      match (h.resume id).1.value? with
      | some n => (.ok (.int n), (h.resume id).2)
      | none => (h.resume id).2.raiseStop := by
  unfold resumeValue
  cases hr : h.resume id with
  | mk r h' => cases r <;> rfl

/-- To surface the end of an iterator changes nothing but the number of exceptions. -/
theorem next_iterator_eq (h : Heap) (it : Iterator) :
    h.next (.iterator it) =
      match (h.advance it.id).1 with
      | some item => (.ok item, (h.advance it.id).2)
      | none => (h.advance it.id).2.raiseStop := by
  unfold next
  cases ha : h.advance it.id with
  | mk item h' => cases item <;> simp [ha]

@[simp] theorem generators_iterate (h : Heap) (v : Value) :
    (h.iterate v).2.generators = h.generators := by
  rcases h.iterate_eq v with he | ⟨c, -, he⟩ <;> rw [he]

@[simp] theorem lists_iterate (h : Heap) (v : Value) : (h.iterate v).2.lists = h.lists := by
  rcases h.iterate_eq v with he | ⟨c, -, he⟩ <;> rw [he]

@[simp] theorem generators_iter (h : Heap) (v : Value) :
    (h.iter v).2.generators = h.generators := by
  rcases h.iter_eq v with he | he <;> simp [he]

@[simp] theorem lists_iter (h : Heap) (v : Value) : (h.iter v).2.lists = h.lists := by
  rcases h.iter_eq v with he | he <;> simp [he]

@[simp] theorem generators_add (h : Heap) (a b : Value) :
    (h.add a b).2.generators = h.generators := by
  rcases h.add_eq a b with he | ⟨items, he⟩ <;> rw [he]
  rfl

@[simp] theorem cursors_add (h : Heap) (a b : Value) : (h.add a b).2.cursors = h.cursors := by
  rcases h.add_eq a b with he | ⟨items, he⟩ <;> rw [he]
  rfl

/-- Whatever `next` raises, it leaves what the resumption or the move has left. -/
theorem next_eq (h : Heap) (v : Value) :
    ∃ n : Nat, (h.next v).2 =
      match v with
      | .generator g => { (h.resume g).2 with exceptions := n }
      | .iterator it => { (h.advance it.id).2 with exceptions := n }
      | _ => { h with exceptions := n } := by
  cases v with
  | generator g =>
    change ∃ n : Nat, (h.resumeValue g).2 = _
    rw [resumeValue_eq]
    cases (h.resume g).1.value? <;> exact ⟨_, rfl⟩
  | iterator it =>
    rw [next_iterator_eq]
    cases (h.advance it.id).1 <;> exact ⟨_, rfl⟩
  | _ => exact ⟨h.exceptions, rfl⟩

/-! ## What a step does to generators, cursors and lists -/

@[simp] theorem lists_advance (h : Heap) (id : IteratorId) :
    (h.advance id).2.lists = h.lists :=
  h.lists_draw (h.cursor id)

theorem generators_advance (h : Heap) (id : IteratorId) :
    (h.advance id).2.generators =
      match (h.cursor id).generator? with
      | some g => h.generators.setIfInBounds g.index (h.generator g).resume.2
      | none => h.generators :=
  h.generators_draw (h.cursor id)

theorem cursors_advance (h : Heap) (id : IteratorId) :
    (h.advance id).2.cursors =
      h.cursors.setIfInBounds id.index (h.draw (h.cursor id)).2.1 :=
  congrArg (Array.setIfInBounds · id.index _) (h.cursors_draw (h.cursor id))

/-- A step resumes the generator that it reaches, and no other. -/
theorem generators_perform (h : Heap) (s : Step) :
    (s.perform h).2.generators =
      match s with
      | .newGenerator p => h.generators.push { progression := p }
      | s =>
        match s.generator? h with
        | some g => h.generators.setIfInBounds g.index (h.generator g).resume.2
        | none => h.generators := by
  cases s with
  | newGenerator p => rfl
  | turn source =>
    cases source with
    | shared id => exact h.generators_advance id
    | own c => exact h.generators_draw c
  | deed d =>
    cases d with
    | next v =>
      obtain ⟨n, hn⟩ := h.next_eq v
      change (h.next v).2.generators = _
      rw [hn]
      cases v with
      | generator g => rfl
      | iterator it => exact generators_advance h it.id
      | _ => rfl
    | iter v => exact generators_iter h v
    | iterate v => exact generators_iterate h v
    | add a b => exact generators_add h a b
    | _ => rfl

/-- A step leaves every list as it was, but for what it appends. -/
theorem lists_perform (h : Heap) (s : Step) :
    (∃ l item, s = .deed (.append l item) ∧ (s.perform h).2.lists = (h.append l item).lists) ∨
      (∀ l item, s ≠ .deed (.append l item)) ∧
        ((s.perform h).2.lists = h.lists ∨
          ∃ items, (s.perform h).2.lists = h.lists.push items) := by
  cases s with
  | newGenerator p => exact Or.inr ⟨by simp, Or.inl rfl⟩
  | turn source =>
    refine Or.inr ⟨by simp, Or.inl ?_⟩
    cases source with
    | shared id => exact h.lists_advance id
    | own c => exact h.lists_draw c
  | deed d =>
    cases d with
    | append l item => exact Or.inl ⟨l, item, rfl, rfl⟩
    | next v =>
      refine Or.inr ⟨by simp, Or.inl ?_⟩
      obtain ⟨n, hn⟩ := h.next_eq v
      change (h.next v).2.lists = _
      rw [hn]
      cases v with
      | iterator it => exact h.lists_advance it.id
      | _ => rfl
    | iter v => exact Or.inr ⟨by simp, Or.inl (lists_iter h v)⟩
    | iterate v => exact Or.inr ⟨by simp, Or.inl (lists_iterate h v)⟩
    | newList items => exact Or.inr ⟨by simp, Or.inr ⟨_, rfl⟩⟩
    | newException kind payload => exact Or.inr ⟨by simp, Or.inl rfl⟩
    | resume id => exact Or.inr ⟨by simp, Or.inl rfl⟩
    | add a b =>
      refine Or.inr ⟨by simp, ?_⟩
      change (h.add a b).2.lists = _ ∨ ∃ items, (h.add a b).2.lists = _
      rcases h.add_eq a b with he | ⟨items, he⟩
      · exact Or.inl (by rw [he])
      · exact Or.inr ⟨items, by rw [he]; rfl⟩

/-- A step moves the iterator that it advances, and no other, and makes at most one. -/
theorem cursors_perform (h : Heap) (s : Step) :
    match s.iterator? with
    | some id =>
      (s.perform h).2.cursors =
        h.cursors.setIfInBounds id.index (h.draw (h.cursor id)).2.1
    | none =>
      (s.perform h).2.cursors = h.cursors ∨
        ∃ c, (s.perform h).2.cursors = h.cursors.push c := by
  have hiterate : ∀ v, (h.iterate v).2.cursors = h.cursors ∨
      ∃ c, (h.iterate v).2.cursors = h.cursors.push c := by
    intro v
    rcases h.iterate_eq v with he | ⟨c, -, he⟩
    · exact Or.inl (by rw [he])
    · exact Or.inr ⟨c, by rw [he]⟩
  cases s with
  | newGenerator p => exact Or.inl rfl
  | turn source =>
    cases source with
    | shared id => exact h.cursors_advance id
    | own c => exact Or.inl (h.cursors_draw c)
  | deed d =>
    cases d with
    | next v =>
      obtain ⟨n, hn⟩ := h.next_eq v
      cases v with
      | iterator it =>
        change (h.next (.iterator it)).2.cursors = _
        rw [hn]
        exact cursors_advance h it.id
      | _ =>
        have hc := congrArg Heap.cursors hn
        exact Or.inl hc
    | iterate v => exact hiterate v
    | iter v =>
      change (h.iter v).2.cursors = _ ∨ ∃ c, (h.iter v).2.cursors = _
      rcases h.iter_eq v with he | he
      · exact Or.inl (by rw [he])
      · rw [he]; exact hiterate v
    | add a b => exact Or.inl (cursors_add h a b)
    | _ => exact Or.inl rfl

end Heap

end Builtins
