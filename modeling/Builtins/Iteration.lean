-- Iteration over values. An iterator is asked for its next item; that there is none left is
-- the answer `none`, so a loop never mistakes a raised signal for the end of its items.
import Builtins.Heap
import Builtins.Fault

namespace Builtins

/-- The cursor at the start of a value. A value that is not iterable has none, and neither
has an iterator, which keeps the cursor that it has. -/
def Cursor.start? : Value → Option Cursor
  | .list id => some (.list id 0)
  | .tuple items => some (.tuple items)
  | .text s => some (.text s.toList)
  | .generator id => some (.generator id)
  | _ => none

/-- What a loop goes by: an iterator that others may hold as well, or a cursor of its own. -/
inductive Source where
  | shared (id : IteratorId)
  | own (c : Cursor)

instance : Coe IteratorId Source := ⟨.shared⟩

/-- What a loop over a value goes by. Only an iterator is shared with the loop. -/
def Source.of : Value → Except Fault Source
  | .iterator it => .ok (.shared it.id)
  | v =>
    match Cursor.start? v with
    | some c => .ok (.own c)
    | none => .error (.notIterable v.typeName)

namespace Heap

/-- Takes the next item at a cursor, and tells where the cursor stands afterwards. At the end
nothing changes: a cursor over a list goes on when the list has grown. -/
def draw (h : Heap) : Cursor → Option Value × Cursor × Heap
  | .list l index =>
    match (h.list l)[index]? with
    | some item => (some item, .list l (index + 1), h)
    | none => (none, .list l index, h)
  | .tuple (item :: rest) => (some item, .tuple rest, h)
  | .tuple [] => (none, .tuple [], h)
  | .text (c :: rest) => (some (.text (String.singleton c)), .text rest, h)
  | .text [] => (none, .text [], h)
  | .generator g =>
    let (result, h) := h.resume g
    (result.value?.map .int, .generator g, h)

/-- Takes the next item of an iterator. -/
def advance (h : Heap) (id : IteratorId) : Option Value × Heap :=
  let (item, c, h) := h.draw (h.cursor id)
  (item, h.setCursor id c)

/-- Takes the next item for a loop, and tells what the loop goes by from there. -/
def takeFrom (h : Heap) : Source → (Option Value × Source) × Heap
  | .shared id =>
    let (item, h) := h.advance id
    ((item, .shared id), h)
  | .own c =>
    let (item, c, h) := h.draw c
    ((item, .own c), h)

/-- An iterator object over a value: the value itself if it is an iterator, else a new one at
its start. -/
def iterate (h : Heap) (v : Value) : Except Fault Iterator × Heap :=
  match v with
  | .iterator it => (.ok it, h)
  | v =>
    match Cursor.start? v with
    | some c =>
      let (it, h) := h.newIterator c
      (.ok it, h)
    | none => (.error (.notIterable v.typeName), h)

/-- An iterator of a value. Generators and iterators are their own. -/
def iter (h : Heap) (v : Value) : Except Fault Value × Heap :=
  match v with
  | .generator _ | .iterator _ => (.ok v, h)
  | v =>
    let (it, h) := h.iterate v
    (it.map .iterator, h)

/-- Raises a new signal that an iteration is over. -/
def raiseStop (h : Heap) : Except Fault Value × Heap :=
  let (e, h) := h.newException .stopIteration []
  (.error (.raised e), h)

/-- Resumes a generator for its next value, and raises when it hands out none. -/
def resumeValue (h : Heap) (id : GeneratorId) : Except Fault Value × Heap :=
  match h.resume id with
  | (.yielded n, h) => (.ok (.int n), h)
  | (.returned, h) | (.raised, h) => h.raiseStop

/-- The next item of a generator or an iterator, and a raised signal when there is none. -/
def next (h : Heap) (v : Value) : Except Fault Value × Heap :=
  match v with
  | .generator id => h.resumeValue id
  | .iterator it =>
    match h.advance it.id with
    | (some item, h) => (.ok item, h)
    | (none, h) => h.raiseStop
  | v => (.error (.argumentType "next" "iterator" "iterator" v.typeName), h)

/-! ## Where items end -/

theorem raiseStop_fst (h : Heap) :
    h.raiseStop.1 = .error (.raised ⟨⟨h.exceptions⟩, .stopIteration, []⟩) := rfl

/-- The end of an iterator or a generator is the only thing that `next` fails at. -/
theorem next_error {h : Heap} {v : Value} {fault : Fault}
    (hv : (∃ id, v = .generator id) ∨ ∃ it, v = .iterator it)
    (hnext : (h.next v).1 = .error fault) :
    ∃ e, fault = .raised e ∧ e.kind = .stopIteration := by
  rcases hv with ⟨id, rfl⟩ | ⟨it, rfl⟩
  · rcases hr : h.resume id with ⟨_ | _ | _, h'⟩ <;>
      simp only [next, resumeValue, hr, raiseStop_fst] at hnext <;> cases hnext
    all_goals exact ⟨_, rfl, rfl⟩
  · rcases ha : h.advance it.id with ⟨_ | _, h'⟩ <;>
      simp only [next, ha, raiseStop_fst] at hnext <;> cases hnext
    exact ⟨_, rfl, rfl⟩

/-- A loop finds no item left exactly where `next` raises the signal that ends an iteration. -/
theorem takeFrom_eq_none_iff {h : Heap} {v : Value} {source : Source}
    (hv : (∃ id, v = .generator id) ∨ ∃ it, v = .iterator it) (hof : Source.of v = .ok source) :
    (h.takeFrom source).1.1 = none ↔
      ∃ fault, (h.next v).1 = .error fault ∧ fault.endsIteration = true := by
  have hends : (∃ fault, (h.next v).1 = .error fault ∧ fault.endsIteration = true) ↔
      ∃ fault, (h.next v).1 = .error fault := by
    constructor
    · exact fun ⟨fault, hnext, _⟩ => ⟨fault, hnext⟩
    · rintro ⟨fault, hnext⟩
      obtain ⟨e, rfl, hkind⟩ := next_error hv hnext
      exact ⟨_, hnext, by rw [Fault.endsIteration, hkind]; rfl⟩
  rw [hends]
  rcases hv with ⟨id, rfl⟩ | ⟨it, rfl⟩
  · cases hof
    rcases hr : h.resume id with ⟨_ | _ | _, h'⟩ <;>
      simp [takeFrom, draw, next, resumeValue, hr, Generator.Resumption.value?, raiseStop_fst]
  · cases hof
    rcases ha : h.advance it.id with ⟨_ | _, h'⟩ <;> simp [takeFrom, next, ha, raiseStop_fst]

end Heap

end Builtins
