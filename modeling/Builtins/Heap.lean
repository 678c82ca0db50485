-- The heap: the lists, generators and iterators that values name. A list only ever grows at
-- its end, a generator is resumed, an iterator moves on, and nothing is taken away.
import Builtins.Value
import Builtins.Generator

namespace Builtins

/-- Where an iterator stands. Over a list it looks up the list anew at every step. -/
inductive Cursor where
  | list (id : ListId) (index : Nat)
  | tuple (rest : List Value)
  | text (rest : List Char)
  | generator (id : GeneratorId)

/-- What a cursor goes over. -/
def Cursor.kind : Cursor → IteratorKind
  | list _ _ => .list
  | tuple _ => .tuple
  | text _ => .text
  | generator _ => .generator

instance : Inhabited Cursor := ⟨.tuple []⟩

/-- All objects that have an identity. Exceptions need none but their number. -/
structure Heap where
  lists : Array (Array Value) := #[]
  generators : Array Generator := #[]
  cursors : Array Cursor := #[]
  exceptions : Nat := 0

namespace Heap

/-! ## Lists -/

def list (h : Heap) (id : ListId) : Array Value := h.lists.getD id.index #[]

def newList (h : Heap) (items : Array Value) : ListId × Heap :=
  (⟨h.lists.size⟩, { h with lists := h.lists.push items })

def append (h : Heap) (id : ListId) (item : Value) : Heap :=
  { h with lists := h.lists.modify id.index (·.push item) }

/-! ## Generators -/

def generator (h : Heap) (id : GeneratorId) : Generator :=
  h.generators.getD id.index ⟨⟨0, 0, 0⟩, .exhausted⟩

def newGenerator (h : Heap) (p : Progression) : GeneratorId × Heap :=
  (⟨h.generators.size⟩, { h with generators := h.generators.push { progression := p } })

def setGenerator (h : Heap) (id : GeneratorId) (g : Generator) : Heap :=
  { h with generators := h.generators.setIfInBounds id.index g }

def resume (h : Heap) (id : GeneratorId) : Generator.Resumption × Heap :=
  let (result, g) := (h.generator id).resume
  (result, h.setGenerator id g)

/-! ## Iterators -/

/-- Where an iterator stands. -/
def cursor (h : Heap) (id : IteratorId) : Cursor := h.cursors.getD id.index default

def newIterator (h : Heap) (c : Cursor) : Iterator × Heap :=
  (⟨c.kind, ⟨h.cursors.size⟩⟩, { h with cursors := h.cursors.push c })

def setCursor (h : Heap) (id : IteratorId) (c : Cursor) : Heap :=
  { h with cursors := h.cursors.setIfInBounds id.index c }

/-! ## Exceptions -/

def newException (h : Heap) (kind : ExceptionKind) (payload : List Value) :
    ExceptionInstance × Heap :=
  (⟨⟨h.exceptions⟩, kind, payload⟩, { h with exceptions := h.exceptions + 1 })

/-! ## What is read after a change -/

/-- A list that has items is there. -/
theorem lt_size_lists {h : Heap} {id : ListId} {i : Nat} (hi : i < (h.list id).size) :
    id.index < h.lists.size := by
  apply Nat.lt_of_not_le
  intro hge
  simp [list, Array.getD_eq_getD_getElem?, hge] at hi

@[simp] theorem list_newList (h : Heap) (items : Array Value) :
    (h.newList items).2.list (h.newList items).1 = items := by
  simp [list, newList, Array.getD_eq_getD_getElem?]

theorem list_newList_of_lt (h : Heap) (items : Array Value) {id : ListId}
    (hid : id.index < h.lists.size) : (h.newList items).2.list id = h.list id := by
  simp [list, newList, Array.getD_eq_getD_getElem?, Array.getElem?_push, Nat.ne_of_lt hid]

theorem list_append_self (h : Heap) {id : ListId} (item : Value)
    (hid : id.index < h.lists.size) : (h.append id item).list id = (h.list id).push item := by
  simp [list, append, Array.getD_eq_getD_getElem?, Array.getElem_modify, hid]

theorem list_append_of_ne (h : Heap) {id other : ListId} (item : Value) (hne : id ≠ other) :
    (h.append id item).list other = h.list other := by
  have hi : id.index ≠ other.index := fun e => hne (by cases id; cases other; simp_all)
  simp [list, append, Array.getD_eq_getD_getElem?, Array.getElem?_modify, hi]

end Heap

end Builtins
