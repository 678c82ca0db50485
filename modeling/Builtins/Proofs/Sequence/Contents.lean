-- Sequences: lists, tuples and texts, and iterators over them. A tuple and a text are what they
-- are, a list grows at its end, so what stands before some place in a sequence stands there for
-- good.
import Builtins.Proofs.Heap.Cursors

namespace Builtins

/-- Whether a value is a list, a tuple or a text. -/
def Value.isSequence : Value → Bool
  | list _ | tuple _ | text _ => true
  | _ => false

/-- Whether a value is a generator or an iterator. -/
def Value.isIterator : Value → Bool
  | generator _ | iterator _ => true
  | _ => false

/-- Where an iterator over a sequence stands when it has handed out `i` items. -/
def Cursor.along : Value → Nat → Cursor
  | .list id, i => .list id i
  | .tuple items, i => .tuple (items.drop i)
  | .text s, i => .text (s.toList.drop i)
  | _, _ => default

/-- A loop over a sequence goes by a cursor of its own, which begins at the start. -/
theorem Source.of_sequence {v : Value} (hv : v.isSequence = true) :
    Source.of v = .ok (.own (.along v 0)) := by
  cases v with
  | list id => rfl
  | tuple items => rfl
  | text s => rfl
  | _ => cases hv

namespace Heap

/-- The items of a sequence as they are now. Those of a text are its characters. -/
def contents (h : Heap) : Value → List Value
  | .list id => (h.list id).toList
  | .tuple items => items
  | .text s => s.toList.map fun c => .text (String.singleton c)
  | _ => []

/-! ## Contents grow -/

theorem list_eq_of_lists_eq {h h' : Heap} (he : h'.lists = h.lists) (id : ListId) :
    h'.list id = h.list id := by
  simp [list, he]

/-- What a step does to a list is to put something at its end. -/
theorem list_prefix_perform (h : Heap) (s : Step) (id : ListId) :
    (h.list id).toList <+: ((s.perform h).2.list id).toList := by
  rcases h.lists_perform s with ⟨l, item, -, he⟩ | ⟨-, he | ⟨items, he⟩⟩
  · rw [list_eq_of_lists_eq he]
    by_cases hl : l = id
    · subst hl
      by_cases hlt : l.index < h.lists.size
      · simp [list_append_self h item hlt]
      · simp [list, hlt]
    · simp [list_append_of_ne h item hl]
  · simp [list_eq_of_lists_eq he]
  · by_cases hlt : id.index < h.lists.size
    · simp [list, he, hlt, Array.getElem_push, Nat.lt_succ_of_lt hlt]
    · simp [list, hlt]

/-- What is not a list has the same contents in all heaps. -/
theorem contents_eq_of_not_list {v : Value} (hv : ∀ id, v ≠ .list id) (h h' : Heap) :
    h'.contents v = h.contents v := by
  cases v with
  | list id => exact absurd rfl (hv id)
  | _ => rfl

theorem contents_prefix_perform (h : Heap) (s : Step) (v : Value) :
    h.contents v <+: (s.perform h).2.contents v := by
  cases v with
  | list id => exact h.list_prefix_perform s id
  | _ => exact List.prefix_rfl

theorem contents_prefix_after (h : Heap) (steps : List Step) (v : Value) :
    h.contents v <+: (h.after steps).contents v := by
  induction steps generalizing h with
  | nil => exact List.prefix_rfl
  | cons s steps ih => exact (h.contents_prefix_perform s v).trans (ih _)

/-! ## Moving over a sequence -/

theorem getElem?_of_drop_eq_cons {α : Type} {xs rest : List α} {x : α} {i : Nat}
    (h : xs.drop i = x :: rest) : xs[i]? = some x ∧ xs.drop (i + 1) = rest := by
  constructor
  · rw [← List.head?_drop, h, List.head?_cons]
  · rw [← List.tail_drop, h, List.tail_cons]

/-- From where a cursor over a sequence stands, it draws the item there and goes on to the next.
At the end it stays. -/
theorem draw_along (h : Heap) {v : Value} (hv : v.isSequence = true) (i : Nat) :
    h.draw (.along v i) =
      match (h.contents v)[i]? with
      | some item => (some item, .along v (i + 1), h)
      | none => (none, .along v i, h) := by
  cases v with
  | list l =>
    cases hx : (h.list l)[i]? with
    | none => simp [Cursor.along, contents, draw, hx]
    | some item => simp [Cursor.along, contents, draw, hx]
  | tuple items =>
    cases hd : items.drop i with
    | nil =>
      have hnone : items[i]? = none := by simpa using hd
      simp [Cursor.along, contents, hd, hnone, draw]
    | cons item rest =>
      obtain ⟨hsome, hrest⟩ := getElem?_of_drop_eq_cons hd
      simp [Cursor.along, contents, hd, hsome, hrest, draw]
  | text s =>
    cases hd : s.toList.drop i with
    | nil =>
      have hnone : s.toList[i]? = none := by simpa using hd
      simp [Cursor.along, contents, hd, hnone, draw]
    | cons c rest =>
      obtain ⟨hsome, hrest⟩ := getElem?_of_drop_eq_cons hd
      simp [Cursor.along, contents, hd, hsome, hrest, draw]
  | _ => cases hv

/-- An iterator over a sequence hands out the item where it stands. At the end nothing changes. -/
theorem advance_along {h : Heap} {id : IteratorId} {v : Value} {i : Nat}
    (hv : v.isSequence = true) (hc : h.cursor id = .along v i) :
    h.advance id =
      match (h.contents v)[i]? with
      | some item => (some item, h.setCursor id (.along v (i + 1)))
      | none => (none, h) := by
  rw [advance_eq, hc, draw_along h hv]
  cases (h.contents v)[i]? with
  | some item => rfl
  | none => rw [← hc, setCursor_cursor]

end Heap

end Builtins
