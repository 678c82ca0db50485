-- A heap with one more iterator. Whatever is done to it by the names that it has for things is what
-- is done to the heap without that iterator, and the iterator stays where it stands.
import Builtins.Builtin.Behaviour
import Builtins.Proofs.Heap.Steps
import Builtins.Proofs.Naming.Values
import Mathlib.Data.List.InsertIdx

namespace List

variable {α : Type} {n : Nat} {xs : List α} {x y : α}

theorem insertIdx_concat (hn : n ≤ xs.length) :
    (xs ++ [x]).insertIdx n y = xs.insertIdx n y ++ [x] := by
  induction n generalizing xs with
  | zero => rfl
  | succ n ih =>
    cases xs with
    | nil => simp at hn
    | cons z xs => simp [ih (Nat.le_of_succ_le_succ hn)]

theorem set_insertIdx (i : Nat) :
    (xs.insertIdx n y).set (if i < n then i else i + 1) x = (xs.set i x).insertIdx n y := by
  induction n generalizing xs i with
  | zero => simp
  | succ n ih =>
    cases xs with
    | nil => simp
    | cons z xs =>
      cases i with
      | zero => simp
      | succ i =>
        have hi := @ih xs i
        by_cases hlt : i < n
        · simpa [hlt] using hi
        · simpa [hlt] using hi

theorem set_insertIdx_self : (xs.insertIdx n y).set n x = xs.insertIdx n x := by
  induction n generalizing xs with
  | zero => rfl
  | succ n ih =>
    cases xs with
    | nil => rfl
    | cons z xs => simp [ih]

end List

namespace Builtins

namespace Heap

/-- The heap with one more iterator, which has the number `n` and stands at `c`. -/
def room (h : Heap) (n : Nat) (c : Cursor) : Heap where
  lists := h.lists.map (·.map (Value.past n))
  generators := h.generators
  cursors := ((h.cursors.toList.map (Cursor.past n)).insertIdx n c).toArray
  exceptions := h.exceptions

variable {n : Nat} {h : Heap} {c₀ : Cursor}

/-! ## What is found in it -/

@[simp] theorem list_room (id : ListId) :
    (h.room n c₀).list id = (h.list id).map (Value.past n) := by
  by_cases hid : id.index < h.lists.size
  · simp [room, list, Array.getD_eq_getD_getElem?, hid]
  · simp [room, list, Array.getD_eq_getD_getElem?, hid]

theorem getElem?_cursors_room (i : Nat) :
    (h.room n c₀).cursors[i]? =
      if i < n then h.cursors[i]?.map (Cursor.past n)
      else if i = n then if i ≤ h.cursors.size then some c₀ else none
      else h.cursors[i - 1]?.map (Cursor.past n) := by
  simp [room, List.getElem?_insertIdx]

theorem getElem?_cursors_past (id : IteratorId) :
    (h.room n c₀).cursors[(id.past n).index]? = h.cursors[id.index]?.map (Cursor.past n) := by
  rw [getElem?_cursors_room, IteratorId.index_past]
  by_cases hlt : id.index < n
  · simp [hlt]
  · have hge : ¬ id.index + 1 < n := by omega
    have hne : id.index + 1 ≠ n := by omega
    simp [hlt, hge, hne]

@[simp] theorem cursor_past (id : IteratorId) :
    (h.room n c₀).cursor (id.past n) = (h.cursor id).past n := by
  have hfound : (h.room n c₀).cursors[(id.past n).index]? = _ := getElem?_cursors_past id
  simp only [cursor, Array.getD_eq_getD_getElem?, hfound]
  cases h.cursors[id.index]? <;> rfl

theorem size_cursors_room (hn : n ≤ h.cursors.size) :
    (h.room n c₀).cursors.size = h.cursors.size + 1 := by
  simp [room, List.length_insertIdx, hn]

theorem cursor_room_self (hn : n ≤ h.cursors.size) : (h.room n c₀).cursor ⟨n⟩ = c₀ := by
  simp [cursor, Array.getD_eq_getD_getElem?, getElem?_cursors_room, hn]

/-! ## What is put in it -/

@[simp] theorem newList_room (items : Array Value) :
    (h.room n c₀).newList (items.map (Value.past n)) =
      ((h.newList items).1, (h.newList items).2.room n c₀) := by
  simp [newList, room]

@[simp] theorem append_room (id : ListId) (item : Value) :
    (h.room n c₀).append id (item.past n) = (h.append id item).room n c₀ := by
  have hlists : (h.lists.map (·.map (Value.past n))).modify id.index (·.push (item.past n)) =
      (h.lists.modify id.index (·.push item)).map (·.map (Value.past n)) := by
    apply Array.ext_getElem?
    intro i
    by_cases hi : id.index = i
    · subst hi
      cases hl : h.lists[id.index]? <;> simp [Array.getElem?_modify, hl]
    · simp [Array.getElem?_modify, hi]
  simp only [append, room, hlists]

@[simp] theorem resume_room (id : GeneratorId) :
    (h.room n c₀).resume id = ((h.resume id).1, (h.resume id).2.room n c₀) := rfl

@[simp] theorem newGenerator_room (p : Progression) :
    (h.room n c₀).newGenerator p = ((h.newGenerator p).1, (h.newGenerator p).2.room n c₀) := rfl

@[simp] theorem newException_room (kind : ExceptionKind) (payload : List Value) :
    (h.room n c₀).newException kind (payload.map (Value.past n)) =
      ((h.newException kind payload).1.past n, (h.newException kind payload).2.room n c₀) := rfl

/-- A new iterator has the next number in either heap. -/
theorem newIterator_room (hn : n ≤ h.cursors.size) (c : Cursor) :
    (h.room n c₀).newIterator (c.past n) =
      ((h.newIterator c).1.past n, (h.newIterator c).2.room n c₀) := by
  have hid : (⟨h.cursors.size + 1⟩ : IteratorId) = IteratorId.past n ⟨h.cursors.size⟩ := by
    rw [IteratorId.past, if_neg (by simpa using hn)]
  have hcursors : (h.room n c₀).cursors.push (c.past n) =
      ((h.newIterator c).2.room n c₀).cursors := by
    simp [room, newIterator, List.insertIdx_concat, hn]
  have hheap : (h.newIterator c).2.room n c₀ =
      { h.room n c₀ with cursors := ((h.newIterator c).2.room n c₀).cursors } := rfl
  rw [hheap, ← hcursors]
  simp only [newIterator, Cursor.kind_past, size_cursors_room hn, hid, Iterator.past]

@[simp] theorem setCursor_past (id : IteratorId) (c : Cursor) :
    (h.room n c₀).setCursor (id.past n) (c.past n) = (h.setCursor id c).room n c₀ := by
  have hcursors : (h.room n c₀).cursors.setIfInBounds (id.past n).index (c.past n) =
      ((h.setCursor id c).room n c₀).cursors := by
    simp [room, setCursor, IteratorId.index_past, List.set_insertIdx]
  have hheap : (h.setCursor id c).room n c₀ =
      { h.room n c₀ with cursors := ((h.setCursor id c).room n c₀).cursors } := rfl
  rw [hheap, ← hcursors]
  rfl

/-- The iterator that is one more can be put anywhere. -/
@[simp] theorem setCursor_room_self (c : Cursor) :
    (h.room n c₀).setCursor ⟨n⟩ c = h.room n c := by
  simp [setCursor, room, List.set_insertIdx_self]

/-! ## Going over it -/

@[simp] theorem draw_past (c : Cursor) :
    (h.room n c₀).draw (c.past n) =
      ((h.draw c).1.map (Value.past n), (h.draw c).2.1.past n, (h.draw c).2.2.room n c₀) := by
  cases c with
  | list l index =>
    cases hi : (h.list l)[index]? <;> simp [draw, Cursor.past, hi]
  | tuple rest => cases rest <;> simp [draw, Cursor.past]
  | text rest => cases rest <;> simp [draw, Cursor.past]
  | generator g =>
    have hvalue : ∀ value? : Option Word,
        value?.map Value.int = (value?.map Value.int).map (Value.past n) := by
      rintro (_ | x) <;> rfl
    simp only [draw, Cursor.past, resume_room]
    rw [← hvalue]

@[simp] theorem advance_past (id : IteratorId) :
    (h.room n c₀).advance (id.past n) =
      ((h.advance id).1.map (Value.past n), (h.advance id).2.room n c₀) := by
  simp [advance_eq]

@[simp] theorem takeFrom_past (source : Source) :
    (h.room n c₀).takeFrom (source.past n) =
      (((h.takeFrom source).1.1.map (Value.past n), (h.takeFrom source).1.2.past n),
        (h.takeFrom source).2.room n c₀) := by
  cases source with
  | shared id => simp [takeFrom, Source.past]
  | own c => simp [takeFrom, Source.past]

/-- The iterator that is one more is drawn from as its cursor is, and moves on with it. -/
theorem takeFrom_room_self (hn : n ≤ h.cursors.size) (c : Cursor) :
    (h.room n (c.past n)).takeFrom (.shared ⟨n⟩) =
      (((h.draw c).1.map (Value.past n), .shared ⟨n⟩),
        (h.draw c).2.2.room n ((h.draw c).2.1.past n)) := by
  simp [takeFrom, advance_eq, cursor_room_self hn]

/-! ## Iterators of values -/

theorem iterate_of_start? {v : Value} {c : Cursor} (hv : Cursor.start? v = some c) :
    h.iterate v = (.ok (h.newIterator c).1, (h.newIterator c).2) := by
  cases v with
  | iterator it => cases hv
  | _ => simp [iterate, hv]

theorem iterate_past (hn : n ≤ h.cursors.size) (v : Value) :
    (h.room n c₀).iterate (v.past n) =
      (answerPast n (Iterator.past n) (h.iterate v).1, (h.iterate v).2.room n c₀) := by
  cases hv : Cursor.start? v with
  | some c =>
    have hpast : Cursor.start? (v.past n) = some (c.past n) := by rw [Value.start?_past, hv]; rfl
    rw [iterate_of_start? hv, iterate_of_start? hpast, newIterator_room hn]
    rfl
  | none => cases v <;> simp [iterate, Cursor.start?, answerPast, Value.typeName, Fault.past] at hv ⊢

theorem iter_past (hn : n ≤ h.cursors.size) (v : Value) :
    (h.room n c₀).iter (v.past n) =
      (answerPast n (Value.past n) (h.iter v).1, (h.iter v).2.room n c₀) := by
  have hmap : ∀ it : Except Fault Iterator, (answerPast n (Iterator.past n) it).map Value.iterator =
      answerPast n (Value.past n) (it.map .iterator) := by
    rintro (fault | it) <;> rfl
  have hiterate : (h.room n c₀).iterate (v.past n) = _ := iterate_past hn v
  cases v with
  | generator id => rfl
  | iterator it => rfl
  | _ => simpa only [iter, Value.past, Value.pastAll, hmap] using
      congrArg (fun p => (p.1.map Value.iterator, p.2)) hiterate

theorem resumeValue_room (id : GeneratorId) :
    (h.room n c₀).resumeValue id =
      (answerPast n (Value.past n) (h.resumeValue id).1, (h.resumeValue id).2.room n c₀) := by
  simp only [resumeValue_eq, resume_room]
  cases (h.resume id).1.value? <;> rfl

theorem next_past (v : Value) :
    (h.room n c₀).next (v.past n) =
      (answerPast n (Value.past n) (h.next v).1, (h.next v).2.room n c₀) := by
  cases v with
  | generator id => exact resumeValue_room id
  | iterator it =>
    rw [Value.past_iterator, next_iterator_eq, next_iterator_eq, Iterator.past, advance_past]
    cases (h.advance it.id).1 <;> rfl
  | _ => simp [next, answerPast, Value.typeName, Fault.past]

/-! ## Sums and deeds -/

theorem add_past (a b : Value) :
    (h.room n c₀).add (a.past n) (b.past n) =
      (answerPast n (Value.past n) (h.add a b).1, (h.add a b).2.room n c₀) := by
  have hwords : Value.addWords a b = answerPast n (Value.past n) (Value.addWords a b) := by
    unfold Value.addWords
    split
    · split <;> rfl
    · rfl
  have hmore := hwords.symm.trans (Value.addWords_past n a b).symm
  cases a with
  | text s =>
    cases b with
    | text t => simp [add, answerPast]
    | _ => simpa [add] using hmore.symm
  | list l =>
    cases b with
    | list m => simp [add, answerPast, ← Array.map_append]
    | _ => simpa [add] using hmore.symm
  | tuple xs =>
    cases b with
    | tuple ys => simp [add, answerPast]
    | _ => simpa [add] using hmore.symm
  | _ => simpa [add] using hmore.symm

end Heap

/-- A deed when there is one more iterator, with the number `n`. -/
def Deed.past (n : Nat) : Deed → Deed
  | newList items => .newList (items.map (Value.past n))
  | newException kind payload => .newException kind (payload.map (Value.past n))
  | append list item => .append list (item.past n)
  | add a b => .add (a.past n) (b.past n)
  | iter v => .iter (v.past n)
  | iterate v => .iterate (v.past n)
  | next v => .next (v.past n)
  | resume id => .resume id

theorem Deed.perform_past {n : Nat} {h : Heap} {c₀ : Cursor} (hn : n ≤ h.cursors.size) (d : Deed) :
    (d.past n).perform (h.room n c₀) =
      (answerPast n (Value.past n) (d.perform h).1, (d.perform h).2.room n c₀) := by
  cases d with
  | newList items =>
    have hitems : (items.map (Value.past n)).toArray = items.toArray.map (Value.past n) := by simp
    simp only [past, perform, hitems, Heap.newList_room]
    rfl
  | newException kind payload =>
    simp only [past, perform, Heap.newException_room, answerPast, Value.past_toValue]
  | append list item => simp [past, perform, answerPast]
  | add a b => exact Heap.add_past a b
  | iter v => exact Heap.iter_past hn v
  | iterate v =>
    simp only [past, perform, Heap.iterate_past hn]
    cases (h.iterate v).1 <;> rfl
  | next v => exact Heap.next_past v
  | resume id =>
    simp only [past, perform, Heap.resume_room]
    cases (h.resume id).1 <;> rfl

/-! ## What is read from it -/

mutual

/-- The text of a value does not tell the number of an iterator, if that of no list does. -/
theorem Value.render_past {n : Nat} {lists lists' : ListId → Snapshot}
    (hlists : ∀ id, (lists' id).render = (lists id).render) :
    ∀ v : Value, ((v.past n).snapshotWith lists').render = (v.snapshotWith lists).render
  | .list id => hlists id
  | .tuple items => by
    simp only [past, snapshotWith, Snapshot.render, Value.renderAll_past hlists items]
  | .exception id kind payload => by
    simp only [past, snapshotWith, Snapshot.render, Value.renderAll_past hlists payload]
  | .null | .bool _ | .int _ | .text _ | .exceptionType _ | .generator _ | .iterator _
  | .builtin _ | .function _ _ => rfl

theorem Value.renderAll_past {n : Nat} {lists lists' : ListId → Snapshot}
    (hlists : ∀ id, (lists' id).render = (lists id).render) :
    ∀ vs : List Value, Snapshot.renderAll (snapshotsWith lists' (pastAll n vs)) =
      Snapshot.renderAll (snapshotsWith lists vs)
  | [] => rfl
  | v :: vs => by
    simp only [pastAll, snapshotsWith, Snapshot.renderAll, Value.render_past hlists v,
      Value.renderAll_past hlists vs]

end

namespace Heap

variable {n : Nat} {h : Heap} {c₀ : Cursor}

theorem render_listSnapshot_room (depth : Nat) (id : ListId) :
    ((h.room n c₀).listSnapshot depth id).render = (h.listSnapshot depth id).render := by
  induction depth generalizing id with
  | zero => rfl
  | succ depth ih =>
    simp only [listSnapshot, Snapshot.render, list_room, Array.toList_map, ← Value.pastAll_eq_map,
      Value.renderAll_past ih]

@[simp] theorem repr_past (v : Value) : (h.room n c₀).repr (v.past n) = h.repr v := by
  have hsize : (h.room n c₀).lists.size = h.lists.size := by simp [room]
  unfold repr snapshot
  rw [hsize]
  exact Value.render_past (render_listSnapshot_room _) v

@[simp] theorem display_past (v : Value) : (h.room n c₀).display (v.past n) = h.display v := by
  cases v with
  | text s => rfl
  | _ => exact repr_past _

@[simp] theorem displayAll_past (vs : List Value) :
    (h.room n c₀).displayAll (vs.map (Value.past n)) = h.displayAll vs := by
  simp [displayAll, Function.comp_def]

@[simp] theorem truthy_past (v : Value) : (h.room n c₀).truthy (v.past n) = h.truthy v := by
  cases v <;> simp [truthy, Array.isEmpty]

end Heap

theorem Builtin.length_past {n : Nat} {h : Heap} {c₀ : Cursor} (v : Value) :
    Builtin.length (h.room n c₀) (v.past n) =
      answerPast n (Value.past n) (Builtin.length h v) := by
  cases v <;> simp [Builtin.length, answerPast, Fault.past, Value.typeName, Iterator.past]

/-! ## Iterators stay -/

theorem Heap.size_cursors_le_perform (h : Heap) (s : Step) :
    h.cursors.size ≤ (s.perform h).2.cursors.size := by
  have hcursors := h.cursors_perform s
  split at hcursors
  · exact Nat.le_of_eq (by rw [hcursors, Array.size_setIfInBounds])
  · rcases hcursors with he | ⟨c, he⟩
    · exact Nat.le_of_eq (by rw [he])
    · rw [he, Array.size_push]
      exact Nat.le_succ _

end Builtins
