-- Heaps in which all that is named is there. A new iterator comes behind all that such a heap knows,
-- so none of its values goes by another name for it.
import Builtins.Proofs.Loop.Ahead
import Builtins.Proofs.Naming.Heaps

namespace Builtins

namespace Heap

mutual

/-- Whether the lists, generators and iterators in a value are there. -/
def Knows (h : Heap) : Value → Prop
  | .list id => id.index < h.lists.size
  | .tuple items => h.KnowsAll items
  | .exception _ _ payload => h.KnowsAll payload
  | .generator id => id.index < h.generators.size
  | .iterator it => it.id.index < h.cursors.size
  | .null | .bool _ | .int _ | .text _ | .exceptionType _ | .builtin _ | .function _ _ => True

def KnowsAll (h : Heap) : List Value → Prop
  | [] => True
  | v :: vs => h.Knows v ∧ h.KnowsAll vs

end

/-- Whether what a cursor goes over is there, and all that is in it. -/
def KnowsCursor (h : Heap) : Cursor → Prop
  | .list id _ => id.index < h.lists.size
  | .tuple rest => h.KnowsAll rest
  | .text _ => True
  | .generator id => id.index < h.generators.size

/-- Whether all that a heap names is there, in its lists and where its iterators stand. -/
structure Closed (h : Heap) : Prop where
  lists : ∀ items ∈ h.lists, ∀ v ∈ items, h.Knows v
  cursors : ∀ c ∈ h.cursors, h.KnowsCursor c

variable {h : Heap}

theorem knowsAll_iff {vs : List Value} : h.KnowsAll vs ↔ ∀ v ∈ vs, h.Knows v := by
  induction vs with
  | nil => simp [KnowsAll]
  | cons v vs ih => simp [KnowsAll, ih]

/-! ## The name of a new iterator -/

mutual

/-- What is known keeps its name when an iterator comes behind all others. -/
theorem past_of_knows : ∀ {v : Value}, h.Knows v → v.past h.cursors.size = v
  | .tuple items, hv => by rw [Value.past, pastAll_of_knowsAll hv]
  | .exception id kind payload, hv => by rw [Value.past, pastAll_of_knowsAll hv]
  | .iterator it, hv => by
    have hlt : it.id.index < h.cursors.size := hv
    rw [Value.past, Iterator.past, IteratorId.past_of_lt hlt]
  | .list _, _ | .generator _, _ | .null, _ | .bool _, _ | .int _, _ | .text _, _
  | .exceptionType _, _ | .builtin _, _ | .function _ _, _ => rfl

theorem pastAll_of_knowsAll : ∀ {vs : List Value}, h.KnowsAll vs →
    Value.pastAll h.cursors.size vs = vs
  | [], _ => rfl
  | v :: vs, hvs => by rw [Value.pastAll, past_of_knows hvs.1, pastAll_of_knowsAll hvs.2]

end

theorem KnowsCursor.past_eq {c : Cursor} (hc : h.KnowsCursor c) : c.past h.cursors.size = c := by
  cases c with
  | tuple rest => rw [Cursor.past, ← Value.pastAll_eq_map, pastAll_of_knowsAll hc]
  | _ => rfl

/-- A new iterator leaves all else that there is as it is. -/
theorem Closed.room_eq (hh : h.Closed) (c : Cursor) :
    h.room h.cursors.size c = (h.newIterator c).2 := by
  have hlists : h.lists.map (·.map (Value.past h.cursors.size)) = h.lists := by
    have hsame : ∀ items ∈ h.lists, items.map (Value.past h.cursors.size) = items := by
      intro items hitems
      rw [Array.map_congr_left fun v hv => past_of_knows (hh.lists items hitems v hv), Array.map_id']
    rw [Array.map_congr_left hsame, Array.map_id']
  have hcursors : h.cursors.toList.map (Cursor.past h.cursors.size) = h.cursors.toList := by
    have hsame : ∀ c ∈ h.cursors.toList, c.past h.cursors.size = c :=
      fun c hc => (hh.cursors c (Array.mem_toList_iff.mp hc)).past_eq
    rw [List.map_congr_left hsame, List.map_id']
  have hlast : h.cursors.toList.insertIdx h.cursors.size c = h.cursors.toList ++ [c] := by
    rw [← Array.length_toList, List.insertIdx_length_self]
  simp only [room, hlists, hcursors, hlast, newIterator]
  rw [← List.push_toArray, Array.toArray_toList]

/-! ## What lies ahead -/

theorem KnowsCursor.hasCursor {c : Cursor} (hc : h.KnowsCursor c) : h.HasCursor c := by
  cases c with
  | list id index => exact hc
  | tuple rest => trivial
  | text rest => trivial
  | generator id => exact hc

theorem Knows.start {v : Value} {c : Cursor} (hv : h.Knows v) (hc : Cursor.start? v = some c) :
    h.KnowsCursor c := by
  cases v with
  | list id => cases hc; exact hv
  | tuple items => cases hc; exact hv
  | text s => cases hc; trivial
  | generator id => cases hc; exact hv
  | _ => cases hc

/-- What a loop over a known value goes by is known. -/
theorem Closed.knows_cursorOf (hh : h.Closed) {v : Value} {source : Source} (hv : h.Knows v)
    (hof : Source.of v = .ok source) : h.Has source ∧ h.KnowsCursor (h.cursorOf source) := by
  cases v with
  | iterator it =>
    cases hof
    have hlt : it.id.index < h.cursors.size := hv
    have hat : h.cursor it.id = h.cursors[it.id.index] := by
      simp [cursor, Array.getD_eq_getD_getElem?, hlt]
    have hknows : h.KnowsCursor (h.cursor it.id) := by
      rw [hat]
      exact hh.cursors _ (Array.getElem_mem hlt)
    exact ⟨⟨hlt, hknows.hasCursor⟩, hknows⟩
  | list id => cases hof; exact ⟨hv, hv⟩
  | tuple items => cases hof; exact ⟨trivial, hv⟩
  | text s => cases hof; exact ⟨trivial, trivial⟩
  | generator id => cases hof; exact ⟨hv, hv⟩
  | _ => cases hof

/-- So is all that lies ahead of it. -/
theorem Closed.knows_ahead (hh : h.Closed) {c : Cursor} (hc : h.KnowsCursor c) {x : Value}
    (hx : x ∈ h.ahead c) : h.Knows x := by
  cases c with
  | list id index =>
    have hlt : id.index < h.lists.size := hc
    have hlist : h.list id = h.lists[id.index] := by
      simp [list, Array.getD_eq_getD_getElem?, hlt]
    have hmem : x ∈ h.lists[id.index] := by
      rw [← hlist]
      exact Array.mem_toList_iff.mp (List.mem_of_mem_drop hx)
    exact hh.lists _ (Array.getElem_mem hlt) x hmem
  | tuple rest => exact knowsAll_iff.mp hc x hx
  | text rest =>
    obtain ⟨c, -, rfl⟩ := List.mem_map.mp hx
    trivial
  | generator id =>
    obtain ⟨x, -, rfl⟩ := List.mem_map.mp hx
    trivial

end Heap

end Builtins
