-- A sum turn by turn. Its loop takes items and makes lists, and neither is in the way of the other:
-- after some turns, what the loop goes by is where the items leave it, and the lists are those that
-- the additions leave.
import Builtins.Proofs.Loop.Taken

namespace Builtins

open Builtins.Action

namespace Heap

/-- A heap with the lists of another one. -/
def withLists (h g : Heap) : Heap := { h with lists := g.lists }

variable {h g : Heap} {source : Source} {items : List Value} {start total : Value} {n : Nat}

/-! ## Additions -/

/-- An addition has to do with nothing but the lists. -/
theorem add_withLists (h g : Heap) (a b : Value) :
    (h.withLists g).add a b = ((g.add a b).1, h.withLists (g.add a b).2) := by
  cases a <;> cases b <;> rfl

/-- What the first `n + 1` items come to is the next item added to what the first `n` come to. -/
theorem addAll_take_succ (hn : n < items.length) (h : Heap) (start : Value) :
    h.addAll start (items.take (n + 1)) =
      match h.addAll start (items.take n) with
      | (.ok total, g) => g.add total items[n]
      | (.error fault, g) => (.error fault, g) := by
  rw [List.take_succ_eq_append_getElem hn, addAll_append]
  rcases h.addAll start (items.take n) with ⟨fault | total, g⟩
  · rfl
  · simp only [addAll]
    rcases g.add total items[n] with ⟨fault | total', g'⟩ <;> rfl

/-! ## Turns -/

/-- To draw an item has nothing to do with the lists but for the one that the cursor goes over. -/
theorem draw_withLists {c : Cursor} (hsame : ∀ l i, c = .list l i → g.list l = h.list l) :
    (h.withLists g).draw c = ((h.draw c).1, (h.draw c).2.1, (h.draw c).2.2.withLists g) := by
  cases c with
  | list l i =>
    have hlist : (h.withLists g).list l = h.list l := hsame l i rfl
    simp only [draw, hlist]
    cases (h.list l)[i]? <;> rfl
  | tuple rest => cases rest <;> rfl
  | text rest => cases rest <;> rfl
  | generator id => rfl

theorem takeFrom_withLists
    (hsame : ∀ l i, h.cursorOf source = .list l i → g.list l = h.list l) :
    (h.withLists g).takeFrom source = ((h.takeFrom source).1, (h.takeFrom source).2.withLists g) := by
  cases source with
  | own c => simp only [takeFrom, draw_withLists (c := c) hsame]
  | shared id =>
    have hdraw := draw_withLists (c := h.cursor id) hsame
    have hcursor : (h.withLists g).cursor id = h.cursor id := rfl
    simp only [takeFrom, advance, hcursor, hdraw]
    rfl

@[simp] theorem lists_taken (h : Heap) (source : Source) (n : Nat) :
    (h.taken source n).2.lists = h.lists := by
  induction n with
  | zero => rfl
  | succ n ih => exact ((h.taken source n).2.lists_takeFrom (h.taken source n).1).trans ih

/-- What items have been taken from is there. -/
theorem has_taken (hahead : h.ahead (h.cursorOf source) = items) (hn : n < items.length) :
    (h.taken source (n + 1)).2.Has (h.taken source (n + 1)).1 :=
  has_of_takeFrom_some (takeFrom_taken hahead hn)

/-- The list that items have been taken from is not one of those that are made meanwhile. -/
theorem list_eq_of_cursorOf_taken (hahead : h.ahead (h.cursorOf source) = items)
    (hn : n < items.length) (hmore : h.Extends g) {l : ListId} {i : Nat}
    (hcursor : (h.taken source (n + 1)).2.cursorOf (h.taken source (n + 1)).1 = .list l i) :
    g.list l = (h.taken source (n + 1)).2.list l := by
  have hhas := has_taken hahead hn
  have hknown : l.index < h.lists.size := by
    rcases hsource : (h.taken source (n + 1)).1 with id | c <;> rw [hsource] at hhas hcursor
    · have hc := hhas.2
      rw [show (h.taken source (n + 1)).2.cursor id = .list l i from hcursor] at hc
      simpa only [HasCursor, lists_taken] using hc
    · have hc : (h.taken source (n + 1)).2.HasCursor c := hhas
      rw [show c = .list l i from hcursor] at hc
      simpa only [HasCursor, lists_taken] using hc
  rw [hmore.list l hknown, list_eq_of_lists_eq (lists_taken h source (n + 1))]

/-- When some items have been added up, the loop takes the next one as if no list had been made. -/
theorem takeFrom_taken_withLists (hahead : h.ahead (h.cursorOf source) = items)
    (hn : n ≤ items.length) (hadds : h.addAll start (items.take n) = (.ok total, g)) :
    ((h.taken source n).2.withLists g).takeFrom (h.taken source n).1 =
      (((h.taken source n).2.takeFrom (h.taken source n).1).1,
        ((h.taken source n).2.takeFrom (h.taken source n).1).2.withLists g) := by
  apply takeFrom_withLists
  intro l i hcursor
  cases n with
  | zero =>
    obtain rfl : h = g := congrArg Prod.snd hadds
    rfl
  | succ n =>
    have hmore := h.extends_addAll start (items.take (n + 1))
    rw [hadds] at hmore
    exact list_eq_of_cursorOf_taken hahead hn hmore hcursor

/-- New lists are not in the way of the items that are still ahead. -/
theorem ahead_taken_withLists (hahead : h.ahead (h.cursorOf source) = items)
    (hn : n < items.length) (hmore : h.Extends g) :
    ((h.taken source (n + 1)).2.withLists g).ahead
        (((h.taken source (n + 1)).2.withLists g).cursorOf (h.taken source (n + 1)).1) =
      items.drop (n + 1) := by
  rw [← ahead_taken hahead hn]
  have hcursor : ((h.taken source (n + 1)).2.withLists g).cursorOf (h.taken source (n + 1)).1 =
      (h.taken source (n + 1)).2.cursorOf (h.taken source (n + 1)).1 := by
    cases (h.taken source (n + 1)).1 <;> rfl
  rw [hcursor]
  rcases hc : (h.taken source (n + 1)).2.cursorOf (h.taken source (n + 1)).1 with
    ⟨l, i⟩ | rest | rest | id
  · exact congrArg (·.toList.drop i) (list_eq_of_cursorOf_taken hahead hn hmore hc)
  · rfl
  · rfl
  · rfl

end Heap

/-! ## The loop -/

section Loop

variable {source : Source} {items : List Value} {start total : Value} {w : World} {g : Heap}
  {n : Nat}

/-- As long as additions succeed, a loop that adds goes on. -/
theorem ends_addLoop_after (hahead : w.heap.ahead (w.heap.cursorOf source) = items)
    (hn : n ≤ items.length) (hadds : w.heap.addAll start (items.take n) = (.ok total, g))
    {fuel : Nat} {answer : Except Fault Value} {w' : World} :
    Ends (Run.loop Builtin.addItem source (fuel + n) start) w answer w' ↔
      Ends (Run.loop Builtin.addItem (w.heap.taken source n).1 fuel total)
        ⟨(w.heap.taken source n).2.withLists g, w.output⟩ answer w' := by
  induction n generalizing fuel total g with
  | zero =>
    cases hadds
    exact Iff.rfl
  | succ n ih =>
    have hlt : n < items.length := hn
    rw [Heap.addAll_take_succ hlt] at hadds
    rcases hbefore : w.heap.addAll start (items.take n) with ⟨fault | total', g'⟩ <;>
      rw [hbefore] at hadds
    · cases hadds
    · have htake := Heap.takeFrom_taken_withLists hahead (Nat.le_of_lt hlt) hbefore
      rw [Heap.takeFrom_taken hahead hlt] at htake
      have hsum := Heap.add_withLists (w.heap.taken source (n + 1)).2 g' total' items[n]
      rw [show g'.add total' items[n] = (.ok total, g) from hadds] at hsum
      have hturn : (Builtin.addItem total' items[n]).Ends
          ⟨(w.heap.taken source (n + 1)).2.withLists g', w.output⟩ (.ok total)
          ⟨(w.heap.taken source (n + 1)).2.withLists g, w.output⟩ :=
        ends_attempt_of_eq hsum
      rw [show fuel + (n + 1) = fuel + 1 + n by omega, ih (Nat.le_of_lt hlt) hbefore,
        ends_loop_succ_iff]
      simp only [htake]
      exact ends_bind_of_ends hturn

/-- If all additions succeed, the loop comes to what they come to. -/
theorem ends_addLoop_of_ok (hahead : w.heap.ahead (w.heap.cursorOf source) = items)
    (hadds : w.heap.addAll start items = (.ok total, g)) :
    Ends (Run.loop Builtin.addItem source (1 + items.length) start) w (.ok total)
      ⟨(w.heap.taken source (items.length + 1)).2.withLists g, w.output⟩ := by
  rw [← items.take_length] at hadds
  have htake := Heap.takeFrom_taken_withLists hahead (Nat.le_refl _) hadds
  rw [Heap.takeFrom_taken_length hahead] at htake
  apply (ends_addLoop_after hahead (Nat.le_refl _) hadds).mpr
  apply ends_loop_succ_iff.mpr
  simp [htake]

/-- At the first addition that fails, the loop fails with its fault, and has taken the item. -/
theorem ends_addLoop_of_error (hahead : w.heap.ahead (w.heap.cursorOf source) = items)
    (hlt : n < items.length) (hadds : w.heap.addAll start (items.take n) = (.ok total, g))
    {fault : Fault} (hfails : g.add total items[n] = (.error fault, g)) :
    Ends (Run.loop Builtin.addItem source (1 + n) start) w (.error fault)
      ⟨(w.heap.taken source (n + 1)).2.withLists g, w.output⟩ := by
  have htake := Heap.takeFrom_taken_withLists hahead (Nat.le_of_lt hlt) hadds
  rw [Heap.takeFrom_taken hahead hlt] at htake
  have hsum := Heap.add_withLists (w.heap.taken source (n + 1)).2 g total items[n]
  rw [hfails] at hsum
  have hturn : (Builtin.addItem total items[n]).Ends
      ⟨(w.heap.taken source (n + 1)).2.withLists g, w.output⟩ (.error fault)
      ⟨(w.heap.taken source (n + 1)).2.withLists g, w.output⟩ :=
    ends_attempt_of_eq hsum
  apply (ends_addLoop_after hahead (Nat.le_of_lt hlt) hadds).mpr
  apply ends_loop_succ_iff.mpr
  simp only [htake]
  exact ends_bind_iff.mpr (Or.inl ⟨fault, hturn, rfl⟩)

end Loop

end Builtins
