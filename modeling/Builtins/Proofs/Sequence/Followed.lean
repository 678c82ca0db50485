-- An iterator follows a sequence as it grows. What it has handed out so far is the beginning of
-- the sequence as it is now, whoever asked for it and whatever was appended in between.
import Builtins.Proofs.Sequence.Contents
import Builtins.Proofs.Heap.Exceptions
import Builtins.Proofs.Loop.Turns

namespace Builtins

namespace Heap

/-- What an iterator hands out while steps are made, in order. -/
def handedOut (h : Heap) (id : IteratorId) : List Step → List Value
  | [] => []
  | s :: steps =>
    (if s.iterator? = some id then (s.item? h).toList else []) ++
      (s.perform h).2.handedOut id steps

/-! ## Where the iterator stands -/

/-- An iterator stands behind the items that it has taken, and they begin the sequence. -/
structure Stands (h : Heap) (id : IteratorId) (v : Value) (taken : List Value) : Prop where
  cursor : h.cursors[id.index]? = some (.along v taken.length)
  begins : taken <+: h.contents v

variable {h : Heap} {id : IteratorId} {v : Value} {taken : List Value}

/-- The iterator that is made over a sequence has taken nothing. -/
theorem stands_newIterator (h : Heap) (v : Value) :
    (h.newIterator (.along v 0)).2.Stands (h.newIterator (.along v 0)).1.id v [] where
  cursor := by simp [newIterator]
  begins := List.nil_prefix

theorem concat_prefix_of_getElem? {α : Type} {xs ys : List α} {x : α} (hbegins : xs <+: ys)
    (hx : ys[xs.length]? = some x) : xs ++ [x] <+: ys := by
  obtain ⟨rest, rfl⟩ := hbegins
  cases rest with
  | nil => simp at hx
  | cons y rest =>
    have hy : y = x := by simpa using hx
    exact ⟨rest, by simp [hy]⟩

/-- Whatever the step, the iterator stands behind what it has handed out. -/
theorem Stands.perform (hst : h.Stands id v taken) (hv : v.isSequence = true) (s : Step) :
    (s.perform h).2.Stands id v
      (taken ++ if s.iterator? = some id then (s.item? h).toList else []) := by
  have hcursor := getElem?_cursors_perform hst.cursor s
  have hgrown := h.contents_prefix_perform s v
  by_cases hs : s.iterator? = some id
  · rw [if_pos hs] at hcursor
    rw [if_pos hs, item?_of_iterator? hs, advance_along hv (cursor_eq_of_getElem? hst.cursor)]
    rw [draw_along h hv] at hcursor
    cases hx : (h.contents v)[taken.length]? with
    | some x =>
      rw [hx] at hcursor
      exact ⟨by simpa using hcursor, (concat_prefix_of_getElem? hst.begins hx).trans hgrown⟩
    | none =>
      rw [hx] at hcursor
      exact ⟨by simpa using hcursor, by simpa using hst.begins.trans hgrown⟩
  · rw [if_neg hs] at hcursor
    rw [if_neg hs, List.append_nil]
    exact ⟨hcursor, hst.begins.trans hgrown⟩

/-- After any steps, the iterator stands behind all that it has handed out. -/
theorem Stands.after (hst : h.Stands id v taken) (hv : v.isSequence = true) (steps : List Step) :
    (h.after steps).Stands id v (taken ++ h.handedOut id steps) := by
  induction steps generalizing h taken with
  | nil => simpa [handedOut] using hst
  | cons s steps ih =>
    rw [handedOut, ← List.append_assoc]
    exact ih (hst.perform hv s)

/-- Steps that leave the cursor of the iterator as it is leave the iterator where it stands. -/
theorem Stands.of_leads (hst : h.Stands id v taken) (hv : v.isSequence = true) {h' : Heap}
    (hleads : h.Leads h') (hcursor : h'.cursor id = h.cursor id) : h'.Stands id v taken := by
  obtain ⟨steps, rfl⟩ := hleads
  have hafter := (hst.after hv steps).cursor
  rw [← cursor_eq_of_getElem? hafter, hcursor, cursor_eq_of_getElem? hst.cursor] at hafter
  exact ⟨hafter, hst.begins.trans (h.contents_prefix_after steps v)⟩

/-! ## Where a loop stands -/

/-- What a loop goes by stands behind the items that were taken, and they begin the sequence. -/
def HasTaken (h : Heap) (v : Value) (taken : List Value) : Source → Prop
  | .shared id => h.Stands id v taken
  | .own c => c = .along v taken.length ∧ taken <+: h.contents v

theorem HasTaken.begins {source : Source} (ht : h.HasTaken v taken source) :
    taken <+: h.contents v := by
  cases source with
  | shared id => exact Stands.begins ht
  | own c => exact ht.2

/-- A loop takes the item behind those that were taken, and keeps its iterator. -/
theorem HasTaken.some {source source' : Source} {h' : Heap} {item : Value}
    (ht : h.HasTaken v taken source) (hv : v.isSequence = true)
    (hsome : h.takeFrom source = ((some item, source'), h')) :
    h'.HasTaken v (taken ++ [item]) source' ∧
      ∀ id, source' = .shared id → source = .shared id := by
  cases source with
  | shared id =>
    have hturn := Stands.perform ht hv (.turn (.shared id))
    simp only [takeFrom, Prod.mk.injEq] at hsome
    obtain ⟨⟨hitem, rfl⟩, rfl⟩ := hsome
    refine ⟨?_, fun _ he => he⟩
    simpa [Step.perform, Step.iterator?, Step.item?, takeFrom, hitem, HasTaken] using hturn
  | own c =>
    obtain ⟨rfl, hbegins⟩ := ht
    simp only [takeFrom, draw_along h hv] at hsome
    cases hx : (h.contents v)[taken.length]? with
    | none => simp [hx] at hsome
    | some x =>
      simp only [hx, Prod.mk.injEq, Option.some.injEq] at hsome
      obtain ⟨⟨rfl, rfl⟩, rfl⟩ := hsome
      exact ⟨⟨by simp, concat_prefix_of_getElem? hbegins hx⟩, by simp⟩

/-- A loop that finds nothing more has taken the whole sequence, and nothing changes. -/
theorem HasTaken.none {source source' : Source} {h' : Heap} (ht : h.HasTaken v taken source)
    (hv : v.isSequence = true) (hnone : h.takeFrom source = ((none, source'), h')) :
    h' = h ∧ taken = h.contents v := by
  have hend : (h.contents v)[taken.length]? = Option.none → taken = h.contents v := by
    intro hx
    exact ht.begins.eq_of_length_le (List.getElem?_eq_none_iff.mp hx)
  cases source with
  | shared id =>
    have hcursor := cursor_eq_of_getElem? (Stands.cursor ht)
    simp only [takeFrom, advance_along hv hcursor] at hnone
    cases hx : (h.contents v)[taken.length]? with
    | some x => simp [hx] at hnone
    | none =>
      simp only [hx, Prod.mk.injEq] at hnone
      exact ⟨hnone.2.symm, hend hx⟩
  | own c =>
    obtain ⟨rfl, -⟩ := ht
    simp only [takeFrom, draw_along h hv] at hnone
    cases hx : (h.contents v)[taken.length]? with
    | some x => simp [hx] at hnone
    | none =>
      simp only [hx, Prod.mk.injEq] at hnone
      exact ⟨hnone.2.symm, hend hx⟩

/-- Steps leave a loop where it stands, as long as they leave its iterator alone. -/
theorem HasTaken.of_leads {source : Source} {h' : Heap} (ht : h.HasTaken v taken source)
    (hv : v.isSequence = true) (hleads : h.Leads h')
    (halone : ∀ id, source = .shared id → h'.cursor id = h.cursor id) :
    h'.HasTaken v taken source := by
  cases source with
  | shared id => exact Stands.of_leads ht hv hleads (halone id rfl)
  | own c =>
    obtain ⟨steps, rfl⟩ := hleads
    exact ⟨ht.1, ht.2.trans (h.contents_prefix_after steps v)⟩

end Heap

/-! ## Laps over a sequence -/

/-- Only the loop takes from its iterator, if it goes by one: no body has moved it. -/
def Undisturbed (source : Source) (turns : List Turn) : Prop :=
  ∀ id, source = .shared id →
    ∀ t ∈ turns, t.finish.heap.cursor id = t.start.heap.cursor id

/-- Nobody can disturb a loop with a cursor of its own. -/
theorem undisturbed_own (c : Cursor) (turns : List Turn) : Undisturbed (.own c) turns :=
  fun _ hid => nomatch hid

namespace Laps

variable {source last : Source} {w w' : World} {turns : List Turn} {v : Value}
  {taken : List Value}

/-- A loop takes one item after the other. -/
theorem hasTaken (hlaps : Laps source w turns last w') (hv : v.isSequence = true)
    (halone : Undisturbed source turns) (ht : w.heap.HasTaken v taken source) :
    w'.heap.HasTaken v (taken ++ turns.map (·.item)) last := by
  induction hlaps generalizing taken with
  | done source w => simpa using ht
  | lap hsome hbody _ ih =>
    obtain ⟨hnext, hkept⟩ := ht.some hv hsome
    have hbegun := hnext.of_leads hv hbody fun id hid =>
      halone id (hkept id hid) _ List.mem_cons_self
    have hrest : Undisturbed _ _ := fun id hid t ht =>
      halone id (hkept id hid) t (List.mem_cons_of_mem _ ht)
    simpa using ih hrest hbegun

/-- The items that a loop has taken begin the sequence as it is now, and if the loop finds no
other then they are all of it. -/
theorem items (hlaps : Laps source w turns last w') (hv : v.isSequence = true)
    (halone : Undisturbed source turns) (ht : w.heap.HasTaken v taken source) :
    taken ++ turns.map (·.item) <+: w'.heap.contents v ∧
      ∀ source' h, w'.heap.takeFrom last = ((none, source'), h) →
        h = w'.heap ∧ taken ++ turns.map (·.item) = w'.heap.contents v := by
  have hlast := hlaps.hasTaken hv halone ht
  exact ⟨hlast.begins, fun source' h hnone => hlast.none hv hnone⟩

end Laps

/-- A loop over a sequence that has ended has fed its items to the body, as many as there was
time for. -/
theorem Turns.items {β : Type} {body : β → Value → Action β} {source : Source} {acc : β}
    {w w' : World} {turns : List Turn} {answer : Except Fault β} {v : Value}
    {taken : List Value} (hturns : Turns body source acc w turns answer w')
    (hbody : ∀ acc item, (body acc item).Stepwise) (hv : v.isSequence = true)
    (halone : Undisturbed source turns) (ht : w.heap.HasTaken v taken source) :
    taken ++ turns.map (·.item) <+: w'.heap.contents v ∧
      ∀ result, answer = .ok result → taken ++ turns.map (·.item) = w'.heap.contents v := by
  obtain ⟨last, w₁, hlaps, hover, hfailed⟩ := hturns.laps hbody
  obtain ⟨hbegins, hall⟩ := hlaps.items hv halone ht
  cases answer with
  | error fault =>
    rw [hfailed fault rfl]
    exact ⟨hbegins, by simp⟩
  | ok result =>
    obtain ⟨source', h, hnone, rfl⟩ := hover result rfl
    obtain ⟨rfl, heq⟩ := hall source' h hnone
    exact ⟨hbegins, fun _ _ => heq⟩

end Builtins
