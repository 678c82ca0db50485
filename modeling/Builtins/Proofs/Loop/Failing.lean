-- Loops that are broken off. The call that fails is the last one that a loop makes, and the items
-- behind that call stay ahead of what the loop goes by, if nothing takes any of them meanwhile. A loop
-- that is not broken off leaves nothing ahead.
import Builtins.Proofs.Iteration.Order

namespace Builtins

open Builtins.Action

/-! ## Steps that leave a loop alone -/

/-- Whether a step takes an item from what a loop goes by, also through another handle, or appends one
to the list under it. -/
inductive Step.Touches (h : Heap) (source : Source) : Step → Prop
  | iterator {s : Step} {id : IteratorId} (hsource : source = .shared id)
    (hstep : s.iterator? = some id) : Touches h source s
  | generator {s : Step} {g : GeneratorId} (hcursor : h.cursorOf source = .generator g)
    (hstep : s.generator? h = some g) : Touches h source s
  | list {l : ListId} {i : Nat} {item : Value} (hcursor : h.cursorOf source = .list l i) :
    Touches h source (.deed (.append l item))

/-- Whether none of some steps touches what a loop goes by. -/
def Heap.Spared (source : Source) : Heap → List Step → Prop
  | _, [] => True
  | h, s :: steps => ¬ s.Touches h source ∧ Heap.Spared source (s.perform h).2 steps

namespace Heap

variable {h h' : Heap} {source source' : Source}

/-- A step that does not touch what a loop goes by leaves its place. -/
theorem Has.cursorOf_perform {s : Step} (hs : h.Has source) (hspared : ¬ s.Touches h source) :
    (s.perform h).2.cursorOf source = h.cursorOf source := by
  cases source with
  | own c => rfl
  | shared id =>
    have hget : h.cursors[id.index]? = some (h.cursor id) := by
      simp [cursor, Array.getD_eq_getD_getElem?, hs.1]
    have hstays : s.iterator? ≠ some id := fun hstep => hspared (.iterator rfl hstep)
    have hnext := getElem?_cursors_perform hget s
    rw [if_neg hstays] at hnext
    exact cursor_eq_of_getElem? hnext

theorem Has.hasCursor (hs : h.Has source) : h.HasCursor (h.cursorOf source) := by
  cases source with
  | own c => exact hs
  | shared id => exact hs.2

/-- And it leaves what lies ahead. -/
theorem Has.ahead_perform {s : Step} (hs : h.Has source) (hspared : ¬ s.Touches h source) :
    (s.perform h).2.ahead ((s.perform h).2.cursorOf source) = h.ahead (h.cursorOf source) := by
  rw [hs.cursorOf_perform hspared]
  have hc := hs.hasCursor
  rcases hcursor : h.cursorOf source with ⟨l, i⟩ | rest | rest | g <;> rw [hcursor] at hc
  · have hlist : (s.perform h).2.list l = h.list l := by
      rcases h.lists_perform s with ⟨l', item, rfl, he⟩ | ⟨-, he | ⟨items, he⟩⟩
      · have hne : l' ≠ l := by
          rintro rfl
          exact hspared (.list hcursor)
        rw [list_eq_of_lists_eq he, h.list_append_of_ne item hne]
      · exact list_eq_of_lists_eq he l
      · rw [list_eq_of_lists_eq (h := (h.newList items).2) he, h.list_newList_of_lt items hc]
    simp only [ahead, hlist]
  · rfl
  · rfl
  · have hresumed : s.generator? h ≠ some g := fun hstep => hspared (.generator hcursor hstep)
    have hsame : (s.perform h).2.generator g = h.generator g := by
      unfold generator
      rw [generators_perform]
      split
      · simp [Array.getD_eq_getD_getElem?, Array.getElem?_push, Nat.ne_of_lt hc]
      · cases hstep : s.generator? h with
        | none => rfl
        | some other =>
          have hne : other.index ≠ g.index := fun hi =>
            hresumed (hstep.trans (congrArg some (congrArg GeneratorId.mk hi)))
          simp only
          rw [Array.getD_eq_getD_getElem?, Array.getElem?_setIfInBounds_ne hne,
            Array.getD_eq_getD_getElem?]
    simp only [ahead, hsame]

theorem Has.ahead_after {steps : List Step} (hs : h.Has source) (hspared : Spared source h steps) :
    (h.after steps).ahead ((h.after steps).cursorOf source) = h.ahead (h.cursorOf source) := by
  induction steps generalizing h with
  | nil => rfl
  | cons s steps ih =>
    exact (ih (hs.reaches_perform s).1 hspared.2).trans (hs.ahead_perform hspared.1)

/-! ## The end -/

/-- A loop that has found no item finds none from there on. -/
theorem ahead_of_end (ht : h.takeFrom source = ((none, source'), h')) :
    h'.ahead (h'.cursorOf source') = [] := by
  cases source with
  | own c =>
    simp only [takeFrom, Prod.mk.injEq] at ht
    obtain ⟨⟨hnone, rfl⟩, rfl⟩ := ht
    rw [cursorOf, ahead_draw, ahead_of_draw_none (Prod.ext hnone rfl)]
    rfl
  | shared id =>
    simp only [takeFrom, advance_eq, Prod.mk.injEq] at ht
    obtain ⟨⟨hnone, rfl⟩, rfl⟩ := ht
    have hend := h.ahead_draw (h.cursor id)
    rw [ahead_of_draw_none (Prod.ext hnone rfl), List.tail_nil] at hend
    by_cases hlt : id.index < h.cursors.size
    · have hcursor : ((h.draw (h.cursor id)).2.2.setCursor id
          (h.draw (h.cursor id)).2.1).cursor id = (h.draw (h.cursor id)).2.1 := by
        simp [cursor, setCursor, Array.getD_eq_getD_getElem?, hlt]
      rw [cursorOf, hcursor, ← hend]
      cases (h.draw (h.cursor id)).2.1 <;> rfl
    · -- What is no iterator of the heap counts as one over the empty tuple.
      have hcursor : ((h.draw (h.cursor id)).2.2.setCursor id
          (h.draw (h.cursor id)).2.1).cursor id = .tuple [] := by
        simp [cursor, setCursor, Array.getD_eq_getD_getElem?, hlt, default]
      rw [cursorOf, hcursor]
      rfl

end Heap

namespace LoopBody

variable {β : Type} {body : LoopBody β} {source : Source} {acc result : β} {w w' : World}
  {k : Nat} {call : BodyCall β} {fault : Fault}

theorem Ends.unique {x y : Except Fault β} {w₁ w₂ : World} (h₁ : body.Ends call x w₁)
    (h₂ : body.Ends call y w₂) : x = y ∧ w₁ = w₂ := by
  obtain ⟨n, hn⟩ := h₁
  obtain ⟨m, hm⟩ := h₂
  have hn' : (body.run (max n m) call.acc call.item).Ends call.start x w₁ :=
    body.steady (Nat.le_max_left n m) _ _ _ _ hn
  have hm' : (body.run (max n m) call.acc call.item).Ends call.start y w₂ :=
    body.steady (Nat.le_max_right n m) _ _ _ _ hm
  exact hn'.unique hm'

/-- A loop that ends without a fault leaves nothing ahead. -/
theorem ahead_of_ends (hfixed : ∀ h : Heap, (h.takeFrom source).1.2 = source) {n fuel : Nat}
    (hends : Action.Ends (Run.loop (body.run n) source fuel acc) w (.ok result) w') :
    w'.heap.ahead (w'.heap.cursorOf source) = [] := by
  induction fuel generalizing acc w with
  | zero => exact absurd hends not_ends_loop_zero
  | succ fuel ih =>
    rw [ends_loop_succ_iff] at hends
    have hsource := hfixed w.heap
    rcases ht : w.heap.takeFrom source with ⟨⟨_ | item, source'⟩, h⟩ <;> rw [ht] at hsource <;>
      obtain rfl : source' = source := hsource <;> simp only [ht] at hends
    · obtain ⟨-, rfl⟩ := hends
      exact Heap.ahead_of_end ht
    · rcases ends_bind_iff.mp hends with ⟨fault, -, he⟩ | ⟨acc', w₁, -, hrest⟩
      · cases he
      · exact ih hrest

/-! ## The call that fails -/

/-- A loop makes no call without those before it. -/
theorem Calls.exists_of_le (hcalls : body.Calls source acc w k call) {j : Nat} (hj : j ≤ k) :
    ∃ earlier, body.Calls source acc w j earlier := by
  induction hcalls generalizing j with
  | first hsome =>
    obtain rfl : j = 0 := Nat.le_zero.mp hj
    exact ⟨_, .first hsome⟩
  | later hsome hends _ ih =>
    cases j with
    | zero => exact ⟨_, .first hsome⟩
    | succ j =>
      obtain ⟨earlier, hearlier⟩ := ih (Nat.le_of_succ_le_succ hj)
      exact ⟨earlier, .later hsome hends hearlier⟩

/-- It makes none behind one that fails. -/
theorem Calls.le_of_fails (hcalls : body.Calls source acc w k call)
    (hfails : body.Ends call (.error fault) w') {j : Nat} {other : BodyCall β}
    (hother : body.Calls source acc w j other) : j ≤ k := by
  induction hcalls generalizing j with
  | first hsome =>
    cases hother with
    | first => exact Nat.le_refl 0
    | later hsome' hends =>
      cases hsome.symm.trans hsome'
      cases (hfails.unique hends).1
  | later hsome hends _ ih =>
    cases hother with
    | first => exact Nat.zero_le _
    | later hsome' hends' hrest =>
      cases hsome.symm.trans hsome'
      obtain ⟨hacc, rfl⟩ := hends.unique hends'
      cases hacc
      exact Nat.succ_le_succ (ih hfails hrest)

/-- The loop ends with the fault of that call, where the call ends. -/
theorem Calls.ends_loop (hcalls : body.Calls source acc w k call)
    (hfails : body.Ends call (.error fault) w') :
    ∃ fuel, Action.Ends (Run.loop (body.run fuel) source fuel acc) w (.error fault) w' := by
  induction hcalls with
  | first hsome => exact exists_ends_of_first_error hsome hfails
  | later hsome hends _ ih => exact exists_ends_of_first_ok hsome hends (ih hfails)

/-- So a loop ends with a fault exactly if one of its calls does. -/
theorem ends_loop_error_iff :
    (∃ fuel, Action.Ends (Run.loop (body.run fuel) source fuel acc) w (.error fault) w') ↔
      ∃ k call, body.Calls source acc w k call ∧ body.Ends call (.error fault) w' := by
  constructor
  · rintro ⟨fuel, hends⟩
    obtain ⟨turns, hturns⟩ := turns_of_loop hends
    exact exists_call_of_turns hturns rfl
  · rintro ⟨k, call, hcalls, hfails⟩
    exact hcalls.ends_loop hfails

end LoopBody

end Builtins
