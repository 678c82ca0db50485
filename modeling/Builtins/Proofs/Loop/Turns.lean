-- The turns of a loop, one by one: the item of each, the world in which its body begins, and
-- the world that the body leaves. A loop is over when what it goes by has no item left, and in
-- no other way but by a fault of its body.
import Builtins.Proofs.Call.Stepwise

namespace Builtins

/-- One turn of a loop. -/
structure Turn where
  /-- What the loop goes by in this turn. -/
  source : Source
  item : Value
  /-- The world in which the body begins, with the item taken. -/
  start : World
  /-- The world that the body leaves. -/
  finish : World

/-- The turns that a loop makes, and how it ends. -/
inductive Turns {β : Type} (body : β → Value → Action β) :
    Source → β → World → List Turn → Except Fault β → World → Prop
  | ended {source source' : Source} {acc : β} {w : World} {h : Heap}
    (hnone : w.heap.takeFrom source = ((none, source'), h)) :
    Turns body source acc w [] (.ok acc) { w with heap := h }
  | failed {source source' : Source} {acc : β} {w w' : World} {h : Heap} {item : Value}
    {fault : Fault} (hsome : w.heap.takeFrom source = ((some item, source'), h))
    (hbody : (body acc item).Ends { w with heap := h } (.error fault) w') :
    Turns body source acc w [⟨source, item, { w with heap := h }, w'⟩] (.error fault) w'
  | turn {source source' : Source} {acc acc' : β} {w w₁ w' : World} {h : Heap} {item : Value}
    {turns : List Turn} {answer : Except Fault β}
    (hsome : w.heap.takeFrom source = ((some item, source'), h))
    (hbody : (body acc item).Ends { w with heap := h } (.ok acc') w₁)
    (hrest : Turns body source' acc' w₁ turns answer w') :
    Turns body source acc w (⟨source, item, { w with heap := h }, w₁⟩ :: turns) answer w'

namespace Action

variable {β : Type} {body : β → Value → Action β} {source : Source}

theorem not_ends_loop_zero {acc : β} {w w' : World} {answer : Except Fault β} :
    ¬ Ends (Run.loop body source 0 acc) w answer w' :=
  not_ends_outOfFuel

/-- A loop with fuel takes an item, hands it to its body and goes on, or is over. -/
theorem ends_loop_succ_iff {fuel : Nat} {acc : β} {w w' : World} {answer : Except Fault β} :
    Ends (Run.loop body source (fuel + 1) acc) w answer w' ↔
      match w.heap.takeFrom source with
      | ((none, _), h) => answer = .ok acc ∧ w' = { w with heap := h }
      | ((some item, source'), h) =>
        (body acc item >>= Run.loop body source' fuel).Ends { w with heap := h } answer w' := by
  rw [Run.loop]
  change Ends (onHeap (·.takeFrom source) >>= _) w answer w' ↔ _
  rw [ends_onHeap_bind_iff]
  rcases w.heap.takeFrom source with ⟨⟨_ | item, source'⟩, h⟩
  · exact ends_pure_iff
  · exact Iff.rfl

/-- A loop that ends has made its turns. -/
theorem turns_of_loop {fuel : Nat} {acc : β} {w w' : World} {answer : Except Fault β}
    (h : Ends (Run.loop body source fuel acc) w answer w') :
    ∃ turns, Turns body source acc w turns answer w' := by
  induction fuel generalizing source acc w with
  | zero => exact absurd h not_ends_loop_zero
  | succ fuel ih =>
    rw [ends_loop_succ_iff] at h
    rcases ht : w.heap.takeFrom source with ⟨⟨_ | item, source'⟩, heap⟩
    · simp only [ht] at h
      obtain ⟨rfl, rfl⟩ := h
      exact ⟨[], .ended ht⟩
    · simp only [ht] at h
      rcases ends_bind_iff.mp h with ⟨fault, hb, rfl⟩ | ⟨acc', w₁, hb, hl⟩
      · exact ⟨_, .failed ht hb⟩
      · obtain ⟨turns, hturns⟩ := ih hl
        exact ⟨_, .turn ht hb hturns⟩

/-- A loop over a value makes its turns by what it goes by, if the value can be iterated. -/
theorem turns_of_foldItems {fuel : Nat} {v : Value} {start : β} {w w' : World}
    {answer : Except Fault β} (h : (foldItems fuel v start body).Ends w answer w') :
    (∃ fault, Source.of v = .error fault ∧ answer = .error fault ∧ w' = w) ∨
      ∃ source turns, Source.of v = .ok source ∧ Turns body source start w turns answer w' := by
  unfold foldItems at h
  cases hof : Source.of v with
  | error fault =>
    obtain ⟨rfl, rfl⟩ := (ends_ofExcept_bind_of_error hof).mp h
    exact Or.inl ⟨fault, rfl, rfl, rfl⟩
  | ok source =>
    rw [ends_ofExcept_bind_of_ok hof] at h
    obtain ⟨turns, hturns⟩ := turns_of_loop h
    exact Or.inr ⟨source, turns, rfl, hturns⟩

end Action

/-! ## Laps -/

/-- Turns one after the other, whatever the body. A lap goes by what the lap before it has left,
and only steps are made in it. -/
inductive Laps : Source → World → List Turn → Source → World → Prop
  | done (source : Source) (w : World) : Laps source w [] source w
  | lap {source source' last : Source} {w w₁ w' : World} {h : Heap} {item : Value}
    {turns : List Turn} (hsome : w.heap.takeFrom source = ((some item, source'), h))
    (hbody : h.Leads w₁.heap) (hrest : Laps source' w₁ turns last w') :
    Laps source w (⟨source, item, { w with heap := h }, w₁⟩ :: turns) last w'

/-- A loop whose body goes step by step makes its laps. If it ends without a fault, it has found
no item after the last one. -/
theorem Turns.laps {β : Type} {body : β → Value → Action β} {source : Source} {acc : β}
    {w w' : World} {turns : List Turn} {answer : Except Fault β}
    (hturns : Turns body source acc w turns answer w')
    (hbody : ∀ acc item, (body acc item).Stepwise) :
    ∃ last w₁, Laps source w turns last w₁ ∧
      (∀ result, answer = .ok result → ∃ source' h,
        w₁.heap.takeFrom last = ((none, source'), h) ∧ w' = { w₁ with heap := h }) ∧
      ∀ fault, answer = .error fault → w' = w₁ := by
  induction hturns with
  | ended hnone => exact ⟨_, _, .done _ _, fun _ _ => ⟨_, _, hnone, rfl⟩, by simp⟩
  | failed hsome hb =>
    exact ⟨_, _, .lap hsome (hbody _ _ _ _ _ hb).heap (.done _ _), by simp, fun _ _ => rfl⟩
  | turn hsome hb _ ih =>
    obtain ⟨last, w₂, hlaps, hend⟩ := ih
    exact ⟨last, w₂, .lap hsome (hbody _ _ _ _ _ hb).heap hlaps, hend⟩

end Builtins
