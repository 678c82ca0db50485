-- A loop after some turns. Each turn takes the first of the items ahead, so as long as the body leaves
-- the world alone, a loop goes on as one by what is left would.
import Builtins.Proofs.Iteration.Sums

namespace Builtins

open Builtins.Action

namespace Heap

/-- What a loop goes by once it has taken `n` items, and the heap then. -/
def taken (h : Heap) (source : Source) : Nat → Source × Heap
  | 0 => (source, h)
  | n + 1 =>
    let (source, h) := h.taken source n
    let ((_, source), h) := h.takeFrom source
    (source, h)

variable {h : Heap} {source : Source} {items : List Value} {n : Nat}

theorem taken_succ {item : Option Value} {source' : Source} {h' : Heap}
    (ht : (h.taken source n).2.takeFrom (h.taken source n).1 = ((item, source'), h')) :
    h.taken source (n + 1) = (source', h') := by
  change (((h.taken source n).2.takeFrom (h.taken source n).1).1.2,
    ((h.taken source n).2.takeFrom (h.taken source n).1).2) = _
  rw [ht]

/-- The items that have been taken are the first ones, and the others are still ahead. -/
theorem ahead_taken (hahead : h.ahead (h.cursorOf source) = items) (hn : n ≤ items.length) :
    (h.taken source n).2.ahead ((h.taken source n).2.cursorOf (h.taken source n).1) =
      items.drop n := by
  induction n with
  | zero => exact hahead
  | succ n ih =>
    have hrest := ih (by omega)
    rw [List.drop_eq_getElem_cons (show n < items.length by omega)] at hrest
    obtain ⟨source', h', ht, -, hahead', -⟩ := takeFrom_of_ahead_eq_cons hrest
    rw [taken_succ ht]
    exact hahead'

theorem takeFrom_taken (hahead : h.ahead (h.cursorOf source) = items) (hn : n < items.length) :
    (h.taken source n).2.takeFrom (h.taken source n).1 =
      ((some items[n], (h.taken source (n + 1)).1), (h.taken source (n + 1)).2) := by
  have hrest := ahead_taken hahead (Nat.le_of_lt hn)
  rw [List.drop_eq_getElem_cons hn] at hrest
  obtain ⟨source', h', ht, -⟩ := takeFrom_of_ahead_eq_cons hrest
  rw [taken_succ ht, ht]

/-- When all items have been taken, the next turn finds none. -/
theorem takeFrom_taken_length (hahead : h.ahead (h.cursorOf source) = items) :
    (h.taken source items.length).2.takeFrom (h.taken source items.length).1 =
      ((none, (h.taken source (items.length + 1)).1), (h.taken source (items.length + 1)).2) := by
  have hrest := ahead_taken hahead (Nat.le_refl items.length)
  rw [List.drop_length] at hrest
  obtain ⟨source', h', ht⟩ := takeFrom_of_ahead_eq_nil hrest
  rw [taken_succ ht, ht]

end Heap

namespace Action

variable {β : Type} {body : β → Value → Action β} {source : Source} {items : List Value}
  {w w' : World} {n : Nat}

/-- After turns whose bodies leave the world alone, a loop is where the items that it has taken leave
it, with what the bodies have given. -/
theorem ends_loop_after (acc : Nat → β) (hahead : w.heap.ahead (w.heap.cursorOf source) = items)
    (hn : n ≤ items.length)
    (hbody : ∀ i (hi : i < n) (w₁ : World), (body (acc i) items[i]).Ends w₁ (.ok (acc (i + 1))) w₁)
    {fuel : Nat} {answer : Except Fault β} :
    Ends (Run.loop body source (fuel + n) (acc 0)) w answer w' ↔
      Ends (Run.loop body (w.heap.taken source n).1 fuel (acc n))
        ⟨(w.heap.taken source n).2, w.output⟩ answer w' := by
  induction n generalizing fuel with
  | zero => exact Iff.rfl
  | succ n ih =>
    have hlt : n < items.length := hn
    have hturn := hbody n (Nat.lt_succ_self n) ⟨(w.heap.taken source (n + 1)).2, w.output⟩
    rw [show fuel + (n + 1) = fuel + 1 + n by omega,
      ih (by omega) fun i hi => hbody i (by omega), ends_loop_succ_iff]
    simp only [Heap.takeFrom_taken hahead hlt]
    exact ends_bind_of_ends hturn

end Action

end Builtins
