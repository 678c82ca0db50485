-- What a computation keeps. A relation between worlds that holds over nothing and over one thing
-- after the other holds over a whole computation, and over a whole loop, if it holds over the
-- parts.
import Builtins.Proofs.Action.Ends

namespace Builtins

/-- Whether a relation between worlds holds over nothing at all, and over one thing after the
other. -/
structure World.Chains (R : World → World → Prop) : Prop where
  refl : ∀ w, R w w
  trans : ∀ {w₁ w₂ w₃}, R w₁ w₂ → R w₂ w₃ → R w₁ w₃

/-- Wherever a computation ends, a relation holds between the world before and the world after. -/
def Action.Keeps (R : World → World → Prop) {α : Type} (a : Action α) : Prop :=
  ∀ w answer w', a.Ends w answer w' → R w w'

namespace Action

variable {R : World → World → Prop} {α β : Type}

theorem keeps_outOfFuel : (outOfFuel : Action α).Keeps R :=
  fun _ _ _ h => absurd h not_ends_outOfFuel

/-- A change of the heap keeps what every such change keeps. -/
theorem keeps_onHeap {step : Heap → α × Heap} (hs : ∀ w : World, R w ⟨(step w.heap).2, w.output⟩) :
    (onHeap step).Keeps R := by
  intro w answer w' h
  obtain ⟨-, rfl⟩ := ends_onHeap_iff.mp h
  exact hs w

theorem keeps_attempt {step : Heap → Except Fault α × Heap}
    (hs : ∀ w : World, R w ⟨(step w.heap).2, w.output⟩) : (attempt step).Keeps R := by
  intro w answer w' h
  obtain ⟨-, rfl⟩ := ends_attempt_iff.mp h
  exact hs w

section Chains

variable (hR : World.Chains R)
include hR

theorem keeps_pure (x : α) : (pure x : Action α).Keeps R := by
  intro w answer w' h
  obtain ⟨-, rfl⟩ := ends_pure_iff.mp h
  exact hR.refl w'

theorem keeps_throw (fault : Fault) : (throw fault : Action α).Keeps R := by
  intro w answer w' h
  obtain ⟨-, rfl⟩ := ends_throw_iff.mp h
  exact hR.refl w'

theorem keeps_heap : Action.heap.Keeps R := by
  intro w answer w' h
  obtain ⟨-, rfl⟩ := ends_heap_iff.mp h
  exact hR.refl w'

theorem keeps_ofExcept (result : Except Fault α) : (ofExcept result).Keeps R := by
  intro w answer w' h
  obtain ⟨-, rfl⟩ := ends_ofExcept_iff.mp h
  exact hR.refl w'

theorem keeps_bind {a : Action α} {f : α → Action β} (ha : a.Keeps R)
    (hf : ∀ x, (f x).Keeps R) : (a >>= f).Keeps R := by
  intro w answer w' h
  rcases ends_bind_iff.mp h with ⟨fault, h₁, -⟩ | ⟨x, w₁, h₁, h₂⟩
  · exact ha w _ w' h₁
  · exact hR.trans (ha w _ w₁ h₁) (hf x w₁ answer w' h₂)

theorem keeps_newList (hs : ∀ (w : World) (items : Array Value),
    R w ⟨(w.heap.newList items).2, w.output⟩) (items : Array Value) : (newList items).Keeps R :=
  keeps_bind hR (keeps_onHeap fun w => hs w items) fun _ => keeps_pure hR _

/-! ## Loops -/

variable (hturn : ∀ (w : World) (source : Source), R w ⟨(w.heap.takeFrom source).2, w.output⟩)
include hturn

theorem keeps_loop {body : β → Value → Action β} (hbody : ∀ acc item, (body acc item).Keeps R)
    (source : Source) (fuel : Nat) (acc : β) : Keeps R (Run.loop body source fuel acc) := by
  induction fuel generalizing source acc with
  | zero => exact keeps_outOfFuel
  | succ fuel ih =>
    rw [Run.loop]
    refine keeps_bind hR (keeps_onHeap fun w => hturn w source) ?_
    rintro ⟨_ | item, source'⟩
    · exact keeps_pure hR acc
    · exact keeps_bind hR (hbody acc item) fun acc' => ih source' acc'

theorem keeps_foldItems {body : β → Value → Action β}
    (hbody : ∀ acc item, (body acc item).Keeps R) (fuel : Nat) (v : Value) (start : β) :
    (foldItems fuel v start body).Keeps R :=
  keeps_bind hR (keeps_ofExcept hR _) fun source => keeps_loop hR hturn hbody source fuel start

end Chains

end Action

end Builtins
