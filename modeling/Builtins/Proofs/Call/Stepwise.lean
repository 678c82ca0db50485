-- Whatever calls do, they do step by step. A call of any depth, of built-in and of host functions,
-- changes the heap only by steps and the output only by lines at its end.
import Builtins.Proofs.Builtin.Keeping

namespace Builtins

/-- Steps lead from one heap to another. -/
def Heap.Leads (h h' : Heap) : Prop := ∃ steps, h' = h.after steps

namespace Heap

theorem leads_refl (h : Heap) : h.Leads h := ⟨[], rfl⟩

theorem leads_trans {h₁ h₂ h₃ : Heap} (h₁₂ : h₁.Leads h₂) (h₂₃ : h₂.Leads h₃) : h₁.Leads h₃ := by
  obtain ⟨steps, rfl⟩ := h₁₂
  obtain ⟨more, rfl⟩ := h₂₃
  exact ⟨steps ++ more, (after_append h₁ steps more).symm⟩

theorem leads_perform (h : Heap) (s : Step) : h.Leads (s.perform h).2 := ⟨[s], rfl⟩

end Heap

/-- Steps and printed lines lead from one world to another. -/
structure World.Leads (w w' : World) : Prop where
  heap : w.heap.Leads w'.heap
  output : ∃ lines, w'.output = w.output ++ lines

namespace World

theorem leads_refl (w : World) : w.Leads w := ⟨w.heap.leads_refl, #[], by simp⟩

theorem leads_trans {w₁ w₂ w₃ : World} (h₁₂ : w₁.Leads w₂) (h₂₃ : w₂.Leads w₃) :
    w₁.Leads w₃ := by
  refine ⟨Heap.leads_trans h₁₂.heap h₂₃.heap, ?_⟩
  obtain ⟨lines, hlines⟩ := h₁₂.output
  obtain ⟨more, hmore⟩ := h₂₃.output
  exact ⟨lines ++ more, by rw [hmore, hlines, Array.append_assoc]⟩

theorem leads_of_heap {w : World} {h : Heap} (hleads : w.heap.Leads h) :
    w.Leads { w with heap := h } :=
  ⟨hleads, #[], by simp⟩

theorem leads_step (w : World) (s : Step) : w.Leads ⟨(s.perform w.heap).2, w.output⟩ :=
  leads_of_heap (w.heap.leads_perform s)

theorem leads_write (w : World) (line : String) : w.Leads ⟨w.heap, w.output.push line⟩ :=
  ⟨w.heap.leads_refl, #[line], by simp⟩

theorem chains_leads : World.Chains World.Leads := ⟨leads_refl, leads_trans⟩

end World

/-- Wherever a computation ends, steps and printed lines have led there. -/
def Action.Stepwise {α : Type} (a : Action α) : Prop :=
  ∀ w answer w', a.Ends w answer w' → w.Leads w'

open Builtins.Action Builtins.World

/-! ## Built-in functions -/

/-- Every call goes step by step. -/
def Caller.Stepwise (invoke : Caller) : Prop := ∀ f args, (invoke f args).Stepwise

namespace Builtin

variable {invoke : Caller}

theorem stepwise_mapItem (hinvoke : invoke.Stepwise) (f : Value) (results : Array Value)
    (item : Value) : (mapItem invoke f results item).Stepwise :=
  keeps_mapItem chains_leads hinvoke f results item

theorem stepwise_filterItem (hinvoke : invoke.Stepwise) (f : Value) (kept : Array Value)
    (item : Value) : (filterItem invoke f kept item).Stepwise :=
  keeps_filterItem chains_leads hinvoke f kept item

theorem stepwise_addItem (total item : Value) : (addItem total item).Stepwise :=
  keeps_addItem (fun w s _ => w.leads_step s) total item

/-- A built-in function goes step by step if the calls that it makes do. -/
theorem stepwise_run (config : Config) (hinvoke : invoke.Stepwise) (fuel : Nat) (b : Builtin)
    (args : List Value) : (b.run config invoke fuel args).Stepwise :=
  keeps_run chains_leads (fun w s _ => w.leads_step s) config fuel b args (fun _ => leads_write)
    fun _ => hinvoke

end Builtin

/-! ## Scripts and calls -/

theorem Script.stepwise_run (settings : Config) {invoke : Caller} (hinvoke : invoke.Stepwise)
    {α : Type} (s : Script α) : (s.run settings invoke).Stepwise := by
  induction s with
  | done result => exact keeps_pure chains_leads result
  | fail fault => exact keeps_throw chains_leads fault
  | call callee args rest ih =>
    refine keeps_bind chains_leads ?_ ih
    intro w answer w' h
    obtain ⟨x, hx, -⟩ := ends_lift_run_iff.mp h
    exact hinvoke callee args w x w' hx
  | write line rest ih =>
    refine keeps_bind chains_leads ?_ fun _ => ih
    intro w answer w' h
    obtain ⟨-, rfl⟩ := ends_write_iff.mp h
    exact w.leads_write line
  | config rest ih => exact ih settings
  | look rest ih => exact keeps_bind chains_leads (keeps_heap chains_leads) ih
  | act d rest ih => exact keeps_bind chains_leads (keeps_onHeap fun w => w.leads_step (.deed d)) ih

/-- A call goes step by step, whatever is called and whatever that calls. -/
theorem Host.stepwise_call (host : Host) (fuel : Nat) : (host.call fuel).Stepwise := by
  induction fuel with
  | zero => exact fun _ _ => keeps_outOfFuel
  | succ fuel ih =>
    intro f args
    cases f with
    | builtin b => exact Builtin.stepwise_run host.config ih fuel b args
    | function id name =>
      simp only [call]
      split
      · exact Script.stepwise_run host.config ih _
      · exact keeps_throw chains_leads _
    | exceptionType kind =>
      exact keeps_bind chains_leads
        (keeps_onHeap fun w => w.leads_step (.deed (.newException kind args))) fun _ =>
        keeps_pure chains_leads _
    | _ => exact keeps_throw chains_leads _

theorem Host.Ends.leads {host : Host} {w w' : World} {f : Value} {args : List Value}
    {answer : Except Fault Value} (h : host.Ends w f args answer w') : w.Leads w' := by
  obtain ⟨fuel, hcall⟩ := h
  exact host.stepwise_call fuel f args w answer w' hcall

end Builtins
