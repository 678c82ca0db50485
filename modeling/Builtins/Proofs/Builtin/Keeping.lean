-- What built-in functions keep. They do nothing to the heap but steps, of which none appends to a
-- list; only two of them print, and only two of them make calls.
import Builtins.Proofs.Action.Keeping
import Builtins.Proofs.Heap.Steps

namespace Builtins

open Builtins.Action

namespace Builtin

variable {R : World → World → Prop} (hR : World.Chains R) {invoke : Caller}

section Calls

variable (hinvoke : ∀ f args, (invoke f args).Keeps R)
include hR hinvoke

theorem keeps_mapItem (f : Value) (results : Array Value) (item : Value) :
    (mapItem invoke f results item).Keeps R :=
  keeps_bind hR (hinvoke f [item]) fun _ => keeps_pure hR _

theorem keeps_keeps (f item : Value) : (keeps invoke f item).Keeps R := by
  unfold keeps
  split
  · exact keeps_bind hR (keeps_heap hR) fun _ => keeps_pure hR _
  · exact keeps_bind hR (hinvoke _ [item]) fun _ =>
      keeps_bind hR (keeps_heap hR) fun _ => keeps_pure hR _

theorem keeps_filterItem (f : Value) (kept : Array Value) (item : Value) :
    (filterItem invoke f kept item).Keeps R :=
  keeps_bind hR (keeps_keeps hR hinvoke f item) fun _ => keeps_pure hR _

end Calls

variable (hstep : ∀ (w : World) (s : Step), (∀ l item, s ≠ .deed (.append l item)) →
  R w ⟨(s.perform w.heap).2, w.output⟩)

include hstep in
theorem keeps_addItem (total item : Value) : (addItem total item).Keeps R :=
  keeps_attempt fun w => hstep w (.deed (.add total item)) (by simp)

include hR hstep

/-- A built-in function keeps what all steps keep that append nothing, if lines keep it as far as
the function prints, and calls as far as it makes any. -/
theorem keeps_run (config : Config) (fuel : Nat) (b : Builtin) (args : List Value)
    (hwrite : b = .print ∨ b = .range → ∀ (w : World) line, R w ⟨w.heap, w.output.push line⟩)
    (hinvoke : b = .map ∨ b = .filter → ∀ f args, (invoke f args).Keeps R) :
    (b.run config invoke fuel args).Keeps R := by
  have hturn : ∀ (w : World) (source : Source), R w ⟨(w.heap.takeFrom source).2, w.output⟩ :=
    fun w source => hstep w (.turn source) (by simp)
  have hlist : ∀ items : Array Value, (newList items).Keeps R := by
    intro items
    refine keeps_newList hR (fun w items => ?_) items
    exact hstep w (.deed (.newList items.toList)) (by simp)
  have hprint : b = .print ∨ b = .range → ∀ line, (write line).Keeps R := by
    intro hb line w answer w' h
    obtain ⟨-, rfl⟩ := ends_write_iff.mp h
    exact hwrite hb w line
  cases b with
  | print =>
    exact keeps_bind hR (keeps_heap hR) fun _ =>
      keeps_bind hR (hprint (Or.inl rfl) _) fun _ => keeps_pure hR _
  | len =>
    exact keeps_bind hR (keeps_ofExcept hR _) fun _ =>
      keeps_bind hR (keeps_heap hR) fun _ => keeps_ofExcept hR _
  | repr =>
    exact keeps_bind hR (keeps_ofExcept hR _) fun _ =>
      keeps_bind hR (keeps_heap hR) fun _ => keeps_pure hR _
  | iter =>
    exact keeps_bind hR (keeps_ofExcept hR _) fun v =>
      keeps_attempt fun w => hstep w (.deed (.iter v)) (by simp)
  | next =>
    exact keeps_bind hR (keeps_ofExcept hR _) fun v =>
      keeps_attempt fun w => hstep w (.deed (.next v)) (by simp)
  | map =>
    exact keeps_bind hR (keeps_ofExcept hR _) fun vs => keeps_bind hR
      (keeps_foldItems hR hturn (keeps_mapItem hR (hinvoke (Or.inl rfl)) vs.1) fuel vs.2 #[]) hlist
  | filter =>
    exact keeps_bind hR (keeps_ofExcept hR _) fun vs => keeps_bind hR
      (keeps_foldItems hR hturn (keeps_filterItem hR (hinvoke (Or.inr rfl)) vs.1) fuel vs.2 #[])
      hlist
  | sum =>
    exact keeps_bind hR (keeps_ofExcept hR _) fun vs =>
      keeps_foldItems hR hturn (keeps_addItem hstep) fuel vs.1 vs.2
  | range =>
    refine keeps_bind hR (keeps_ofExcept hR _) fun p => ?_
    unfold rangeList
    cases p.iterates with
    | true => exact hlist _
    | false => exact keeps_bind hR (hprint (Or.inr rfl) _) fun _ => hlist _
  | xrange =>
    exact keeps_bind hR (keeps_ofExcept hR _) fun p => keeps_bind hR
      (keeps_onHeap fun w => hstep w (.newGenerator p) (by simp)) fun _ => keeps_pure hR _

end Builtin

end Builtins
