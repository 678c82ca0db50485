-- How the result of a call is written out. A generator or an iterator is run dry, with one line for
-- each item that lies ahead of it; that prints and changes no list, so it always comes to an end.
import Builtins.CommandLine
import Builtins.Proofs.Loop.Ahead

namespace Builtins

namespace Heap

variable {h h' : Heap}

/-- What a list looks like hangs on the lists alone. -/
theorem listSnapshot_eq_of_lists_eq (he : h'.lists = h.lists) (depth : Nat) :
    h'.listSnapshot depth = h.listSnapshot depth := by
  induction depth with
  | zero => rfl
  | succ depth ih =>
    funext id
    rw [listSnapshot, listSnapshot, ih, list_eq_of_lists_eq he]

theorem repr_eq_of_lists_eq (he : h'.lists = h.lists) (v : Value) : h'.repr v = h.repr v := by
  unfold repr snapshot
  rw [he, listSnapshot_eq_of_lists_eq he]

end Heap

namespace CommandLine

open Builtins.Action

/-- What is written of the result of a call: nothing of nothing, an item to a line of a generator
or an iterator, and any other value as it is. -/
def resultLines (h : Heap) : Value → List String
  | .generator id => (h.ahead (.generator id)).map h.repr
  | .iterator it => (h.ahead (h.cursor it.id)).map h.repr
  | .null => []
  | v => [h.repr v]

/-- A loop that writes each item adds a line for each to the output. -/
theorem ends_writing {source : Source} {items : List Value} {h' : Heap} {w : World}
    (hd : w.heap.Drained source items h') {fuel : Nat} (hfuel : items.length < fuel) :
    Action.Ends (Run.loop (fun _ item => do Action.write ((← Action.heap).repr item)) source fuel ())
      w (.ok ()) ⟨h', w.output ++ (items.map w.heap.repr).toArray⟩ := by
  obtain ⟨h, output⟩ := w
  change h.Drained source items h' at hd
  induction hd generalizing output fuel with
  | ended hnone =>
    obtain ⟨fuel, rfl⟩ : ∃ n, fuel = n + 1 := ⟨fuel - 1, by omega⟩
    apply ends_loop_succ_iff.mpr
    simp [hnone]
  | @item h h₁ h' source source' x items hsome _ ih =>
    obtain ⟨fuel, rfl⟩ : ∃ n, fuel = n + 1 := ⟨fuel - 1, by omega⟩
    have hlists : h₁.lists = h.lists := by
      have hsame := h.lists_takeFrom source
      rwa [hsome] at hsame
    have hshorter : items.length < fuel := Nat.lt_of_succ_lt_succ hfuel
    have hrest := ih hshorter (output.push (h₁.repr x))
    apply ends_loop_succ_iff.mpr
    simp only [hsome]
    refine ends_bind_iff.mpr (Or.inr ⟨(), ⟨h₁, output.push (h₁.repr x)⟩, ?_, ?_⟩)
    · exact ends_bind_iff.mpr (Or.inr ⟨h₁, _, ends_heap_iff.mpr ⟨rfl, rfl⟩,
        ends_write_iff.mpr ⟨rfl, rfl⟩⟩)
    · have hrepr : h₁.repr = h.repr := funext (Heap.repr_eq_of_lists_eq hlists)
      rw [hrepr] at hrest
      simpa [hrepr] using hrest

/-- To write out a result never fails, and adds its lines to the output. -/
theorem ends_writeResult (v : Value) (w : World) :
    ∃ fuel h', ∀ n, fuel ≤ n →
      (writeResult n v).Ends w (.ok ()) ⟨h', w.output ++ (resultLines w.heap v).toArray⟩ := by
  -- A source that the result goes by runs dry.
  have hdry : ∀ {v source}, Source.of v = .ok source → ∃ fuel h', ∀ n, fuel ≤ n →
      (foldItems n v () fun _ item => do Action.write ((← Action.heap).repr item)).Ends w (.ok ())
        ⟨h', w.output ++ ((w.heap.ahead (w.heap.cursorOf source)).map w.heap.repr).toArray⟩ := by
    intro v source hof
    obtain ⟨items, h', hd⟩ := w.heap.exists_drained source
    refine ⟨items.length + 1, h', fun n hn => ?_⟩
    rw [← hd.items_eq]
    exact (ends_ofExcept_bind_of_ok hof).mpr (ends_writing hd hn)
  have hprinted : (do Action.write ((← Action.heap).repr v)).Ends w (.ok ())
      ⟨w.heap, w.output ++ [w.heap.repr v].toArray⟩ := by
    refine ends_bind_iff.mpr (Or.inr ⟨w.heap, w, ends_heap_iff.mpr ⟨rfl, rfl⟩, ?_⟩)
    exact ends_write_iff.mpr ⟨rfl, by simp⟩
  cases v with
  | generator id => exact hdry (v := .generator id) rfl
  | iterator it => exact hdry (v := .iterator it) rfl
  | null => exact ⟨0, w.heap, fun n _ => ends_pure_iff.mpr ⟨rfl, by simp [resultLines]⟩⟩
  | _ => exact ⟨0, w.heap, fun n _ => hprinted⟩

end CommandLine

end Builtins
