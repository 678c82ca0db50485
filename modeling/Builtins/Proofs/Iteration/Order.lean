-- The items that a consumer comes to. If its calls take nothing from what it goes by and add nothing
-- to that, it comes to the items that lie ahead, one after the other, and to all of them if it does not
-- fail.
import Builtins.Proofs.Filtering.Kept
import Builtins.Proofs.Iteration.Remaining

namespace Builtins

open Builtins.Action

namespace LoopBody

variable {β : Type} {body : LoopBody β} {source : Source} {acc acc' : β} {w w' w₁ : World}

/-- Whether no call that a loop makes takes anything from what the loop goes by, or adds to it. -/
def Spares (body : LoopBody β) (source : Source) (acc : β) (w : World) : Prop :=
  ∀ k call acc' w₁, body.Calls source acc w k call → body.Ends call (.ok acc') w₁ →
    w₁.heap.ahead (w₁.heap.cursorOf source) =
      call.start.heap.ahead (call.start.heap.cursorOf source)

theorem Spares.later {h : Heap} {item : Value} (hspares : body.Spares source acc w)
    (hsome : w.heap.takeFrom source = ((some item, source), h))
    (hends : body.Ends ⟨acc, item, ⟨h, w.output⟩⟩ (.ok acc') w₁) : body.Spares source acc' w₁ :=
  fun k call _ _ hcalls => hspares (k + 1) call _ _ (.later hsome hends hcalls)

theorem Calls.has (hfixed : ∀ h : Heap, (h.takeFrom source).1.2 = source) {k : Nat}
    {call : BodyCall β} (hcalls : body.Calls source acc w k call) : call.start.heap.Has source := by
  induction hcalls with
  | @first source source' _ w h item hsome =>
    obtain rfl : source' = source := by simpa [hsome] using hfixed w.heap
    exact Heap.has_of_takeFrom_some hsome
  | @later source source' _ _ w w₁ h item k call hsome _ _ ih =>
    obtain rfl : source' = source := by simpa [hsome] using hfixed w.heap
    exact ih hfixed

/-- The `k`-th call is made with the `k`-th item, and leaves the items behind it ahead. -/
theorem Calls.drop_ahead (hfixed : ∀ h : Heap, (h.takeFrom source).1.2 = source) {k : Nat}
    {call : BodyCall β} (hcalls : body.Calls source acc w k call)
    (hspares : body.Spares source acc w) :
    (w.heap.ahead (w.heap.cursorOf source)).drop k =
      call.item :: call.start.heap.ahead (call.start.heap.cursorOf source) := by
  induction hcalls with
  | @first source source' _ w h item hsome =>
    obtain rfl : source' = source := by simpa [hsome] using hfixed w.heap
    exact Heap.ahead_of_takeFrom_some hsome
  | @later source source' _ _ w w₁ h item k call hsome hends _ ih =>
    obtain rfl : source' = source := by simpa [hsome] using hfixed w.heap
    have hsame := hspares 0 _ _ _ (.first hsome) hends
    rw [Heap.ahead_of_takeFrom_some hsome, List.drop_succ_cons,
      ← ih hfixed (hspares.later hsome hends), hsame]

theorem Calls.getElem? (hfixed : ∀ h : Heap, (h.takeFrom source).1.2 = source) {k : Nat}
    {call : BodyCall β} (hcalls : body.Calls source acc w k call)
    (hspares : body.Spares source acc w) :
    (w.heap.ahead (w.heap.cursorOf source))[k]? = some call.item :=
  (Heap.getElem?_of_drop_eq_cons (hcalls.drop_ahead hfixed hspares)).1

/-- A loop that ends without a fault has made a call with each item. -/
theorem exists_calls_of_ends_loop (hfixed : ∀ h : Heap, (h.takeFrom source).1.2 = source)
    {fuel n : Nat} {result : β}
    (hends : Action.Ends (Run.loop (body.run n) source fuel acc) w (.ok result) w')
    (hspares : body.Spares source acc w) {k : Nat}
    (hk : k < (w.heap.ahead (w.heap.cursorOf source)).length) :
    ∃ call, body.Calls source acc w k call := by
  induction fuel generalizing acc w k with
  | zero => exact absurd hends not_ends_loop_zero
  | succ fuel ih =>
    rw [ends_loop_succ_iff] at hends
    have hsource := hfixed w.heap
    rcases ht : w.heap.takeFrom source with ⟨⟨_ | item, source'⟩, h⟩
    · rw [Heap.ahead_of_takeFrom_none ht] at hk
      exact absurd hk (Nat.not_lt_zero k)
    · rw [ht] at hsource
      obtain rfl : source' = source := hsource
      simp only [ht] at hends
      rcases ends_bind_iff.mp hends with ⟨fault, -, he⟩ | ⟨acc', w₁, hcall, hrest⟩
      · cases he
      · cases k with
        | zero => exact ⟨_, .first ht⟩
        | succ k =>
          have hsame := hspares 0 _ _ _ (.first ht) ⟨n, hcall⟩
          rw [Heap.ahead_of_takeFrom_some ht, List.length_cons, ← hsame] at hk
          obtain ⟨call, hcalls⟩ := ih hrest (hspares.later ht ⟨n, hcall⟩) (Nat.lt_of_succ_lt_succ hk)
          exact ⟨call, .later ht ⟨n, hcall⟩ hcalls⟩

theorem exists_calls_of_ends (hfixed : ∀ h : Heap, (h.takeFrom source).1.2 = source) {v : Value}
    (hof : Source.of v = .ok source) {fuel : Nat} {result : β}
    (hends : (foldItems fuel v acc (body.run fuel)).Ends w (.ok result) w')
    (hspares : body.Spares source acc w) {k : Nat}
    (hk : k < (w.heap.ahead (w.heap.cursorOf source)).length) :
    ∃ acc₁ item w₁, body.Calls source acc w k ⟨acc₁, item, w₁⟩ := by
  rw [foldItems_of_ok hof] at hends
  obtain ⟨call, hcalls⟩ := exists_calls_of_ends_loop hfixed hends hspares hk
  exact ⟨_, _, _, hcalls⟩

end LoopBody

namespace Consumer

/-- The function that a consumer calls with each item. -/
def function? : Consumer → Option Value
  | map f => some f
  | filter .null => none
  | filter f => some f
  | collect | sum _ => none

/-- Whether no call of its function takes anything from what a consumer goes by, or adds to it. -/
def Spares (host : Host) (source : Source) (w : World) (consumer : Consumer) : Prop :=
  ∀ f, consumer.function? = some f → ∀ k item w₁ y w₂,
    consumer.Handles host source w k item w₁ → host.Ends w₁ f [item] (.ok y) w₂ →
      w₂.heap.ahead (w₂.heap.cursorOf source) = w₁.heap.ahead (w₁.heap.cursorOf source)

variable {host : Host} {source : Source} {w : World}

theorem spares_mapping {f : Value} (hspares : (map f).Spares host source w) :
    (LoopBody.mapping host f).Spares source #[] w := by
  rintro k call acc' w₁ hcalls ⟨fuel, hends⟩
  obtain ⟨y, hcall, hy⟩ := (Builtin.callsItem_mapItem (host.call fuel) f _ _ _ _ _).mp hends
  cases y with
  | error fault => cases hy
  | ok y => exact hspares f rfl k call.item call.start y w₁ ⟨_, hcalls⟩ ⟨fuel, hcall⟩

theorem spares_filtering {f : Value} (hspares : (filter f).Spares host source w) :
    (LoopBody.filtering host f).Spares source #[] w := by
  rintro k call acc' w₁ hcalls ⟨fuel, hends⟩
  by_cases hf : f = .null
  · -- Without a predicate, nothing is called.
    subst hf
    obtain ⟨-, rfl⟩ := hends.unique (Builtin.ends_filterItem_null call.acc call.item call.start)
    rfl
  · have hfunction : (filter f).function? = some f := by
      cases f with
      | null => exact absurd rfl hf
      | _ => rfl
    obtain ⟨y, hcall, hy⟩ := (Builtin.callsItem_filterItem hf _ _ _ _ _).mp hends
    cases y with
    | error fault => cases hy
    | ok y => exact hspares f hfunction k call.item call.start y w₁ ⟨_, hcalls⟩ ⟨fuel, hcall⟩

theorem spares_collecting : LoopBody.collecting.Spares source #[] w := by
  rintro k call acc' w₁ - ⟨fuel, hends⟩
  obtain ⟨-, rfl⟩ := ends_pure_iff.mp hends
  rfl

theorem spares_adding (hfixed : ∀ h : Heap, (h.takeFrom source).1.2 = source) (start : Value) :
    LoopBody.adding.Spares source start w := by
  rintro k call acc' w₁ hcalls ⟨fuel, hends⟩
  have hadds : (attempt (·.add call.acc call.item)).Ends call.start (.ok acc') w₁ := hends
  obtain ⟨-, rfl⟩ := ends_attempt_iff.mp hadds
  exact (Heap.ahead_add (hcalls.has hfixed) call.acc call.item).2

/-- The `k`-th item that a consumer comes to is the `k`-th of those ahead. -/
theorem Handles.getElem? {consumer : Consumer} {k : Nat} {item : Value} {w₁ : World}
    (hhandles : consumer.Handles host source w k item w₁)
    (hfixed : ∀ h : Heap, (h.takeFrom source).1.2 = source)
    (hspares : consumer.Spares host source w) :
    (w.heap.ahead (w.heap.cursorOf source))[k]? = some item := by
  cases consumer with
  | collect =>
    obtain ⟨acc, hcalls⟩ := hhandles
    exact hcalls.getElem? hfixed spares_collecting
  | map f =>
    obtain ⟨acc, hcalls⟩ := hhandles
    exact hcalls.getElem? hfixed (spares_mapping hspares)
  | filter f =>
    obtain ⟨acc, hcalls⟩ := hhandles
    exact hcalls.getElem? hfixed (spares_filtering hspares)
  | sum start =>
    obtain ⟨acc, hcalls⟩ := hhandles
    exact hcalls.getElem? hfixed (spares_adding hfixed start)

/-- A consumer that ends with a result has come to each item. -/
theorem exists_handles_of_ends {consumer : Consumer} {u result : Value} {w' : World}
    (hfixed : ∀ h : Heap, (h.takeFrom source).1.2 = source) (hof : Source.of u = .ok source)
    (hspares : consumer.Spares host source w) (hends : consumer.Ends host w u (.ok result) w')
    {k : Nat} (hk : k < (w.heap.ahead (w.heap.cursorOf source)).length) :
    ∃ item w₁, consumer.Handles host source w k item w₁ := by
  obtain ⟨fuel, hends⟩ := (ends_iff_run consumer).mp hends
  cases consumer with
  | collect =>
    obtain ⟨items | items, hfold, hitems⟩ := ends_map_iff.mp hends
    · cases hitems
    obtain ⟨acc, item, w₁, hcalls⟩ := LoopBody.collecting.exists_calls_of_ends hfixed hof hfold
      spares_collecting hk
    exact ⟨item, w₁, acc, hcalls⟩
  | map f =>
    obtain ⟨items | items, w₂, hfold, hitems⟩ := ends_bind_newList_iff.mp hends
    · cases hitems.1
    obtain ⟨acc, item, w₁, hcalls⟩ := (LoopBody.mapping host f).exists_calls_of_ends hfixed hof hfold
      (spares_mapping hspares) hk
    exact ⟨item, w₁, acc, hcalls⟩
  | filter f =>
    obtain ⟨items | items, w₂, hfold, hitems⟩ := ends_bind_newList_iff.mp hends
    · cases hitems.1
    obtain ⟨acc, item, w₁, hcalls⟩ := (LoopBody.filtering host f).exists_calls_of_ends hfixed hof
      hfold (spares_filtering hspares) hk
    exact ⟨item, w₁, acc, hcalls⟩
  | sum start =>
    obtain ⟨acc, item, w₁, hcalls⟩ := LoopBody.adding.exists_calls_of_ends hfixed hof hends
      (spares_adding hfixed start) hk
    exact ⟨item, w₁, acc, hcalls⟩

end Consumer

end Builtins
