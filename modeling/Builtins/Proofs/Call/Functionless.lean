-- Calls where the host has no functions of its own. Nothing is appended to a list there, so every
-- loop goes over what it has found, and every call comes to an end: the calls that `map` and `filter`
-- make have one argument, and such a call makes none itself.
import Builtins.Proofs.Filtering.Kept
import Builtins.Proofs.Loop.Calls
import Builtins.Proofs.Snapshot.Acyclic

namespace Builtins

open Builtins.Action

/-! ## Lists stay as they are -/

/-- Every list is in the second world as it is in the first. -/
def World.KeepsLists (w w' : World) : Prop := w.heap.Extends w'.heap

theorem World.chains_keepsLists : World.Chains World.KeepsLists :=
  ⟨fun w => w.heap.extends_refl, Heap.Extends.trans⟩

theorem Heap.extends_perform (h : Heap) {s : Step} (hs : ∀ l item, s ≠ .deed (.append l item)) :
    h.Extends (s.perform h).2 :=
  ⟨(list_perform hs).1, (list_perform hs).2⟩

theorem Builtin.keepsLists_run (config : Config) {invoke : Caller}
    (hinvoke : ∀ f args, (invoke f args).Keeps World.KeepsLists) (fuel : Nat) (b : Builtin)
    (args : List Value) : (b.run config invoke fuel args).Keeps World.KeepsLists :=
  keeps_run World.chains_keepsLists (fun w _ hs => w.heap.extends_perform hs) config fuel b args
    (fun _ w _ => w.heap.extends_refl) fun _ => hinvoke

namespace Host

variable {host : Host} (hnone : host.functions = #[])

include hnone

theorem function?_eq_none (id : CallableId) : host.function? id = none := by
  unfold function?
  split
  · rfl
  · simp [hnone]

theorem keepsLists_call (fuel : Nat) (f : Value) (args : List Value) :
    (host.call fuel f args).Keeps World.KeepsLists := by
  induction fuel generalizing f args with
  | zero => exact keeps_outOfFuel
  | succ fuel ih =>
    cases f with
    | builtin b => exact Builtin.keepsLists_run host.config ih fuel b args
    | function id name =>
      simp only [call, function?_eq_none hnone]
      exact keeps_throw World.chains_keepsLists _
    | exceptionType kind =>
      refine keeps_bind World.chains_keepsLists (keeps_onHeap fun w => ?_) fun _ =>
        keeps_pure World.chains_keepsLists _
      exact w.heap.extends_perform (s := .deed (.newException kind args)) (by simp)
    | _ => exact keeps_throw World.chains_keepsLists _

end Host

/-! ## Every computation ends -/

/-- Wherever the computation begins, it ends. -/
def Action.Total {α : Type} (a : Action α) : Prop := ∀ w, ∃ answer w', a.Ends w answer w'

namespace Action

variable {α β : Type}

theorem total_pure (x : α) : (pure x : Action α).Total :=
  fun w => ⟨.ok x, w, ends_pure_iff.mpr ⟨rfl, rfl⟩⟩

theorem total_throw (fault : Fault) : (throw fault : Action α).Total :=
  fun w => ⟨.error fault, w, ends_throw_iff.mpr ⟨rfl, rfl⟩⟩

theorem total_heap : Action.heap.Total := fun w => ⟨.ok w.heap, w, ends_heap_iff.mpr ⟨rfl, rfl⟩⟩

theorem total_write (line : String) : (write line).Total :=
  fun _ => ⟨_, _, ends_write_iff.mpr ⟨rfl, rfl⟩⟩

theorem total_ofExcept (result : Except Fault α) : (ofExcept result).Total :=
  fun w => ⟨result, w, ends_ofExcept_iff.mpr ⟨rfl, rfl⟩⟩

theorem total_onHeap (step : Heap → α × Heap) : (onHeap step).Total :=
  fun _ => ⟨_, _, ends_onHeap_iff.mpr ⟨rfl, rfl⟩⟩

theorem total_attempt (step : Heap → Except Fault α × Heap) : (attempt step).Total :=
  fun _ => ⟨_, _, ends_attempt_iff.mpr ⟨rfl, rfl⟩⟩

theorem total_bind {a : Action α} {f : α → Action β} (ha : a.Total) (hf : ∀ x, (f x).Total) :
    (a >>= f).Total := by
  intro w
  obtain ⟨fault | x, w₁, h₁⟩ := ha w
  · exact ⟨_, w₁, ends_bind_iff.mpr (Or.inl ⟨fault, h₁, rfl⟩)⟩
  · obtain ⟨answer, w', h₂⟩ := hf x w₁
    exact ⟨answer, w', ends_bind_iff.mpr (Or.inr ⟨x, w₁, h₁, h₂⟩)⟩

theorem total_newList (items : Array Value) : (newList items).Total :=
  total_bind (total_onHeap _) fun _ => total_pure _

end Action

namespace Builtin

theorem eq_of_twoArguments {function : String} {args : List Value} {f v : Value}
    (h : twoArguments function args = .ok (f, v)) : args = [f, v] := by
  unfold twoArguments at h
  split at h
  · cases h
    rfl
  · cases h

/-- A built-in function without a loop ends. -/
theorem total_run (config : Config) (invoke : Caller) (fuel : Nat) {b : Builtin}
    (hb : b ≠ .map ∧ b ≠ .filter ∧ b ≠ .sum) (args : List Value) :
    (b.run config invoke fuel args).Total := by
  cases b with
  | print =>
    exact total_bind total_heap fun _ => total_bind (total_write _) fun _ => total_pure _
  | len =>
    exact total_bind (total_ofExcept _) fun _ => total_bind total_heap fun _ => total_ofExcept _
  | repr =>
    exact total_bind (total_ofExcept _) fun _ => total_bind total_heap fun _ => total_pure _
  | iter => exact total_bind (total_ofExcept _) fun _ => total_attempt _
  | next => exact total_bind (total_ofExcept _) fun _ => total_attempt _
  | map => exact absurd rfl hb.1
  | filter => exact absurd rfl hb.2.1
  | sum => exact absurd rfl hb.2.2
  | range =>
    refine total_bind (total_ofExcept _) fun p => ?_
    unfold rangeList
    cases p.iterates with
    | true => exact total_newList _
    | false => exact total_bind (total_write _) fun _ => total_newList _
  | xrange =>
    exact total_bind (total_ofExcept _) fun p => total_bind (total_onHeap _) fun _ => total_pure _

end Builtin

/-! ## Every loop ends -/

/-- A loop that calls its body while it goes over a list goes over one that is there. -/
theorem LoopBody.Calls.lt_size_lists {β : Type} {body : LoopBody β} {source : Source} {acc : β}
    {w : World} {n i : Nat} {l : ListId} {call : BodyCall β}
    (hcalls : body.Calls source acc w n call) (hlist : w.heap.cursorOf source = .list l i) :
    l.index < w.heap.lists.size := by
  cases hcalls with
  | first hsome => exact Heap.lt_size_lists (Heap.takeFrom_some_of_list hsome hlist).1
  | later hsome => exact Heap.lt_size_lists (Heap.takeFrom_some_of_list hsome hlist).1

/-- A loop whose calls end and change no list comes to an end. -/
theorem LoopBody.exists_loopEnds_of_keepsLists {β : Type} {body : LoopBody β}
    (hkeeps : ∀ fuel acc item, (body.run fuel acc item).Keeps World.KeepsLists)
    (hends : ∀ call, ∃ answer w', body.Ends call answer w') (v : Value) (start : β) (w : World) :
    ∃ answer w', body.LoopEnds v start w answer w' := by
  cases hof : Source.of v with
  | error fault =>
    exact ⟨_, w, 0, (ends_ofExcept_bind_of_error hof).mpr ⟨rfl, rfl⟩⟩
  | ok source =>
    have hcalls : ∀ n call, body.Calls source start w n call →
        ∃ answer w', body.Ends call answer w' := fun _ call _ => hends call
    have hmost : ∀ l i, w.heap.cursorOf source = .list l i →
        body.LeavesAtMost source start w l (w.heap.list l).size := by
      rintro l i hlist n call answer w' hcalls ⟨fuel, hcallEnds⟩
      have hbefore : w.heap.Extends call.start.heap :=
        hcalls.keeps World.chains_keepsLists
          (fun w₁ source => w₁.heap.extends_perform (s := .turn source) (by simp)) hkeeps
      have hafter : call.start.heap.Extends w'.heap := hkeeps fuel _ _ _ _ _ hcallEnds
      -- A list that the loop has found an item in is there from the start.
      have hknown : l.index < w.heap.lists.size := hcalls.lt_size_lists hlist
      exact Nat.le_of_eq (congrArg Array.size ((hbefore.trans hafter).list l hknown))
    exact exists_loopEnds hof hcalls fun l i hlist => ⟨_, hmost l i hlist⟩

/-! ## Every call ends -/

namespace Host

variable {host : Host}

/-- A computation that ends with any fuel is a call that ends. -/
theorem exists_ends_of_total {f : Value} {args : List Value} (h : (host.call 1 f args).Total)
    (w : World) : ∃ answer w', host.Ends w f args answer w' := by
  obtain ⟨answer, w', hends⟩ := h w
  exact ⟨answer, w', 1, hends⟩

theorem exists_ends_sum (args : List Value) (w : World) :
    ∃ answer w', host.Ends w (.builtin .sum) args answer w' := by
  cases hargs : Builtin.sumArguments args with
  | error fault => exact ⟨_, _, 1, (ends_ofExcept_bind_of_error hargs).mpr ⟨rfl, rfl⟩⟩
  | ok vs =>
    have hkeeps : ∀ fuel acc item, (LoopBody.adding.run fuel acc item).Keeps World.KeepsLists :=
      fun _ => Builtin.keeps_addItem fun w _ hs => w.heap.extends_perform hs
    have hends : ∀ call, ∃ answer w', LoopBody.adding.Ends call answer w' := by
      intro call
      obtain ⟨answer, w', h⟩ := total_attempt (·.add call.acc call.item) call.start
      exact ⟨answer, w', 0, h⟩
    obtain ⟨answer, w', fuel, hloop⟩ :=
      LoopBody.exists_loopEnds_of_keepsLists hkeeps hends vs.1 vs.2 w
    exact ⟨answer, w', fuel + 1, (ends_ofExcept_bind_of_ok hargs).mpr hloop⟩

/-- A call that is a loop ends if the loop does. -/
theorem exists_ends_of_loop {b : Builtin} (body : LoopBody (Array Value)) {f v : Value}
    (hcall : ∀ fuel, host.call (fuel + 1) (.builtin b) [f, v] =
      foldItems fuel v #[] (body.run fuel) >>= newList)
    (hkeeps : ∀ fuel acc item, (body.run fuel acc item).Keeps World.KeepsLists)
    (hends : ∀ call, ∃ answer w', body.Ends call answer w') (w : World) :
    ∃ answer w', host.Ends w (.builtin b) [f, v] answer w' := by
  obtain ⟨fault | items, w₁, fuel, hfold⟩ :=
    LoopBody.exists_loopEnds_of_keepsLists hkeeps hends v #[] w
  · refine ⟨.error fault, w₁, fuel + 1, ?_⟩
    rw [hcall]
    exact ends_bind_iff.mpr (Or.inl ⟨fault, hfold, rfl⟩)
  · obtain ⟨answer, w', hlist⟩ := total_newList items w₁
    refine ⟨answer, w', fuel + 1, ?_⟩
    rw [hcall]
    exact ends_bind_iff.mpr (Or.inr ⟨items, w₁, hfold, hlist⟩)

variable (hnone : host.functions = #[])

include hnone

theorem exists_ends_of_ne {f : Value} (hmap : f ≠ .builtin .map) (hfilter : f ≠ .builtin .filter)
    (args : List Value) (w : World) : ∃ answer w', host.Ends w f args answer w' := by
  cases f with
  | builtin b =>
    by_cases hsum : b = .sum
    · subst hsum
      exact exists_ends_sum args w
    · have hb : b ≠ .map ∧ b ≠ .filter ∧ b ≠ .sum := by
        refine ⟨?_, ?_, hsum⟩
        · rintro rfl
          exact hmap rfl
        · rintro rfl
          exact hfilter rfl
      have htotal : (host.call 1 (.builtin b) args).Total :=
        Builtin.total_run host.config _ 0 hb args
      exact exists_ends_of_total htotal w
  | function id name =>
    apply exists_ends_of_total
    simp only [call, function?_eq_none hnone]
    exact total_throw _
  | exceptionType kind =>
    have htotal : (host.call 1 (.exceptionType kind) args).Total :=
      total_bind (total_onHeap _) fun _ => total_pure _
    exact exists_ends_of_total htotal w
  | _ => exact exists_ends_of_total (total_throw _) w

/-- A call with one argument comes to no call of another function. -/
theorem exists_ends_single (f x : Value) (w : World) :
    ∃ answer w', host.Ends w f [x] answer w' := by
  by_cases hmap : f = .builtin .map
  · subst hmap
    exact ⟨_, _, 1, (ends_ofExcept_bind_of_error rfl).mpr ⟨rfl, rfl⟩⟩
  · by_cases hfilter : f = .builtin .filter
    · subst hfilter
      exact ⟨_, _, 1, (ends_ofExcept_bind_of_error rfl).mpr ⟨rfl, rfl⟩⟩
    · exact exists_ends_of_ne hnone hmap hfilter [x] w

/-- A body that calls a function with its item ends. -/
theorem exists_ends_mapping (f : Value) (call : BodyCall (Array Value)) :
    ∃ answer w', (LoopBody.mapping host f).Ends call answer w' := by
  obtain ⟨fault | x, w', fuel, hends⟩ := exists_ends_single hnone f call.item call.start
  · exact ⟨_, w', fuel, ends_bind_iff.mpr (Or.inl ⟨fault, hends, rfl⟩)⟩
  · exact ⟨_, w', fuel, ends_bind_iff.mpr (Or.inr ⟨x, w', hends, ends_pure_iff.mpr ⟨rfl, rfl⟩⟩)⟩

theorem exists_ends_filtering (f : Value) (call : BodyCall (Array Value)) :
    ∃ answer w', (LoopBody.filtering host f).Ends call answer w' := by
  by_cases hf : f = .null
  · subst hf
    exact ⟨_, _, 0, Builtin.ends_filterItem_null call.acc call.item call.start⟩
  · obtain ⟨y, w', fuel, hends⟩ := exists_ends_single hnone f call.item call.start
    exact ⟨_, w', fuel, (Builtin.callsItem_filterItem hf _ _ _ _ _).mpr ⟨y, hends, rfl⟩⟩

/-- Where the host has no functions of its own, every call ends. -/
theorem exists_ends (f : Value) (args : List Value) (w : World) :
    ∃ answer w', host.Ends w f args answer w' := by
  have hkeeps : ∀ fuel f args, (host.call fuel f args).Keeps World.KeepsLists :=
    keepsLists_call hnone
  by_cases hmap : f = .builtin .map
  · subst hmap
    cases hargs : Builtin.twoArguments "map" args with
    | error fault => exact ⟨_, _, 1, (ends_ofExcept_bind_of_error hargs).mpr ⟨rfl, rfl⟩⟩
    | ok vs =>
      obtain ⟨g, v⟩ := vs
      obtain rfl := Builtin.eq_of_twoArguments hargs
      exact exists_ends_of_loop (.mapping host g) (fun _ => rfl)
        (fun fuel => Builtin.keeps_mapItem World.chains_keepsLists (hkeeps fuel) g)
        (exists_ends_mapping hnone g) w
  · by_cases hfilter : f = .builtin .filter
    · subst hfilter
      cases hargs : Builtin.twoArguments "filter" args with
      | error fault => exact ⟨_, _, 1, (ends_ofExcept_bind_of_error hargs).mpr ⟨rfl, rfl⟩⟩
      | ok vs =>
        obtain ⟨g, v⟩ := vs
        obtain rfl := Builtin.eq_of_twoArguments hargs
        exact exists_ends_of_loop (.filtering host g) (fun _ => rfl)
          (fun fuel => Builtin.keeps_filterItem World.chains_keepsLists (hkeeps fuel) g)
          (exists_ends_filtering hnone g) w
    · exact exists_ends_of_ne hnone hmap hfilter args w

end Host

end Builtins
