-- Iterators that a consumer has left. A consumer that fails at an item has taken that item and those
-- before it, so whatever goes on with the iterator afterwards begins with the next one. A consumer that
-- ends with a result has left nothing.
import Builtins.Proofs.Loop.Failing

namespace Builtins

open Builtins.Action

/-! ## Where a consumer fails -/

namespace Consumer

/-- Whether a consumer fails at the `k`-th item, counted from zero: a call of its function with the
item fails, or the item cannot be added to what the items before it have come to. -/
inductive FailsAt (host : Host) (source : Source) (w : World) (k : Nat) (item : Value)
    (fault : Fault) (w' : World) : Consumer → Prop
  | call {consumer : Consumer} {f : Value} {w₁ : World} (hfunction : consumer.function? = some f)
    (hhandles : consumer.Handles host source w k item w₁)
    (hcall : host.Ends w₁ f [item] (.error fault) w') :
    FailsAt host source w k item fault w' consumer
  | addition {start total : Value}
    (hcalls : LoopBody.adding.Calls source start w k ⟨total, item, w'⟩)
    (hadd : w'.heap.add total item = (.error fault, w'.heap)) :
    FailsAt host source w k item fault w' (sum start)

/-- Whether no call of its function, however it ends, touches what a consumer goes by. -/
def LeavesAlone (host : Host) (source : Source) (w : World) (consumer : Consumer) : Prop :=
  ∀ f, consumer.function? = some f → ∀ k item w₁ answer w₂,
    consumer.Handles host source w k item w₁ → host.Ends w₁ f [item] answer w₂ →
      ∃ steps, w₂.heap = w₁.heap.after steps ∧ Heap.Spared source w₁.heap steps

/-- Whether a consumer comes to some items, one after the other: to all of them if it ends with a
result, and up to the one that it fails at. -/
structure GoesOver (host : Host) (source : Source) (w : World) (items : List Value) (u : Value)
    (consumer : Consumer) : Prop where
  inOrder : ∀ {k x w₁}, consumer.Handles host source w k x w₁ → items[k]? = some x
  whole : ∀ {result w'}, consumer.Ends host w u (.ok result) w' →
    ∀ j, (∃ x w₁, consumer.Handles host source w j x w₁) ↔ j < items.length
  broken : ∀ {k x fault w'}, consumer.FailsAt host source w k x fault w' →
    ∀ j, (∃ x w₁, consumer.Handles host source w j x w₁) ↔ j ≤ k

end Consumer

/-- What calls of `next` give one after the other, until one raises the signal that there is no item
left. -/
inductive Host.Drains (host : Host) (u : Value) : World → List Value → World → Prop
  | done {w w' : World} {e : ExceptionInstance}
    (hnext : host.Ends w (.builtin .next) [u] (.error (.raised e)) w')
    (hkind : e.kind = .stopIteration) : Drains host u w [] w'
  | item {w w₁ w' : World} {x : Value} {xs : List Value}
    (hnext : host.Ends w (.builtin .next) [u] (.ok x) w₁) (hrest : Drains host u w₁ xs w') :
    Drains host u w (x :: xs) w'

/-- Whether an iterator hands out some items and no others, in order, to whatever drains it: to calls
of `next`, to what collects them, and to each consumer that does not itself interfere. -/
structure Host.HandsOut (host : Host) (u : Value) (source : Source) (w : World)
    (items : List Value) : Prop where
  drains : ∀ xs, (∃ w', host.Drains u w xs w') ↔ xs = items
  collects : ∀ answer, (∃ w', Consumer.collect.Ends host w u answer w') ↔
    answer = .ok (.tuple items)
  consumes : ∀ {consumer : Consumer}, consumer.LeavesAlone host source w →
    consumer.GoesOver host source w items u

/-! ## Consumers as loops -/

/-- A loop by an iterator or a generator goes on by the same. -/
theorem Heap.source_takeFrom {u : Value} {source : Source} (hu : u.isIterator = true)
    (hof : Source.of u = .ok source) (h : Heap) : (h.takeFrom source).1.2 = source :=
  (next_eq_takeFrom hu hof h).1

/-- An addition that fails changes nothing. -/
theorem Heap.eq_of_add_error {h h' : Heap} {a b : Value} {fault : Fault}
    (hadd : h.add a b = (.error fault, h')) : h' = h := by
  unfold add at hadd
  split at hadd
  · cases hadd
  · cases hadd
  · cases hadd
  · exact (congrArg Prod.snd hadd).symm

namespace Consumer

/-- What the loop of a consumer puts together. -/
def Carrier : Consumer → Type
  | sum _ => Value
  | _ => Array Value

/-- What a consumer does with each item. -/
def body (host : Host) : (consumer : Consumer) → LoopBody consumer.Carrier
  | collect => .collecting
  | map f => .mapping host f
  | filter f => .filtering host f
  | sum _ => .adding

/-- What the loop of a consumer begins with. -/
def first : (consumer : Consumer) → consumer.Carrier
  | collect | map _ | filter _ => (#[] : Array Value)
  | sum start => start

variable {host : Host} {source : Source} {w w' w₁ : World} {u item : Value} {k : Nat}
  {fault : Fault} {items : List Value}

theorem handles_iff (consumer : Consumer) : consumer.Handles host source w k item w₁ ↔
    ∃ acc, (consumer.body host).Calls source consumer.first w k ⟨acc, item, w₁⟩ := by
  cases consumer <;> exact Iff.rfl

theorem spares_body {consumer : Consumer} (hfixed : ∀ h : Heap, (h.takeFrom source).1.2 = source)
    (hspares : consumer.Spares host source w) :
    (consumer.body host).Spares source consumer.first w := by
  cases consumer with
  | collect => exact spares_collecting
  | map f => exact spares_mapping hspares
  | filter f => exact spares_filtering hspares
  | sum start => exact spares_adding hfixed start

/-- A consumer fails exactly if its loop does, and with the same fault. -/
theorem ends_error_iff (consumer : Consumer) (hof : Source.of u = .ok source) :
    consumer.Ends host w u (.error fault) w' ↔ ∃ fuel,
      Action.Ends (Run.loop ((consumer.body host).run fuel) source fuel consumer.first) w
        (.error fault) w' := by
  have hlisted : ∀ {a : Action (Array Value)},
      (a >>= newList).Ends w (.error fault) w' ↔ a.Ends w (.error fault) w' := by
    intro a
    rw [ends_bind_newList_iff]
    constructor
    · rintro ⟨fault' | xs, w₁, hends, hanswer, hw⟩
      · cases hanswer
        exact hw ▸ hends
      · cases hanswer
    · exact fun hends => ⟨_, _, hends, rfl, rfl⟩
  rw [ends_iff_run]
  refine exists_congr fun fuel => ?_
  cases consumer with
  | collect =>
    simp only [run, ends_map_iff, Action.collect, foldItems_of_ok hof]
    constructor
    · rintro ⟨answer, hends, hanswer⟩
      rwa [map_eq_error_iff.mp hanswer.symm] at hends
    · exact fun hends => ⟨_, hends, rfl⟩
  | map f =>
    simp only [run, Builtin.mapItems, foldItems_of_ok hof]
    exact hlisted
  | filter f =>
    simp only [run, Builtin.filterItems, foldItems_of_ok hof]
    exact hlisted
  | sum start =>
    simp only [run, Builtin.sumItems, foldItems_of_ok hof]
    exact Iff.rfl

/-- A consumer that ends with a result has come to the end of its loop, and has made at most a new
list since. -/
theorem exists_loop_of_ends {consumer : Consumer} {result : Value} (hof : Source.of u = .ok source)
    (hends : consumer.Ends host w u (.ok result) w') :
    ∃ fuel last w₁, Action.Ends
        (Run.loop ((consumer.body host).run fuel) source fuel consumer.first) w (.ok last) w₁ ∧
      (w' = w₁ ∨ ∃ xs, w' = { w₁ with heap := (w₁.heap.newList xs).2 }) := by
  have hlisted : ∀ {a : Action (Array Value)}, (a >>= newList).Ends w (.ok result) w' →
      ∃ xs w₁, a.Ends w (.ok xs) w₁ ∧ w' = { w₁ with heap := (w₁.heap.newList xs).2 } := by
    intro a hends
    obtain ⟨fault | xs, w₁, hloop, hanswer, hw⟩ := ends_bind_newList_iff.mp hends
    · cases hanswer
    · exact ⟨xs, w₁, hloop, hw⟩
  obtain ⟨fuel, hends⟩ := (ends_iff_run consumer).mp hends
  cases consumer with
  | collect =>
    simp only [run, ends_map_iff, Action.collect, foldItems_of_ok hof] at hends
    obtain ⟨answer, hloop, hanswer⟩ := hends
    obtain ⟨xs, rfl, -⟩ := map_eq_ok_iff.mp hanswer.symm
    exact ⟨fuel, xs, w', hloop, Or.inl rfl⟩
  | map f =>
    simp only [run, Builtin.mapItems, foldItems_of_ok hof] at hends
    obtain ⟨xs, w₁, hloop, hw⟩ := hlisted hends
    exact ⟨fuel, xs, w₁, hloop, Or.inr ⟨xs, hw⟩⟩
  | filter f =>
    simp only [run, Builtin.filterItems, foldItems_of_ok hof] at hends
    obtain ⟨xs, w₁, hloop, hw⟩ := hlisted hends
    exact ⟨fuel, xs, w₁, hloop, Or.inr ⟨xs, hw⟩⟩
  | sum start =>
    simp only [run, Builtin.sumItems, foldItems_of_ok hof] at hends
    exact ⟨fuel, result, w', hends, Or.inl rfl⟩

/-- The item that a consumer fails at is the one of the call of its body that fails. -/
theorem failsAt_iff (consumer : Consumer) : consumer.FailsAt host source w k item fault w' ↔
    ∃ acc w₁, (consumer.body host).Calls source consumer.first w k ⟨acc, item, w₁⟩ ∧
      (consumer.body host).Ends ⟨acc, item, w₁⟩ (.error fault) w' := by
  constructor
  · rintro (⟨hfunction, hhandles, fuel, hcall⟩ | ⟨hcalls, hadd⟩)
    · obtain ⟨acc, hcalls⟩ := (handles_iff consumer).mp hhandles
      refine ⟨acc, _, hcalls, fuel, ?_⟩
      cases consumer with
      | collect => cases hfunction
      | map f =>
        cases hfunction
        exact (Builtin.callsItem_mapItem _ _ _ _ _ _ _).mpr ⟨_, hcall, rfl⟩
      | filter f =>
        have hf : f ≠ .null := by
          rintro rfl
          cases hfunction
        obtain rfl : f = _ := by
          cases f with
          | null => exact absurd rfl hf
          | _ => exact Option.some.inj hfunction
        exact (Builtin.callsItem_filterItem hf _ _ _ _ _).mpr ⟨_, hcall, rfl⟩
      | sum start => cases hfunction
    · refine ⟨_, _, hcalls, 0, ?_⟩
      have hends : (attempt (·.add _ item)).Ends w' (.error fault) w' :=
        ends_attempt_of_eq hadd
      exact hends
  · rintro ⟨acc, w₁, hcalls, fuel, hends⟩
    have hhandles := (handles_iff consumer).mpr ⟨acc, hcalls⟩
    cases consumer with
    | collect => cases (ends_pure_iff.mp hends).1
    | map f =>
      obtain ⟨y, hcall, hy⟩ := (Builtin.callsItem_mapItem _ _ _ _ _ _ _).mp hends
      obtain rfl := map_eq_error_iff.mp hy.symm
      exact .call rfl hhandles ⟨fuel, hcall⟩
    | filter f =>
      by_cases hf : f = .null
      · -- Without a predicate, nothing fails.
        subst hf
        cases (hends.unique (Builtin.ends_filterItem_null acc item w₁)).1
      · have hfunction : (filter f).function? = some f := by
          cases f with
          | null => exact absurd rfl hf
          | _ => rfl
        obtain ⟨y, hcall, hy⟩ := (Builtin.callsItem_filterItem hf _ _ _ _ _).mp hends
        obtain rfl := map_eq_error_iff.mp hy.symm
        exact .call hfunction hhandles ⟨fuel, hcall⟩
    | sum start =>
      have hadds : (attempt (·.add acc item)).Ends w₁ (.error fault) w' := hends
      obtain ⟨hfault, rfl⟩ := ends_attempt_iff.mp hadds
      have hadd : w₁.heap.add acc item = (.error fault, (w₁.heap.add acc item).2) :=
        Prod.ext hfault.symm rfl
      have hsame := Heap.eq_of_add_error hadd
      rw [hsame] at hadd ⊢
      exact .addition hcalls hadd

/-! ## What a consumer leaves -/

section Left

variable {consumer : Consumer} {result : Value} (hu : u.isIterator = true)
  (hof : Source.of u = .ok source)
include hu hof

theorem Handles.has (hhandles : consumer.Handles host source w k item w₁) :
    w₁.heap.Has source := by
  obtain ⟨acc, hcalls⟩ := (handles_iff consumer).mp hhandles
  exact hcalls.has (Heap.source_takeFrom hu hof)

/-- Calls that do not touch what a consumer goes by leave what lies ahead of it. -/
theorem LeavesAlone.ahead {f : Value} {answer : Except Fault Value}
    (hleaves : consumer.LeavesAlone host source w) (hfunction : consumer.function? = some f)
    (hhandles : consumer.Handles host source w k item w₁) (hcall : host.Ends w₁ f [item] answer w') :
    w'.heap.ahead (w'.heap.cursorOf source) = w₁.heap.ahead (w₁.heap.cursorOf source) := by
  obtain ⟨steps, hsteps, hspared⟩ := hleaves f hfunction k item w₁ answer w' hhandles hcall
  rw [hsteps]
  exact (hhandles.has hu hof).ahead_after hspared

theorem LeavesAlone.spares (hleaves : consumer.LeavesAlone host source w) :
    consumer.Spares host source w :=
  fun _ hfunction _ _ _ _ _ hhandles hcall => hleaves.ahead hu hof hfunction hhandles hcall

theorem goesOver (hleaves : consumer.LeavesAlone host source w)
    (hahead : w.heap.ahead (w.heap.cursorOf source) = items) :
    consumer.GoesOver host source w items u := by
  have hfixed := Heap.source_takeFrom hu hof
  have hspares := hleaves.spares hu hof
  subst hahead
  refine ⟨fun hhandles => hhandles.getElem? hfixed hspares, fun hends j => ⟨?_, ?_⟩,
    fun hfails j => ?_⟩
  · rintro ⟨x, w₁, hhandles⟩
    exact (List.getElem?_eq_some_iff.mp (hhandles.getElem? hfixed hspares)).1
  · exact fun hj => exists_handles_of_ends hfixed hof hspares hends hj
  · obtain ⟨acc, w₂, hcalls, hends⟩ := (failsAt_iff consumer).mp hfails
    constructor
    · rintro ⟨x, w₁, hhandles⟩
      obtain ⟨acc', hother⟩ := (handles_iff consumer).mp hhandles
      exact hcalls.le_of_fails hends hother
    · intro hj
      obtain ⟨⟨acc', x, w₁⟩, hother⟩ := hcalls.exists_of_le hj
      exact ⟨x, w₁, (handles_iff consumer).mpr ⟨acc', hother⟩⟩

/-- The items behind the one that a consumer fails at are still ahead. -/
theorem FailsAt.ahead (hfails : consumer.FailsAt host source w k item fault w')
    (hleaves : consumer.LeavesAlone host source w)
    (hahead : w.heap.ahead (w.heap.cursorOf source) = items) :
    w'.heap.ahead (w'.heap.cursorOf source) = items.drop (k + 1) := by
  have hfixed := Heap.source_takeFrom hu hof
  have hspares := spares_body hfixed (hleaves.spares hu hof)
  subst hahead
  cases hfails with
  | call hfunction hhandles hcall =>
    obtain ⟨acc, hcalls⟩ := (handles_iff consumer).mp hhandles
    rw [hleaves.ahead hu hof hfunction hhandles hcall]
    exact (Heap.getElem?_of_drop_eq_cons (hcalls.drop_ahead hfixed hspares)).2.symm
  | addition hcalls =>
    exact (Heap.getElem?_of_drop_eq_cons (hcalls.drop_ahead hfixed hspares)).2.symm

/-- A consumer that ends with a result leaves nothing ahead. -/
theorem ahead_of_ends (hs : w.heap.Has source) (hends : consumer.Ends host w u (.ok result) w') :
    w'.heap.ahead (w'.heap.cursorOf source) = [] := by
  obtain ⟨fuel, last, w₁, hloop, hw⟩ := exists_loop_of_ends hof hends
  have hover := LoopBody.ahead_of_ends (Heap.source_takeFrom hu hof) hloop
  rcases hw with rfl | ⟨xs, rfl⟩
  · exact hover
  · -- What the loop goes by is still there, so it is not the new list.
    have hleads := keeps_loop World.chains_leads (fun w source => w.leads_step (.turn source))
      ((consumer.body host).stepwise fuel) source fuel consumer.first _ _ _ hloop
    obtain ⟨steps, hsteps⟩ := hleads.heap
    have hs₁ : w₁.heap.Has source := hsteps ▸ (hs.reaches_after steps).1
    exact (Heap.ahead_newList hs₁ xs).2.trans hover

end Left

end Consumer

/-! ## What an iterator hands out -/

section HandsOut

variable {host : Host} {u : Value} {source : Source} {w w' : World} {items xs : List Value}
  (hu : u.isIterator = true) (hof : Source.of u = .ok source)
include hu hof

theorem Host.Drains.items_eq (hdrains : host.Drains u w xs w') :
    xs = w.heap.ahead (w.heap.cursorOf source) := by
  induction hdrains with
  | @done w _ e hnext hkind =>
    cases hitems : w.heap.ahead (w.heap.cursorOf source) with
    | nil => rfl
    | cons x items =>
      have hok := Heap.next_of_ahead_eq_cons hu hof hitems
      cases hok.symm.trans (Host.ends_next_iff.mp hnext).1.symm
  | item hnext _ ih =>
    obtain ⟨hanswer, rfl⟩ := Host.ends_next_iff.mp hnext
    rw [ih, (Heap.ahead_of_next_ok hu hof hanswer.symm).2.1]

theorem Host.exists_drains (host : Host)
    (hahead : w.heap.ahead (w.heap.cursorOf source) = items) : ∃ w', host.Drains u w items w' := by
  induction items generalizing w with
  | nil =>
    obtain ⟨source', h', ht⟩ := Heap.takeFrom_of_ahead_eq_nil hahead
    have hnext := (Heap.next_eq_takeFrom hu hof w.heap).2
    rw [ht] at hnext
    exact ⟨_, .done (Host.ends_next_iff.mpr ⟨(congrArg Prod.fst hnext).symm, rfl⟩) rfl⟩
  | cons x items ih =>
    have hnext := Heap.next_of_ahead_eq_cons hu hof hahead
    have hrest := (Heap.ahead_of_next_ok hu hof hnext).2.1.symm.trans hahead
    obtain ⟨w', hdrains⟩ := ih (w := ⟨(w.heap.next u).2, w.output⟩) (List.cons.inj hrest).2
    exact ⟨w', .item (Host.ends_next_iff.mpr ⟨hnext.symm, rfl⟩) hdrains⟩

/-- An iterator hands out what lies ahead of it. -/
theorem Host.handsOut (host : Host) (hahead : w.heap.ahead (w.heap.cursorOf source) = items) :
    host.HandsOut u source w items := by
  refine ⟨fun xs => ⟨?_, ?_⟩, fun answer => ⟨?_, ?_⟩, fun hleaves => Consumer.goesOver hu hof hleaves
    hahead⟩
  · rintro ⟨w', hdrains⟩
    exact (hdrains.items_eq hu hof).trans hahead
  · rintro rfl
    exact host.exists_drains hu hof hahead
  · rintro ⟨w', n, answer', hends, rfl⟩
    obtain ⟨w₁, m, answer₁, hall, hitems⟩ := Consumer.exists_ends_collect (w := w) host hof
    have hsteady : ∀ {i : Nat}, i ≤ max n m → Run.Within (Action.collect i u).run
        (Action.collect (max n m) u).run := fun hi =>
      foldItems_within (LoopBody.collecting.steady hi) hi u #[]
    have hn : (Action.collect (max n m) u).Ends w answer' w' :=
      hsteady (Nat.le_max_left n m) _ _ hends
    have hm : (Action.collect (max n m) u).Ends w answer₁ w₁ :=
      hsteady (Nat.le_max_right n m) _ _ hall
    obtain ⟨rfl, -⟩ := hn.unique hm
    rw [← hitems, hahead]
  · rintro rfl
    rw [← hahead]
    exact Consumer.exists_ends_collect host hof

end HandsOut

/-- An iterator or a generator hands out what lies ahead of it. A consumer whose calls do not themselves
touch it comes to these items one after the other. It fails exactly if it fails at one of them, has come
to that one and to all before it then, and to no other, so the iterator hands out the items behind it:
none a second time, and none is left out. If the consumer ends with a result, there is none left. -/
theorem a_consumer_that_fails_leaves_the_items_behind_its_last (host : Host) {consumer : Consumer}
    {u : Value} {source : Source} {w : World} {items : List Value} (hu : u.isIterator = true)
    (hof : Source.of u = .ok source) (hs : w.heap.Has source)
    (hahead : w.heap.ahead (w.heap.cursorOf source) = items)
    (hleaves : consumer.LeavesAlone host source w) :
    host.HandsOut u source w items ∧ consumer.GoesOver host source w items u ∧
      (∀ fault w', consumer.Ends host w u (.error fault) w' ↔
        ∃ k x, consumer.FailsAt host source w k x fault w') ∧
      (∀ k x fault w', consumer.FailsAt host source w k x fault w' →
        host.HandsOut u source w' (items.drop (k + 1))) ∧
      ∀ result w', consumer.Ends host w u (.ok result) w' → host.HandsOut u source w' [] := by
  refine ⟨host.handsOut hu hof hahead, Consumer.goesOver hu hof hleaves hahead, fun fault w' => ?_,
    ?_, ?_⟩
  · rw [consumer.ends_error_iff hof, LoopBody.ends_loop_error_iff]
    simp only [Consumer.failsAt_iff]
    constructor
    · rintro ⟨k, ⟨acc, x, w₁⟩, hcalls, hends⟩
      exact ⟨k, x, acc, w₁, hcalls, hends⟩
    · rintro ⟨k, x, acc, w₁, hcalls, hends⟩
      exact ⟨k, ⟨acc, x, w₁⟩, hcalls, hends⟩
  · intro k x fault w' hfails
    exact host.handsOut hu hof (hfails.ahead hu hof hleaves hahead)
  · intro result w' hends
    exact host.handsOut hu hof (Consumer.ahead_of_ends hu hof hs hends)

/-- The length of an integer is where `map` fails, and the items behind that integer are not lost. -/
theorem an_integer_without_length_is_not_handed_out_again :
    let host : Host := {}
    let u : Value := .iterator ⟨.tuple, ⟨0⟩⟩
    let w : World := { heap := { cursors := #[.tuple [.text "a", .int 1, .int 2, .null]] } }
    let left : World := { heap := { cursors := #[.tuple [.int 2, .null]] } }
    let consumer : Consumer := .map (.builtin .len)
    consumer.LeavesAlone host (.shared ⟨0⟩) w ∧
      consumer.Ends host w u (.error (.argumentType "len" "obj" "sized" "int")) left ∧
      host.HandsOut u (.shared ⟨0⟩) left [.int 2, .null] := by
  intro host u w left consumer
  have hleaves : consumer.LeavesAlone host (.shared ⟨0⟩) w := by
    rintro f ⟨⟩ k item w₁ answer w₂ - hcall
    obtain ⟨fuel, hends⟩ := Host.ends_builtin_iff.mp hcall
    obtain ⟨-, rfl⟩ := ends_ofExcept_iff.mp hends
    exact ⟨[], rfl, trivial⟩
  have hs : w.heap.Has (.shared ⟨0⟩) := ⟨Nat.zero_lt_one, trivial⟩
  obtain ⟨-, -, hends, hfails, -⟩ := a_consumer_that_fails_leaves_the_items_behind_its_last host
    (u := u) rfl rfl hs rfl hleaves
  have hhandles : consumer.Handles host (.shared ⟨0⟩) w 1 (.int 1) left :=
    ⟨#[.int 1], .later (h := ⟨#[], #[], #[.tuple [.int 1, .int 2, .null]], 0⟩) rfl ⟨2, rfl⟩
      (.first rfl)⟩
  have hfailsAt : consumer.FailsAt host (.shared ⟨0⟩) w 1 (.int 1)
      (.argumentType "len" "obj" "sized" "int") left := .call rfl hhandles ⟨1, rfl⟩
  exact ⟨hleaves, (hends _ _).mpr ⟨1, _, hfailsAt⟩, hfails 1 _ _ _ hfailsAt⟩

end Builtins
