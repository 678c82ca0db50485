-- What goes over the items of a value, and what it does with an iterator of the value instead. A loop
-- by a cursor of its own and a loop by a new iterator that stands where the cursor stands take the
-- same items in the same worlds, but for the new iterator.
import Builtins.Proofs.Loop.Calls
import Builtins.Proofs.Naming.Calls
import Builtins.Proofs.Naming.Closed

namespace Builtins

open Builtins.Action

theorem Source.of_iterator (it : Iterator) : Source.of (.iterator it) = .ok (.shared it.id) := rfl

/-! ## Items of a loop -/

namespace Heap

variable {h h' : Heap} {n : Nat} {c : Cursor} {item : Value} {source : Source}

/-- An item that a loop takes by a cursor of its own is one for the new iterator as well. -/
theorem takeFrom_room_of_own (hn : n ≤ h.cursors.size)
    (htaken : h.takeFrom (.own c) = ((some item, source), h')) :
    ∃ c', source = .own c' ∧ n ≤ h'.cursors.size ∧
      (h.room n (c.past n)).takeFrom (.shared ⟨n⟩) =
        ((some (item.past n), .shared ⟨n⟩), h'.room n (c'.past n)) := by
  have hsize := h.size_cursors_le_perform (.turn (.own c))
  simp only [Step.perform, takeFrom, Prod.mk.injEq] at hsize htaken
  obtain ⟨⟨hitem, rfl⟩, rfl⟩ := htaken
  refine ⟨_, rfl, Nat.le_trans hn hsize, ?_⟩
  rw [takeFrom_room_self hn, hitem]
  rfl

/-- The new iterator hands out no other items. -/
theorem own_of_takeFrom_room (hn : n ≤ h.cursors.size)
    (htaken : (h.room n (c.past n)).takeFrom (.shared ⟨n⟩) = ((some item, source), h')) :
    ∃ x c' h₁, h.takeFrom (.own c) = ((some x, .own c'), h₁) ∧ n ≤ h₁.cursors.size ∧
      item = x.past n ∧ source = .shared ⟨n⟩ ∧ h' = h₁.room n (c'.past n) := by
  have hsize := h.size_cursors_le_perform (.turn (.own c))
  simp only [Step.perform, takeFrom] at hsize
  rw [takeFrom_room_self hn] at htaken
  simp only [Prod.mk.injEq, Option.map_eq_some_iff] at htaken
  obtain ⟨⟨⟨x, hx, rfl⟩, rfl⟩, rfl⟩ := htaken
  refine ⟨x, _, _, ?_, Nat.le_trans hn hsize, rfl, rfl, rfl⟩
  simp only [takeFrom, hx]

end Heap

/-- Whether what comes about in one way is what comes about in another, but for one more iterator,
which has the number `n`. -/
structure Corresponds {α β : Type} (n : Nat) (ren : α → β) (comes : α → World → Prop)
    (comes' : β → World → Prop) : Prop where
  there : ∀ {x w}, comes x w → ∃ c, comes' (ren x) (w.room n c)
  back : ∀ {y w'}, comes' y w' → ∃ x w c, comes x w ∧ y = ren x ∧ w' = w.room n c

namespace LoopBody

variable {α β : Type} {n : Nat} {ren : α → β} {body : LoopBody α} {body' : LoopBody β}

/-- The body that collects items. -/
def collecting : LoopBody (Array Value) where
  run _ items item := return items.push item
  steady _ _ _ := Run.within_refl _
  stepwise _ items item := keeps_pure World.chains_leads (items.push item)

/-- Whether a body does, when there is one more iterator, what another does without it. -/
def Natural (n : Nat) (ren : α → β) (body : LoopBody α) (body' : LoopBody β) : Prop :=
  ∀ fuel acc item, Action.Natural n ren (body.run fuel acc item)
    (body'.run fuel (ren acc) (item.past n))

theorem natural_collecting (n : Nat) : Natural n (Array.map (Value.past n)) collecting collecting :=
  fun _ => natural_push

theorem natural_mapping {host : Host} (hhost : host.Blind n) (f : Value) :
    Natural n (Array.map (Value.past n)) (mapping host f) (mapping host (f.past n)) :=
  fun fuel => Builtin.natural_mapItem (hhost.natural fuel) f

theorem natural_filtering {host : Host} (hhost : host.Blind n) (f : Value) :
    Natural n (Array.map (Value.past n)) (filtering host f) (filtering host (f.past n)) :=
  fun fuel => Builtin.natural_filterItem (hhost.natural fuel) f

theorem natural_adding (n : Nat) : Natural n (Value.past n) adding adding :=
  fun _ => Builtin.natural_addItem

theorem Natural.calls (hbody : Natural n ren body body') {source : Source} {c : Cursor} {acc : α}
    {w : World} {k : Nat} {call : BodyCall α} (hcalls : body.Calls source acc w k call)
    (hsource : source = .own c) (hn : n ≤ w.heap.cursors.size) :
    ∃ c', body'.Calls (.shared ⟨n⟩) (ren acc) (w.room n (c.past n)) k
      ⟨ren call.acc, call.item.past n, call.start.room n c'⟩ := by
  induction hcalls generalizing c with
  | first hsome =>
    subst hsource
    obtain ⟨c', -, -, htaken⟩ := Heap.takeFrom_room_of_own hn hsome
    exact ⟨_, .first htaken⟩
  | later hsome hends _ ih =>
    subst hsource
    obtain ⟨c', hsource, hn', htaken⟩ := Heap.takeFrom_room_of_own hn hsome
    obtain ⟨fuel, hends⟩ := hends
    obtain ⟨_, rfl, hn₁, hends'⟩ := (hbody fuel _ _ _ (c'.past n) hn').there hends
    obtain ⟨c'', hrest⟩ := ih hsource hn₁
    exact ⟨c'', .later htaken ⟨fuel, hends'⟩ hrest⟩

theorem Natural.calls_back (hbody : Natural n ren body body') {source : Source} {c : Cursor}
    {acc : α} {acc' : β} {w w' : World} {k : Nat} {call : BodyCall β}
    (hcalls : body'.Calls source acc' w' k call) (hsource : source = .shared ⟨n⟩)
    (hacc : acc' = ren acc) (hw : w' = w.room n (c.past n)) (hn : n ≤ w.heap.cursors.size) :
    ∃ x w₁ c', (∃ acc₁, body.Calls (.own c) acc w k ⟨acc₁, x, w₁⟩) ∧ call.item = x.past n ∧
      call.start = w₁.room n c' := by
  induction hcalls generalizing c acc w with
  | first hsome =>
    subst hsource hacc hw
    obtain ⟨x, c', h₁, htaken, -, rfl, -, rfl⟩ := Heap.own_of_takeFrom_room hn hsome
    exact ⟨x, ⟨h₁, w.output⟩, c'.past n, ⟨_, .first htaken⟩, rfl, rfl⟩
  | later hsome hends _ ih =>
    subst hsource hacc hw
    obtain ⟨x, c', h₁, htaken, hn', rfl, hsource, rfl⟩ := Heap.own_of_takeFrom_room hn hsome
    obtain ⟨fuel, hends⟩ := hends
    obtain ⟨answer, w₁, _, rfl, hn₁, hends', hanswer, hw₁⟩ :=
      (hbody fuel acc x ⟨h₁, w.output⟩ (c'.past n) hn').back hends
    cases answer with
    | error fault => cases hanswer
    | ok acc₁ =>
      obtain ⟨y, w₂, c'', ⟨acc₂, hrest⟩, hitem, hstart⟩ :=
        ih hsource (Except.ok.inj hanswer) hw₁ hn₁
      exact ⟨y, w₂, c'', ⟨acc₂, .later htaken ⟨fuel, hends'⟩ hrest⟩, hitem, hstart⟩

/-- A loop by a cursor of its own and a loop by the new iterator come to the same items, each in the
same world. -/
theorem Natural.corresponds_calls (hbody : Natural n ren body body') {w : World}
    (hn : n ≤ w.heap.cursors.size) (c : Cursor) (acc : α) (k : Nat) :
    Corresponds n (Value.past n)
      (fun item w₁ => ∃ acc₁, body.Calls (.own c) acc w k ⟨acc₁, item, w₁⟩)
      (fun item w₁ => ∃ acc₁, body'.Calls (.shared ⟨n⟩) (ren acc) (w.room n (c.past n)) k
        ⟨acc₁, item, w₁⟩) where
  there := by
    rintro item w₁ ⟨acc₁, hcalls⟩
    obtain ⟨c', hcalls'⟩ := hbody.calls hcalls rfl hn
    exact ⟨c', _, hcalls'⟩
  back := by
    rintro item w₁ ⟨acc₁, hcalls⟩
    exact hbody.calls_back hcalls rfl rfl rfl hn

end LoopBody

/-! ## Consumers -/

/-- What goes over all items of a value. -/
inductive Consumer where
  | collect
  | map (f : Value)
  | filter (f : Value)
  | sum (start : Value)

namespace Consumer

/-- With fuel enough, a consumer ends with an answer and leaves the world `w'`. The items that are
collected come as a tuple. -/
def Ends (host : Host) (w : World) (v : Value) (answer : Except Fault Value) (w' : World) :
    Consumer → Prop
  | collect => ∃ fuel items, (Action.collect fuel v).Ends w items w' ∧
      answer = items.map fun xs => .tuple xs.toList
  | map f => host.Ends w (.builtin .map) [f, v] answer w'
  | filter f => host.Ends w (.builtin .filter) [f, v] answer w'
  | sum start => host.Ends w (.builtin .sum) [v, start] answer w'

/-- The `k`-th item, counted from zero, that a consumer comes to when it goes by a source, and the
world in which it does. If it has a function, that is what the function is called with then. -/
def Handles (host : Host) (source : Source) (w : World) (k : Nat) (item : Value) (w₁ : World) :
    Consumer → Prop
  | collect => ∃ acc, LoopBody.collecting.Calls source #[] w k ⟨acc, item, w₁⟩
  | map f => ∃ acc, (LoopBody.mapping host f).Calls source #[] w k ⟨acc, item, w₁⟩
  | filter f => ∃ acc, (LoopBody.filtering host f).Calls source #[] w k ⟨acc, item, w₁⟩
  | sum start => ∃ acc, LoopBody.adding.Calls source start w k ⟨acc, item, w₁⟩

/-- The `k`-th item of a value that a consumer comes to. -/
def ComesTo (host : Host) (w : World) (v : Value) (k : Nat) (item : Value) (w₁ : World)
    (consumer : Consumer) : Prop :=
  ∃ source, Source.of v = .ok source ∧ consumer.Handles host source w k item w₁

/-- Whether a heap knows the function or the first summand of a consumer. -/
def KnownTo (h : Heap) : Consumer → Prop
  | collect => True
  | map f => h.Knows f
  | filter f => h.Knows f
  | sum start => h.Knows start

/-- A consumer with a bound on its fuel. -/
def run (host : Host) (fuel : Nat) (v : Value) : Consumer → Action Value
  | collect => (fun xs => .tuple xs.toList) <$> Action.collect fuel v
  | map f => Builtin.mapItems (host.call fuel) fuel f v
  | filter f => Builtin.filterItems (host.call fuel) fuel f v
  | sum start => Builtin.sumItems fuel v start

end Consumer

/-- A call of a built-in function ends as the function does. -/
theorem Host.ends_builtin_iff {host : Host} {b : Builtin} {args : List Value} {w w' : World}
    {answer : Except Fault Value} :
    host.Ends w (.builtin b) args answer w' ↔
      ∃ fuel, (b.run host.config (host.call fuel) fuel args).Ends w answer w' := by
  constructor
  · rintro ⟨_ | fuel, hends⟩
    · exact absurd hends not_ends_outOfFuel
    · exact ⟨fuel, hends⟩
  · rintro ⟨fuel, hends⟩
    exact ⟨fuel + 1, hends⟩

namespace Consumer

variable {host : Host} {w w' : World} {v : Value} {answer : Except Fault Value} {n : Nat}

theorem ends_iff_run (consumer : Consumer) :
    consumer.Ends host w v answer w' ↔ ∃ fuel, (consumer.run host fuel v).Ends w answer w' := by
  cases consumer with
  | collect => simp only [Ends, run, ends_map_iff]
  | map f => exact Host.ends_builtin_iff
  | filter f => exact Host.ends_builtin_iff
  | sum start => exact Host.ends_builtin_iff

theorem comesTo_iff {consumer : Consumer} {k : Nat} {item : Value} {source : Source}
    (hof : Source.of v = .ok source) :
    consumer.ComesTo host w v k item w' ↔ consumer.Handles host source w k item w' := by
  unfold ComesTo
  rw [hof]
  constructor
  · rintro ⟨_, ⟨⟩, hhandles⟩
    exact hhandles
  · exact fun hhandles => ⟨source, rfl, hhandles⟩

/-- What cannot be iterated over is a fault of every consumer, and nothing else happens. -/
theorem ends_of_error {fault : Fault} (host : Host) (w : World) (consumer : Consumer)
    (hof : Source.of v = .error fault) : consumer.Ends host w v (.error fault) w := by
  have hfold : ∀ {α : Type} (start : α) (body : α → Value → Action α),
      (foldItems 0 v start body).Ends w (.error fault) w := fun start body =>
    (ends_ofExcept_bind_of_error hof).mpr ⟨rfl, rfl⟩
  refine (ends_iff_run consumer).mpr ⟨0, ?_⟩
  cases consumer with
  | collect => exact ends_map_iff.mpr ⟨_, hfold _ _, rfl⟩
  | map f => exact ends_bind_newList_iff.mpr ⟨_, _, hfold _ _, rfl, rfl⟩
  | filter f => exact ends_bind_newList_iff.mpr ⟨_, _, hfold _ _, rfl, rfl⟩
  | sum start => exact hfold _ _

/-! ## Over a value and over a new iterator of it -/

/-- A loop that puts its results into a new list, over a value and over the new iterator. -/
theorem renamed_listed {body : Array Value → Value → Action (Array Value)}
    (hbody : ∀ acc item, Action.Natural n (Array.map (Value.past n)) (body acc item)
      (body (acc.map (Value.past n)) (item.past n))) {c : Cursor} {kind : IteratorKind}
    (hof : Source.of v = .ok (.own c)) (hn : n ≤ w.heap.cursors.size) (fuel : Nat) :
    Renamed n (fun _ => True) (Value.past n)
      ((foldItems fuel v #[] body >>= newList).run w)
      ((foldItems fuel (.iterator ⟨kind, ⟨n⟩⟩) #[] body >>= newList).run (w.room n (c.past n))) := by
  have hloop := renamed_loop hbody hn c fuel #[]
  rw [Array.map_empty] at hloop
  rw [foldItems_of_ok hof, foldItems_of_ok (Source.of_iterator _)]
  exact hloop.bind (fun _ => id) fun xs w₁ c' hn₁ _ =>
    (natural_newList xs w₁ c' hn₁).mono fun _ _ => trivial

theorem renamed_run (hhost : host.Blind w.heap.cursors.size) (consumer : Consumer)
    (hconsumer : consumer.KnownTo w.heap) {c : Cursor} {kind : IteratorKind}
    (hof : Source.of v = .ok (.own c)) (fuel : Nat) :
    Renamed w.heap.cursors.size (fun _ => True) (Value.past w.heap.cursors.size)
      ((consumer.run host fuel v).run w)
      ((consumer.run host fuel (.iterator ⟨kind, ⟨w.heap.cursors.size⟩⟩)).run
        (w.room w.heap.cursors.size (c.past w.heap.cursors.size))) := by
  cases consumer with
  | collect =>
    have hpush := fun (acc : Array Value) (item : Value) =>
      LoopBody.natural_collecting w.heap.cursors.size 0 acc item
    have hloop := renamed_loop hpush (Nat.le_refl w.heap.cursors.size) c fuel #[]
    rw [Array.map_empty] at hloop
    simp only [run, Action.collect, map_eq_pure_bind]
    rw [foldItems_of_ok hof, foldItems_of_ok (Source.of_iterator _)]
    refine hloop.bind (fun _ => id) fun xs w₁ c' hn₁ _ => ?_
    have htuple := natural_pure (Value.past w.heap.cursors.size) (Value.tuple xs.toList) w₁ c' hn₁
    rw [Value.past_tuple, ← Array.toList_map] at htuple
    exact htuple.mono fun _ _ => trivial
  | map f =>
    have hbody := Builtin.natural_mapItem (hhost.natural fuel) f
    rw [Heap.past_of_knows hconsumer] at hbody
    exact renamed_listed hbody hof (Nat.le_refl _) fuel
  | filter f =>
    have hbody := Builtin.natural_filterItem (hhost.natural fuel) f
    rw [Heap.past_of_knows hconsumer] at hbody
    exact renamed_listed hbody hof (Nat.le_refl _) fuel
  | sum start =>
    have hloop := renamed_loop Builtin.natural_addItem (Nat.le_refl w.heap.cursors.size) c fuel start
    rw [Heap.past_of_knows hconsumer] at hloop
    simp only [run, Builtin.sumItems]
    rw [foldItems_of_ok hof, foldItems_of_ok (Source.of_iterator _)]
    exact hloop

/-- Over a value and over a new iterator of it, a consumer ends alike. -/
theorem corresponds_ends (hhost : host.Blind w.heap.cursors.size) (consumer : Consumer)
    (hconsumer : consumer.KnownTo w.heap) {c : Cursor} (kind : IteratorKind)
    (hof : Source.of v = .ok (.own c)) :
    Corresponds w.heap.cursors.size
      (answerPast w.heap.cursors.size (Value.past w.heap.cursors.size))
      (fun answer w' => consumer.Ends host w v answer w')
      (fun answer w' => consumer.Ends host
        (w.room w.heap.cursors.size (c.past w.heap.cursors.size))
        (.iterator ⟨kind, ⟨w.heap.cursors.size⟩⟩) answer w') where
  there := by
    rintro answer w' hends
    obtain ⟨fuel, hends⟩ := (ends_iff_run consumer).mp hends
    obtain ⟨c', -, -, hends'⟩ := (renamed_run hhost consumer hconsumer hof fuel).there hends
    exact ⟨c', (ends_iff_run consumer).mpr ⟨fuel, hends'⟩⟩
  back := by
    rintro answer w' hends
    obtain ⟨fuel, hends⟩ := (ends_iff_run consumer).mp hends
    obtain ⟨x, w₁, c', -, -, hends', hsame⟩ :=
      (renamed_run hhost consumer hconsumer hof fuel).back hends
    exact ⟨x, w₁, c', (ends_iff_run consumer).mpr ⟨fuel, hends'⟩, hsame⟩

/-- And it comes to the same items, each in the same world. -/
theorem corresponds_handles (hhost : host.Blind w.heap.cursors.size) (consumer : Consumer)
    (hconsumer : consumer.KnownTo w.heap) (c : Cursor) (k : Nat) :
    Corresponds w.heap.cursors.size (Value.past w.heap.cursors.size)
      (consumer.Handles host (.own c) w k · ·)
      (consumer.Handles host (.shared ⟨w.heap.cursors.size⟩)
        (w.room w.heap.cursors.size (c.past w.heap.cursors.size)) k · ·) := by
  have hn := Nat.le_refl w.heap.cursors.size
  cases consumer with
  | collect =>
    have hsame := (LoopBody.natural_collecting w.heap.cursors.size).corresponds_calls hn c #[] k
    rwa [Array.map_empty] at hsame
  | map f =>
    have hbody := LoopBody.natural_mapping hhost f
    rw [Heap.past_of_knows hconsumer] at hbody
    have hsame := hbody.corresponds_calls hn c #[] k
    rwa [Array.map_empty] at hsame
  | filter f =>
    have hbody := LoopBody.natural_filtering hhost f
    rw [Heap.past_of_knows hconsumer] at hbody
    have hsame := hbody.corresponds_calls hn c #[] k
    rwa [Array.map_empty] at hsame
  | sum start =>
    have hsame := (LoopBody.natural_adding w.heap.cursors.size).corresponds_calls hn c start k
    rwa [Heap.past_of_knows hconsumer] at hsame

theorem corresponds_comesTo (hhost : host.Blind w.heap.cursors.size) (consumer : Consumer)
    (hconsumer : consumer.KnownTo w.heap) {c : Cursor} (kind : IteratorKind)
    (hof : Source.of v = .ok (.own c)) (k : Nat) :
    Corresponds w.heap.cursors.size (Value.past w.heap.cursors.size)
      (consumer.ComesTo host w v k · ·)
      (consumer.ComesTo host (w.room w.heap.cursors.size (c.past w.heap.cursors.size))
        (.iterator ⟨kind, ⟨w.heap.cursors.size⟩⟩) k · ·) := by
  simp only [comesTo_iff hof, comesTo_iff (Source.of_iterator _)]
  exact corresponds_handles hhost consumer hconsumer c k

end Consumer

/-! ## Calls of `iter` and `next` -/

namespace Host

variable {host : Host} {w w' : World} {v : Value} {answer : Except Fault Value}

/-- A built-in function that is one step on the heap ends with what the step gives. -/
theorem ends_step_iff {b : Builtin} {args : List Value} (step : Heap → Except Fault Value × Heap)
    (hrun : ∀ fuel, b.run host.config (host.call fuel) fuel args = attempt step) :
    host.Ends w (.builtin b) args answer w' ↔
      answer = (step w.heap).1 ∧ w' = ⟨(step w.heap).2, w.output⟩ := by
  rw [ends_builtin_iff]
  simp only [hrun, Action.ends_attempt_iff]
  constructor
  · rintro ⟨_, hends⟩
    exact hends
  · exact fun hends => ⟨0, hends⟩

theorem ends_iter_iff :
    host.Ends w (.builtin .iter) [v] answer w' ↔
      answer = (w.heap.iter v).1 ∧ w' = ⟨(w.heap.iter v).2, w.output⟩ :=
  ends_step_iff (·.iter v) fun _ => rfl

theorem ends_next_iff :
    host.Ends w (.builtin .next) [v] answer w' ↔
      answer = (w.heap.next v).1 ∧ w' = ⟨(w.heap.next v).2, w.output⟩ :=
  ends_step_iff (·.next v) fun _ => rfl

/-- An iterator of a sequence is a new one, which stands at the start. -/
theorem ends_iter_of_start {c : Cursor} (hw : w.heap.Closed) (hseq : v.isSequence = true)
    (hstart : Cursor.start? v = some c) :
    host.Ends w (.builtin .iter) [v] (.ok (.iterator ⟨c.kind, ⟨w.heap.cursors.size⟩⟩))
      (w.room w.heap.cursors.size c) := by
  have hiterate := Heap.iterate_of_start? (h := w.heap) hstart
  refine ends_iter_iff.mpr ?_
  have hiter : w.heap.iter v = ((w.heap.iterate v).1.map .iterator, (w.heap.iterate v).2) := by
    cases v with
    | list id => rfl
    | tuple items => rfl
    | text s => rfl
    | _ => cases hseq
  rw [hiter, hiterate, World.room, hw.room_eq]
  exact ⟨rfl, rfl⟩

/-- What cannot be iterated over has no iterator. -/
theorem ends_iter_of_error {fault : Fault} (host : Host) (w : World)
    (hof : Source.of v = .error fault) :
    fault = .notIterable v.typeName ∧ host.Ends w (.builtin .iter) [v] (.error fault) w := by
  rw [ends_iter_iff]
  cases v with
  | iterator it => cases hof
  | list id => cases hof
  | tuple items => cases hof
  | text s => cases hof
  | generator id => cases hof
  | _ =>
    obtain rfl := Except.error.inj hof
    exact ⟨rfl, rfl, rfl⟩

/-- Iterators and generators are their own. -/
theorem ends_iter_self (hv : v.isIterator = true) :
    host.Ends w (.builtin .iter) [v] (.ok v) w := by
  refine ends_iter_iff.mpr ?_
  cases v with
  | generator id => exact ⟨rfl, rfl⟩
  | iterator it => exact ⟨rfl, rfl⟩
  | _ => cases hv

end Host

end Builtins
