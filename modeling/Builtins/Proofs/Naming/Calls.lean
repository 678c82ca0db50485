-- Calls when there is one more iterator. A call does then what it does without it: it answers the
-- same, prints the same and leaves the same, but for the numbers of the iterators behind the new one.
import Builtins.Proofs.Action.Ends
import Builtins.Proofs.Naming.Heaps

namespace Builtins

/-- The world with one more iterator, which has the number `n` and stands at `c`. -/
def World.room (w : World) (n : Nat) (c : Cursor) : World := ⟨w.heap.room n c, w.output⟩

/-- Where one run ends, the other ends as well, and in the same way but for one more iterator, which
has the number `n` and stands at one of some places. -/
inductive Renamed {α β : Type} (n : Nat) (places : Cursor → Prop) (ren : α → β) :
    Option (Except Fault α × World) → Option (Except Fault β × World) → Prop
  | outOfFuel : Renamed n places ren none none
  | ended (answer : Except Fault α) {w : World} {c : Cursor} (hplace : places c)
    (hsize : n ≤ w.heap.cursors.size) :
    Renamed n places ren (some (answer, w)) (some (answerPast n ren answer, w.room n c))

variable {α β γ δ : Type} {n : Nat} {ren : α → β} {ren' : γ → δ}

theorem Renamed.mono {places more : Cursor → Prop} {r : Option (Except Fault α × World)}
    {r' : Option (Except Fault β × World)} (hr : Renamed n places ren r r')
    (hmore : ∀ c, places c → more c) : Renamed n more ren r r' := by
  cases hr with
  | outOfFuel => exact .outOfFuel
  | ended _ hplace hsize => exact .ended _ (hmore _ hplace) hsize

/-- One computation after another, from wherever the first may have left the new iterator. -/
theorem Renamed.bind {places more : Cursor → Prop} {a : Action α} {b : Action β} {f : α → Action γ}
    {g : β → Action δ} {w w' : World} (ha : Renamed n places ren (a.run w) (b.run w'))
    (hmore : ∀ c, places c → more c)
    (hf : ∀ x w₁ c, n ≤ w₁.heap.cursors.size → places c →
      Renamed n more ren' ((f x).run w₁) ((g (ren x)).run (w₁.room n c))) :
    Renamed n more ren' ((a >>= f).run w) ((b >>= g).run w') := by
  change Renamed n more ren'
    ((a.run w).bind fun y => (ExceptT.bindCont f y.1 : Run (Except Fault γ)) y.2)
    ((b.run w').bind fun y => (ExceptT.bindCont g y.1 : Run (Except Fault δ)) y.2)
  revert ha
  generalize a.run w = r
  generalize b.run w' = r'
  rintro (_ | ⟨answer, hplace, hsize⟩)
  · exact .outOfFuel
  · next w₁ c =>
    cases answer with
    | error fault => exact .ended (.error fault) (hmore c hplace) hsize
    | ok x => exact hf x w₁ c hsize hplace

/-- Where the first run ends, the other does. -/
theorem Renamed.there {places : Cursor → Prop} {a : Action α} {b : Action β} {w w' w₁ : World}
    (hab : Renamed n places ren (a.run w) (b.run w')) {answer : Except Fault α}
    (ha : a.Ends w answer w₁) : ∃ c, places c ∧ n ≤ w₁.heap.cursors.size ∧
      b.Ends w' (answerPast n ren answer) (w₁.room n c) := by
  unfold Action.Ends at ha ⊢
  rw [ha] at hab
  generalize b.run w' = r' at hab
  cases hab with
  | ended _ hplace hsize => exact ⟨_, hplace, hsize, rfl⟩

/-- The other run ends only where the first does. -/
theorem Renamed.back {places : Cursor → Prop} {a : Action α} {b : Action β} {w w' w₂ : World}
    (hab : Renamed n places ren (a.run w) (b.run w')) {answer : Except Fault β}
    (hb : b.Ends w' answer w₂) : ∃ x w₁ c, places c ∧ n ≤ w₁.heap.cursors.size ∧
      a.Ends w x w₁ ∧ answer = answerPast n ren x ∧ w₂ = w₁.room n c := by
  unfold Action.Ends at hb ⊢
  rw [hb] at hab
  generalize a.run w = r at hab
  cases hab with
  | ended _ hplace hsize => exact ⟨_, _, _, hplace, hsize, rfl, rfl, rfl⟩

namespace Action

/-- Whether a computation does, when there is one more iterator, what another does without it. The
iterator stays where it is. -/
def Natural (n : Nat) (ren : α → β) (a : Action α) (b : Action β) : Prop :=
  ∀ (w : World) (c : Cursor), n ≤ w.heap.cursors.size →
    Renamed n (· = c) ren (a.run w) (b.run (w.room n c))

/-- Whether a step on the heap does, when there is one more iterator, what another does without it. -/
def StepsAlike (n : Nat) (ren : α → β) (step : Heap → α × Heap) (step' : Heap → β × Heap) : Prop :=
  ∀ (h : Heap) (c : Cursor), n ≤ h.cursors.size →
    h.cursors.size ≤ (step h).2.cursors.size ∧
      step' (h.room n c) = (ren (step h).1, (step h).2.room n c)

theorem run_onHeap_bind {step : Heap → α × Heap} {f : α → Action γ} {w : World} :
    (onHeap step >>= f).run w = (f (step w.heap).1).run ⟨(step w.heap).2, w.output⟩ := rfl

/-! ## Parts of computations -/

theorem natural_pure (ren : α → β) (x : α) : Natural n ren (pure x) (pure (ren x)) :=
  fun _ _ hn => .ended (.ok x) rfl hn

/-- An item behind others. -/
theorem natural_push (items : Array Value) (item : Value) :
    Natural n (Array.map (Value.past n)) (pure (items.push item))
      (pure ((items.map (Value.past n)).push (item.past n))) := by
  rw [← Array.map_push]
  exact natural_pure _ (items.push item)

theorem natural_throw (fault : Fault) : Natural n ren (throw fault) (throw (fault.past n)) :=
  fun _ _ hn => .ended (.error fault) rfl hn

theorem natural_outOfFuel : Natural n ren outOfFuel outOfFuel := fun _ _ _ => .outOfFuel

theorem natural_check {result : Except Fault α} {result' : Except Fault β}
    (hresult : result' = answerPast n ren result) :
    Natural n ren (ofExcept result) (ofExcept result') := by
  subst hresult
  exact fun _ _ hn => .ended _ rfl hn

theorem natural_write (line : String) : Natural n (id : Unit → Unit) (write line) (write line) :=
  fun w _ hn => .ended (.ok ()) (w := ⟨w.heap, w.output.push line⟩) rfl hn

theorem natural_onHeap {step : Heap → α × Heap} {step' : Heap → β × Heap}
    (hstep : StepsAlike n ren step step') : Natural n ren (onHeap step) (onHeap step') := by
  intro w c hn
  obtain ⟨hsize, hsame⟩ := hstep w.heap c hn
  have hrun : (onHeap step').run (w.room n c) =
      some (.ok (step' (w.heap.room n c)).1, ⟨(step' (w.heap.room n c)).2, w.output⟩) := rfl
  rw [hrun, hsame]
  exact .ended (.ok (step w.heap).1) (w := ⟨(step w.heap).2, w.output⟩) rfl
    (Nat.le_trans hn hsize)

theorem natural_attempt {step : Heap → Except Fault α × Heap} {step' : Heap → Except Fault β × Heap}
    (hstep : StepsAlike n (answerPast n ren) step step') :
    Natural n ren (attempt step) (attempt step') := by
  intro w c hn
  obtain ⟨hsize, hsame⟩ := hstep w.heap c hn
  have hrun : (attempt step').run (w.room n c) =
      some ((step' (w.heap.room n c)).1, ⟨(step' (w.heap.room n c)).2, w.output⟩) := rfl
  rw [hrun, hsame]
  exact .ended _ (w := ⟨(step w.heap).2, w.output⟩) rfl (Nat.le_trans hn hsize)

theorem Natural.bind {a : Action α} {b : Action β} {f : α → Action γ} {g : β → Action δ}
    (ha : Natural n ren a b) (hf : ∀ x, Natural n ren' (f x) (g (ren x))) :
    Natural n ren' (a >>= f) (b >>= g) := by
  intro w c hn
  refine (ha w c hn).bind (fun _ => id) ?_
  rintro x w₁ _ hn₁ rfl
  exact hf x w₁ _ hn₁

/-- The answer of a computation, fault or not, as a result. -/
theorem Natural.lift_run {a : Action α} {b : Action β} (ha : Natural n ren a b) :
    Natural n (answerPast n ren) (ExceptT.lift a.run) (ExceptT.lift b.run) := by
  intro w c hn
  have hab := ha w c hn
  change Renamed n _ _ ((a.run w).bind fun y => some (Except.ok y.1, y.2))
    ((b.run (w.room n c)).bind fun y => some (Except.ok y.1, y.2))
  revert hab
  generalize a.run w = r
  generalize b.run (w.room n c) = r'
  rintro (_ | ⟨answer, rfl, hsize⟩)
  · exact .outOfFuel
  · exact .ended (.ok answer) rfl hsize

/-- What is done by a look at the heap. -/
theorem natural_heap_bind {f : Heap → Action γ} {g : Heap → Action δ}
    (hf : ∀ h c, n ≤ h.cursors.size → Natural n ren' (f h) (g (h.room n c))) :
    Natural n ren' (heap >>= f) (heap >>= g) :=
  fun w c hn => hf w.heap c hn w c hn

theorem stepsAlike_newList (items : Array Value) :
    StepsAlike n id (·.newList items) (·.newList (items.map (Value.past n))) :=
  fun h _ _ => ⟨Nat.le_refl _, h.newList_room items⟩

theorem stepsAlike_newGenerator (p : Progression) :
    StepsAlike n id (·.newGenerator p) (·.newGenerator p) :=
  fun h _ _ => ⟨h.size_cursors_le_perform (.newGenerator p), h.newGenerator_room p⟩

theorem stepsAlike_newException (kind : ExceptionKind) (payload : List Value) :
    StepsAlike n (ExceptionInstance.past n) (·.newException kind payload)
      (·.newException kind (payload.map (Value.past n))) :=
  fun h _ _ => ⟨Nat.le_refl _, h.newException_room kind payload⟩

theorem natural_newList (items : Array Value) :
    Natural n (Value.past n) (newList items) (newList (items.map (Value.past n))) :=
  (natural_onHeap (stepsAlike_newList items)).bind fun id => natural_pure _ (Value.list id)

/-! ## Loops -/

theorem stepsAlike_takeFrom (source : Source) :
    StepsAlike n (fun p => (p.1.map (Value.past n), p.2.past n)) (·.takeFrom source)
      (·.takeFrom (source.past n)) :=
  fun h _ _ => ⟨h.size_cursors_le_perform (.turn source), h.takeFrom_past source⟩

variable {body : α → Value → Action α} {body' : β → Value → Action β}

theorem run_loop_succ (source : Source) (fuel : Nat) (acc : α) (w : World) :
    ExceptT.run (Run.loop body source (fuel + 1) acc) w =
      match w.heap.takeFrom source with
      | ((none, _), h) => some (.ok acc, ⟨h, w.output⟩)
      | ((some item, source'), h) =>
        ExceptT.run (body acc item >>= Run.loop body source' fuel) ⟨h, w.output⟩ := by
  rw [Run.loop]
  change (onHeap (·.takeFrom source) >>= _).run w = _
  rw [run_onHeap_bind]
  rcases w.heap.takeFrom source with ⟨⟨_ | item, source'⟩, h⟩ <;> rfl

theorem natural_loop
    (hbody : ∀ acc item, Natural n ren (body acc item) (body' (ren acc) (item.past n)))
    (source : Source) (fuel : Nat) (acc : α) :
    Natural n ren (Run.loop body source fuel acc) (Run.loop body' (source.past n) fuel (ren acc)) := by
  induction fuel generalizing source acc with
  | zero => exact natural_outOfFuel
  | succ fuel ih =>
    rw [Run.loop, Run.loop]
    apply (natural_onHeap (stepsAlike_takeFrom source)).bind
    rintro ⟨_ | item, source'⟩
    · exact natural_pure ren acc
    · exact (hbody acc item).bind fun acc' => ih source' acc'

/-- A loop over a value goes by the source of the value. -/
theorem foldItems_of_ok {v : Value} {source : Source} (hof : Source.of v = .ok source) (fuel : Nat)
    (start : α) : foldItems fuel v start body = Run.loop body source fuel start := by
  unfold foldItems
  rw [hof]
  rfl

theorem natural_foldItems
    (hbody : ∀ acc item, Natural n ren (body acc item) (body' (ren acc) (item.past n))) (fuel : Nat)
    (v : Value) (start : α) :
    Natural n ren (foldItems fuel v start body) (foldItems fuel (v.past n) (ren start) body') := by
  refine (natural_check (Source.of_past n v)).bind ?_
  exact fun source => natural_loop hbody source fuel start

/-- A loop by a cursor of its own does what a loop by the new iterator does, and moves that on. -/
theorem renamed_loop
    (hbody : ∀ acc item, Natural n ren (body acc item) (body' (ren acc) (item.past n))) {w : World}
    (hn : n ≤ w.heap.cursors.size) (c : Cursor) (fuel : Nat) (acc : α) :
    Renamed n (fun _ => True) ren ((Run.loop body (.own c) fuel acc).run w)
      ((Run.loop body' (.shared ⟨n⟩) fuel (ren acc)).run (w.room n (c.past n))) := by
  induction fuel generalizing w c acc with
  | zero => exact .outOfFuel
  | succ fuel ih =>
    have hsize := w.heap.size_cursors_le_perform (.turn (.own c))
    have htaken := Heap.takeFrom_room_self hn c
    simp only [run_loop_succ, World.room, htaken]
    simp only [Step.perform, Heap.takeFrom] at hsize ⊢
    rcases hd : w.heap.draw c with ⟨_ | item, c', h⟩
    · rw [hd] at hsize
      exact .ended (.ok acc) (w := ⟨h, w.output⟩) trivial (Nat.le_trans hn hsize)
    · rw [hd] at hsize
      refine (hbody acc item ⟨h, w.output⟩ (c'.past n) (Nat.le_trans hn hsize)).bind
        (fun _ _ => trivial) ?_
      rintro acc' w₁ _ hn₁ rfl
      exact ih hn₁ c' acc'

end Action

/-! ## Built-in functions -/

/-- Whether calls do, when there is one more iterator, what they do without it. -/
def Caller.Natural (n : Nat) (invoke : Caller) : Prop :=
  ∀ f args, Action.Natural n (Value.past n) (invoke f args)
    (invoke (f.past n) (args.map (Value.past n)))

open Builtins.Action

namespace Builtin

variable {invoke : Caller}

theorem natural_mapItem (hinvoke : invoke.Natural n) (f : Value) (results : Array Value)
    (item : Value) :
    Action.Natural n (Array.map (Value.past n)) (mapItem invoke f results item)
      (mapItem invoke (f.past n) (results.map (Value.past n)) (item.past n)) :=
  (hinvoke f [item]).bind (natural_push results)

theorem natural_keeps (hinvoke : invoke.Natural n) (f item : Value) :
    Action.Natural n id (keeps invoke f item) (keeps invoke (f.past n) (item.past n)) := by
  have hjudge : ∀ v : Value, Action.Natural n id (heap >>= fun h => pure (h.truthy v))
      (heap >>= fun h => pure (h.truthy (v.past n))) := by
    refine fun v => natural_heap_bind fun h c _ => ?_
    rw [Heap.truthy_past]
    exact natural_pure id (h.truthy v)
  cases f with
  | null => exact hjudge item
  | _ => exact (hinvoke _ [item]).bind hjudge

theorem natural_filterItem (hinvoke : invoke.Natural n) (f : Value) (kept : Array Value)
    (item : Value) :
    Action.Natural n (Array.map (Value.past n)) (filterItem invoke f kept item)
      (filterItem invoke (f.past n) (kept.map (Value.past n)) (item.past n)) := by
  refine (natural_keeps hinvoke f item).bind fun holds => ?_
  cases holds with
  | false => exact natural_pure _ kept
  | true => exact natural_push kept item

/-- A loop that puts its results into a new list. -/
theorem natural_listed {body body' : Array Value → Value → Action (Array Value)}
    (hbody : ∀ acc item, Action.Natural n (Array.map (Value.past n)) (body acc item)
      (body' (acc.map (Value.past n)) (item.past n))) (fuel : Nat) (v : Value) :
    Action.Natural n (Value.past n) (foldItems fuel v #[] body >>= newList)
      (foldItems fuel (v.past n) #[] body' >>= newList) := by
  have hfold := natural_foldItems hbody fuel v #[]
  rw [Array.map_empty] at hfold
  exact hfold.bind natural_newList

theorem natural_mapItems (hinvoke : invoke.Natural n) (fuel : Nat) (f v : Value) :
    Action.Natural n (Value.past n) (mapItems invoke fuel f v)
      (mapItems invoke fuel (f.past n) (v.past n)) :=
  natural_listed (natural_mapItem hinvoke f) fuel v

theorem natural_filterItems (hinvoke : invoke.Natural n) (fuel : Nat) (f v : Value) :
    Action.Natural n (Value.past n) (filterItems invoke fuel f v)
      (filterItems invoke fuel (f.past n) (v.past n)) :=
  natural_listed (natural_filterItem hinvoke f) fuel v

theorem natural_addItem (total item : Value) :
    Action.Natural n (Value.past n) (addItem total item) (addItem (total.past n) (item.past n)) :=
  natural_attempt fun h _ _ =>
    ⟨h.size_cursors_le_perform (.deed (.add total item)), h.add_past total item⟩

theorem natural_rangeList (config : Config) (p : Progression) :
    Action.Natural n (Value.past n) (rangeList config p) (rangeList config p) := by
  have hlist := natural_newList (n := n) (p.values.map Value.int).toArray
  have hitems : ((p.values.map Value.int).toArray).map (Value.past n) =
      (p.values.map Value.int).toArray := by simp [Function.comp_def]
  rw [hitems] at hlist
  unfold rangeList
  cases p.iterates with
  | true => exact hlist
  | false => exact (natural_write _).bind fun _ => hlist

theorem oneArgument_past (function : String) (args : List Value) :
    oneArgument function (args.map (Value.past n)) =
      answerPast n (Value.past n) (oneArgument function args) := by
  match args with
  | [] => rfl
  | [_] => rfl
  | _ :: _ :: _ => simp [oneArgument, answerPast, Fault.past]

theorem twoArguments_past (function : String) (args : List Value) :
    twoArguments function (args.map (Value.past n)) =
      answerPast n (Prod.map (Value.past n) (Value.past n)) (twoArguments function args) := by
  match args with
  | [] => rfl
  | [_] => rfl
  | [_, _] => rfl
  | _ :: _ :: _ :: _ => simp [twoArguments, answerPast, Fault.past]

theorem sumArguments_past (args : List Value) :
    sumArguments (args.map (Value.past n)) =
      answerPast n (Prod.map (Value.past n) (Value.past n)) (sumArguments args) := by
  match args with
  | [] => rfl
  | [_] => rfl
  | [_, _] => rfl
  | _ :: _ :: _ :: _ => simp [sumArguments, answerPast, Fault.past]

/-- A built-in function does, when there is one more iterator, what it does without it, if the calls
that it makes do. -/
theorem natural_run (config : Config) (hinvoke : invoke.Natural n) (fuel : Nat) (b : Builtin)
    (args : List Value) :
    Action.Natural n (Value.past n) (b.run config invoke fuel args)
      (b.run config invoke fuel (args.map (Value.past n))) := by
  have hone := fun function => natural_check (oneArgument_past (n := n) function args)
  have htwo := fun function => natural_check (twoArguments_past (n := n) function args)
  have hsum := natural_check (sumArguments_past (n := n) args)
  have hprogression := fun function => natural_check (Progression.ofArgs_past n function args)
  cases b with
  | print =>
    apply natural_heap_bind
    intro h c _
    rw [Heap.displayAll_past]
    exact (natural_write _).bind fun _ => natural_pure _ Value.null
  | len =>
    refine (hone _).bind fun v => ?_
    apply natural_heap_bind
    intro h c _
    exact natural_check (length_past v)
  | repr =>
    refine (hone _).bind fun v => ?_
    apply natural_heap_bind
    intro h c _
    rw [Heap.repr_past]
    exact natural_pure _ (Value.text _)
  | iter =>
    refine (hone _).bind fun v => natural_attempt fun h _ hn => ?_
    exact ⟨h.size_cursors_le_perform (.deed (.iter v)), Heap.iter_past hn v⟩
  | next =>
    refine (hone _).bind fun v => natural_attempt fun h _ _ => ?_
    exact ⟨h.size_cursors_le_perform (.deed (.next v)), Heap.next_past v⟩
  | map => exact (htwo _).bind fun vs => natural_mapItems hinvoke fuel vs.1 vs.2
  | filter => exact (htwo _).bind fun vs => natural_filterItems hinvoke fuel vs.1 vs.2
  | sum => exact hsum.bind fun vs => natural_foldItems natural_addItem fuel vs.1 vs.2
  | range => exact (hprogression _).bind fun p => natural_rangeList config p
  | xrange =>
    exact (hprogression _).bind fun p =>
      (natural_onHeap (stepsAlike_newGenerator p)).bind fun id => natural_pure _ (Value.generator id)

end Builtin

/-! ## Scripts -/

/-- Whether a script does, when there is one more iterator, what another does without it. -/
inductive Script.Alike (n : Nat) : Script Value → Script Value → Prop
  | done (result : Value) : Alike n (.done result) (.done (result.past n))
  | fail (fault : Fault) : Alike n (.fail fault) (.fail (fault.past n))
  | call (callee : Value) (args : List Value) {rest rest' : Except Fault Value → Script Value}
    (hrest : ∀ answer, Alike n (rest answer) (rest' (answerPast n (Value.past n) answer))) :
    Alike n (.call callee args rest)
      (.call (callee.past n) (args.map (Value.past n)) rest')
  | write (line : String) {rest rest' : Script Value} (hrest : Alike n rest rest') :
    Alike n (.write line rest) (.write line rest')
  | config {rest rest' : Config → Script Value} (hrest : ∀ c, Alike n (rest c) (rest' c)) :
    Alike n (.config rest) (.config rest')
  | look {rest rest' : Heap → Script Value}
    (hrest : ∀ (h : Heap) (c : Cursor), n ≤ h.cursors.size → Alike n (rest h) (rest' (h.room n c))) :
    Alike n (.look rest) (.look rest')
  | act (d : Deed) {rest rest' : Except Fault Value → Script Value}
    (hrest : ∀ answer, Alike n (rest answer) (rest' (answerPast n (Value.past n) answer))) :
    Alike n (.act d rest) (.act (d.past n) rest')

/-- Whether no function of a host tells, by the numbers of the iterators, that there is one more
with the number `n`. -/
def Host.Blind (n : Nat) (host : Host) : Prop :=
  ∀ f ∈ host.functions, ∀ args, Script.Alike n (f args) (f (args.map (Value.past n)))

theorem Script.Alike.natural {config : Config} {invoke : Caller} (hinvoke : invoke.Natural n)
    {s s' : Script Value} (halike : Script.Alike n s s') :
    Action.Natural n (Value.past n) (s.run config invoke) (s'.run config invoke) := by
  induction halike with
  | done result => exact natural_pure _ result
  | fail fault => exact natural_throw fault
  | call callee args _ ih => exact (hinvoke callee args).lift_run.bind ih
  | write line _ ih => exact (natural_write line).bind fun _ => ih
  | config _ ih => exact ih config
  | look _ ih => exact natural_heap_bind ih
  | act d _ ih =>
    refine (natural_onHeap ?_).bind ih
    exact fun h _ hn => ⟨h.size_cursors_le_perform (.deed d), d.perform_past hn⟩

theorem Host.mem_of_function? {host : Host} {id : CallableId} {f : HostFunction}
    (hf : host.function? id = some f) : f ∈ host.functions := by
  unfold function? at hf
  split at hf
  · cases hf
  · exact Array.mem_of_getElem? hf

/-- A call of any depth does, when there is one more iterator, what it does without it, if the
functions of the host do. -/
theorem Host.Blind.natural {host : Host} (hhost : host.Blind n) (fuel : Nat) :
    (host.call fuel).Natural n := by
  induction fuel with
  | zero => exact fun _ _ => natural_outOfFuel
  | succ fuel ih =>
    intro f args
    cases f with
    | builtin b => exact Builtin.natural_run host.config ih fuel b args
    | function id name =>
      simp only [Value.past_function, call]
      split
      · next g hg => exact (hhost g (Host.mem_of_function? hg) args).natural ih
      · exact natural_throw _
    | exceptionType kind =>
      refine (natural_onHeap (stepsAlike_newException kind args)).bind fun e => ?_
      rw [← Value.past_toValue]
      exact natural_pure _ e.toValue
    | _ => exact natural_throw _

end Builtins
