-- What built-in functions refuse. Arguments are checked before anything is done with them, first their
-- number and then what they are, so a call that is refused changes nothing at all. What is to be called
-- with the items is not checked then: it is found out with the first item that there is.
import Builtins.Proofs.Iteration.Remaining
import Builtins.Proofs.Loop.Ending
import Builtins.Proofs.Range.Agreement
import Builtins.Proofs.Session.Frame

namespace Builtins

open Builtins.Action

/-! ## Checks -/

/-- Whether a value can be iterated over. -/
def Value.isIterable (v : Value) : Bool := v.isSequence || v.isIterator

/-- Whether a value is of a type that can be called. -/
def Value.isCallable : Value → Bool
  | builtin _ | function _ _ | exceptionType _ => true
  | _ => false

namespace Builtin

/-- The least and the largest number of arguments, where there are such. -/
def arity? : Builtin → Option (Nat × Nat)
  | print => none
  | len | repr | iter | next => some (1, 1)
  | map | filter => some (2, 2)
  | sum => some (1, 2)
  | range | xrange => some (1, 3)

/-- What is wrong with a number of arguments. -/
def miscount? (b : Builtin) (found : Nat) : Option Fault :=
  match b.arity? with
  | none => none
  | some (least, most) =>
    if least ≤ found ∧ found ≤ most then none
    else if least = most then some (.arity b.name least found)
    else some (.arityRange b.name least most found)

/-- What is wrong with arguments whose number is right. -/
def misfit? : Builtin → List Value → Option Fault
  | len, [v] =>
    if v.isSequence then none else some (.argumentType "len" "obj" "sized" v.typeName)
  | next, [v] =>
    if v.isIterator then none else some (.argumentType "next" "iterator" "iterator" v.typeName)
  | iter, [v] | map, [_, v] | filter, [_, v] | sum, [v] | sum, [v, _] =>
    if v.isIterable then none else some (.notIterable v.typeName)
  | range, args => (Progression.rejection? args).map (· "range")
  | xrange, args => (Progression.rejection? args).map (· "xrange")
  | _, _ => none

/-- What a built-in function refuses arguments with: their number comes first. -/
def rejection? (b : Builtin) (args : List Value) : Option Fault :=
  (b.miscount? args.length).or (b.misfit? args)

variable {b : Builtin} {args : List Value} {function : String} {fault : Fault} {n : Nat}

theorem miscount?_eq_some_iff : b.miscount? n = some fault ↔
    ∃ least most, b.arity? = some (least, most) ∧ ¬ (least ≤ n ∧ n ≤ most) ∧
      fault = if least = most then .arity b.name least n else .arityRange b.name least most n := by
  unfold miscount?
  cases b.arity? with
  | none => simp
  | some bounds =>
    obtain ⟨least, most⟩ := bounds
    by_cases hcount : least ≤ n ∧ n ≤ most
    · simp only [if_pos hcount, reduceCtorEq, false_iff]
      rintro ⟨_, _, ⟨⟩, hnot, -⟩
      exact hnot hcount
    · simp only [if_neg hcount]
      constructor
      · intro hfault
        refine ⟨least, most, rfl, hcount, ?_⟩
        split at hfault <;> next heq => simpa [heq] using hfault.symm
      · rintro ⟨_, _, ⟨⟩, -, rfl⟩
        split <;> rfl

/-! ## How the checks come out -/

theorem oneArgument_of_length (h : args.length ≠ 1) :
    oneArgument function args = .error (.arity function 1 args.length) := by
  match args with
  | [] => rfl
  | [v] => exact absurd rfl h
  | _ :: _ :: _ => rfl

theorem twoArguments_of_length (h : args.length ≠ 2) :
    twoArguments function args = .error (.arity function 2 args.length) := by
  match args with
  | [] => rfl
  | [v] => rfl
  | [v, w] => exact absurd rfl h
  | _ :: _ :: _ :: _ => rfl

theorem sumArguments_of_length (h : ¬ (1 ≤ args.length ∧ args.length ≤ 2)) :
    sumArguments args = .error (.arityRange "sum" 1 2 args.length) := by
  match args with
  | [] => rfl
  | [v] => exact absurd ⟨Nat.le_refl 1, Nat.le_succ 1⟩ h
  | [v, start] => exact absurd ⟨Nat.le_succ 1, Nat.le_refl 2⟩ h
  | _ :: _ :: _ :: _ => rfl

theorem length_of_not_sized (h : Heap) {v : Value} (hv : v.isSequence ≠ true) :
    length h v = .error (.argumentType "len" "obj" "sized" v.typeName) := by
  cases v with
  | list id => exact absurd rfl hv
  | tuple items => exact absurd rfl hv
  | text s => exact absurd rfl hv
  | _ => rfl

end Builtin

theorem Heap.next_of_not_iterator (h : Heap) {v : Value} (hv : v.isIterator ≠ true) :
    h.next v = (.error (.argumentType "next" "iterator" "iterator" v.typeName), h) := by
  cases v with
  | generator id => exact absurd rfl hv
  | iterator it => exact absurd rfl hv
  | _ => rfl

/-- At the end of an iterator, `next` makes a new exception. -/
theorem Heap.next_ne_of_iterator (h : Heap) {v : Value} (hv : v.isIterator = true) {fault : Fault} :
    h.next v ≠ (.error fault, h) := by
  intro hnext
  have hkind : (∃ id, v = .generator id) ∨ ∃ it, v = .iterator it := by
    cases v with
    | generator id => exact Or.inl ⟨id, rfl⟩
    | iterator it => exact Or.inr ⟨it, rfl⟩
    | _ => cases hv
  obtain ⟨e, rfl, -⟩ := Heap.next_error hkind (congrArg Prod.fst hnext)
  rcases h.next_raises v with ⟨-, hmore⟩ | ⟨hnot, -⟩
  · rw [hnext] at hmore
    exact absurd hmore (Nat.ne_of_lt (Nat.lt_succ_self _))
  · exact hnot e (congrArg Prod.fst hnext)

theorem Source.of_not_iterable {v : Value} (hv : v.isIterable ≠ true) :
    Source.of v = .error (.notIterable v.typeName) := by
  cases v with
  | list id => exact absurd rfl hv
  | tuple items => exact absurd rfl hv
  | text s => exact absurd rfl hv
  | generator id => exact absurd rfl hv
  | iterator it => exact absurd rfl hv
  | _ => rfl

theorem Source.exists_of_iterable {v : Value} (hv : v.isIterable = true) :
    ∃ source, Source.of v = .ok source := by
  cases v with
  | list id => exact ⟨_, rfl⟩
  | tuple items => exact ⟨_, rfl⟩
  | text s => exact ⟨_, rfl⟩
  | generator id => exact ⟨_, rfl⟩
  | iterator it => exact ⟨_, rfl⟩
  | _ => cases hv

theorem Heap.iter_of_not_iterable (h : Heap) {v : Value} (hv : v.isIterable ≠ true) :
    h.iter v = (.error (.notIterable v.typeName), h) := by
  cases v with
  | list id => exact absurd rfl hv
  | tuple items => exact absurd rfl hv
  | text s => exact absurd rfl hv
  | generator id => exact absurd rfl hv
  | iterator it => exact absurd rfl hv
  | _ => rfl

/-! ## Refused calls -/

namespace Builtin

variable {b : Builtin} {args : List Value} {fault : Fault}

/-- A wrong number of arguments is all that is found out about them. -/
theorem ends_run_of_miscount (h : b.miscount? args.length = some fault) (config : Config)
    (invoke : Caller) (fuel : Nat) (w : World) :
    (b.run config invoke fuel args).Ends w (.error fault) w := by
  obtain ⟨least, most, harity, hcount, rfl⟩ := miscount?_eq_some_iff.mp h
  cases b with
  | print => cases harity
  | len | repr | iter | next =>
    cases harity
    exact (ends_ofExcept_bind_of_error (oneArgument_of_length (by omega))).mpr ⟨rfl, rfl⟩
  | map | filter =>
    cases harity
    exact (ends_ofExcept_bind_of_error (twoArguments_of_length (by omega))).mpr ⟨rfl, rfl⟩
  | sum =>
    cases harity
    exact (ends_ofExcept_bind_of_error (sumArguments_of_length hcount)).mpr ⟨rfl, rfl⟩
  | range | xrange =>
    cases harity
    exact (ends_ofExcept_bind_of_error (Progression.ofArgs_of_length (by omega))).mpr ⟨rfl, rfl⟩

/-- What cannot be iterated over is found out before anything is called. -/
theorem ends_foldItems_of_not_iterable {β : Type} {v : Value} (hv : v.isIterable ≠ true)
    (fuel : Nat) (start : β) (body : β → Value → Action β) (w : World) :
    (foldItems fuel v start body).Ends w (.error (.notIterable v.typeName)) w :=
  (ends_ofExcept_bind_of_error (Source.of_not_iterable hv)).mpr ⟨rfl, rfl⟩

theorem ends_run_of_misfit (h : b.misfit? args = some fault) (config : Config) (invoke : Caller)
    (fuel : Nat) (w : World) : (b.run config invoke fuel args).Ends w (.error fault) w := by
  unfold misfit? at h
  split at h
  case h_1 v =>
    obtain ⟨hv, ⟨⟩⟩ := Option.ite_none_left_eq_some.mp h
    exact ends_ofExcept_iff.mpr ⟨(length_of_not_sized w.heap hv).symm, rfl⟩
  case h_2 v =>
    obtain ⟨hv, ⟨⟩⟩ := Option.ite_none_left_eq_some.mp h
    change (attempt (·.next v)).Ends w _ w
    exact ends_attempt_of_eq (w.heap.next_of_not_iterator hv)
  case h_3 v =>
    obtain ⟨hv, ⟨⟩⟩ := Option.ite_none_left_eq_some.mp h
    change (attempt (·.iter v)).Ends w _ w
    exact ends_attempt_of_eq (w.heap.iter_of_not_iterable hv)
  case h_4 f v | h_5 f v =>
    obtain ⟨hv, ⟨⟩⟩ := Option.ite_none_left_eq_some.mp h
    apply (ends_ofExcept_bind_of_ok rfl).mpr
    exact ends_bind_iff.mpr (Or.inl ⟨_, ends_foldItems_of_not_iterable hv _ _ _ _, rfl⟩)
  case h_6 v | h_7 v start =>
    obtain ⟨hv, ⟨⟩⟩ := Option.ite_none_left_eq_some.mp h
    exact ends_foldItems_of_not_iterable hv _ _ _ _
  case h_8 | h_9 =>
    obtain ⟨fault', hfault, rfl⟩ := Option.map_eq_some_iff.mp h
    have hargs := fun function => Progression.ofArgs_eq function args
    simp only [hfault] at hargs
    exact (ends_ofExcept_bind_of_error (hargs _)).mpr ⟨rfl, rfl⟩
  case h_10 => cases h

/-- A built-in function that refuses its arguments leaves the world alone, whatever calls would do. -/
theorem ends_run_of_rejection (h : b.rejection? args = some fault) (config : Config)
    (invoke : Caller) (fuel : Nat) (w : World) :
    (b.run config invoke fuel args).Ends w (.error fault) w := by
  rcases Option.or_eq_some_iff.mp h with hcount | ⟨-, hfit⟩
  · exact ends_run_of_miscount hcount config invoke fuel w
  · exact ends_run_of_misfit hfit config invoke fuel w

/-! ## Calls that are not refused -/

theorem count_of_accepted (h : b.rejection? args = none) {least most : Nat}
    (harity : b.arity? = some (least, most)) : least ≤ args.length ∧ args.length ≤ most := by
  by_contra hcount
  have hfault := miscount?_eq_some_iff.mpr ⟨least, most, harity, hcount, rfl⟩
  rw [(Option.or_eq_none_iff.mp h).1] at hfault
  cases hfault

theorem exists_single_of_accepted (h : b.rejection? args = none) (harity : b.arity? = some (1, 1)) :
    ∃ v, args = [v] := by
  obtain ⟨hleast, hmost⟩ := count_of_accepted h harity
  exact List.length_eq_one_iff.mp (Nat.le_antisymm hmost hleast)

theorem exists_pair_of_accepted (h : b.rejection? args = none) (harity : b.arity? = some (2, 2)) :
    ∃ v v', args = [v, v'] := by
  obtain ⟨hleast, hmost⟩ := count_of_accepted h harity
  exact List.length_eq_two.mp (Nat.le_antisymm hmost hleast)

/-- Without fuel, nothing that is iterated over comes to a fault. -/
theorem not_ends_foldItems_of_iterable {β : Type} {v : Value} (hv : v.isIterable = true) {start : β}
    {body : β → Value → Action β} {w w' : World} {answer : Except Fault β} :
    ¬ (foldItems 0 v start body).Ends w answer w' := by
  obtain ⟨source, hof⟩ := Source.exists_of_iterable hv
  rw [foldItems_of_ok hof]
  exact not_ends_loop_zero

/-- What passes the checks is no reason to fail at once: without fuel, a call that fails leaves a
trace. -/
theorem not_ends_run_of_accepted (h : b.rejection? args = none) (config : Config)
    (invoke : Caller) (w : World) : ¬ (b.run config invoke 0 args).Ends w (.error fault) w := by
  have hfit := (Option.or_eq_none_iff.mp h).2
  intro hends
  cases b with
  | print => cases hends
  | len =>
    obtain ⟨v, rfl⟩ := exists_single_of_accepted h rfl
    cases v <;> cases hfit <;> cases hends
  | repr =>
    obtain ⟨v, rfl⟩ := exists_single_of_accepted h rfl
    cases hends
  | iter =>
    obtain ⟨v, rfl⟩ := exists_single_of_accepted h rfl
    cases v <;> cases hfit <;> cases hends
  | next =>
    obtain ⟨v, rfl⟩ := exists_single_of_accepted h rfl
    have hv : v.isIterator = true := by simpa [misfit?] using hfit
    have hstep : (attempt (·.next v)).Ends w (.error fault) w := hends
    obtain ⟨hfault, hw⟩ := ends_attempt_iff.mp hstep
    exact w.heap.next_ne_of_iterator hv (Prod.ext hfault.symm (congrArg World.heap hw).symm)
  | map =>
    obtain ⟨f, v, rfl⟩ := exists_pair_of_accepted h rfl
    have hv : v.isIterable = true := by simpa [misfit?] using hfit
    have hloop : (foldItems 0 v #[] (mapItem invoke f) >>= newList).Ends w (.error fault) w := hends
    obtain ⟨_, _, hfold, -⟩ := ends_bind_newList_iff.mp hloop
    exact not_ends_foldItems_of_iterable hv hfold
  | filter =>
    obtain ⟨f, v, rfl⟩ := exists_pair_of_accepted h rfl
    have hv : v.isIterable = true := by simpa [misfit?] using hfit
    have hloop : (foldItems 0 v #[] (filterItem invoke f) >>= newList).Ends w (.error fault) w :=
      hends
    obtain ⟨_, _, hfold, -⟩ := ends_bind_newList_iff.mp hloop
    exact not_ends_foldItems_of_iterable hv hfold
  | sum =>
    have hloop : ∀ v start, v.isIterable = true → ¬ (sumItems 0 v start).Ends w (.error fault) w :=
      fun v start hv => not_ends_foldItems_of_iterable hv
    match args, count_of_accepted h rfl with
    | [v], _ => exact hloop v (.int 0) (by simpa [misfit?] using hfit) hends
    | [v, start], _ => exact hloop v start (by simpa [misfit?] using hfit) hends
  | range =>
    have hargs := Progression.ofArgs_eq "range" args
    have hnone : Progression.rejection? args = none := by simpa [misfit?] using hfit
    rw [hnone] at hargs
    obtain ⟨words, -, hok⟩ := hargs
    have hlist := (ends_ofExcept_bind_of_ok hok).mp hends
    cases (hlist.unique (ends_rangeList config (Progression.ofWords words) w)).1
  | xrange =>
    have hargs := Progression.ofArgs_eq "xrange" args
    have hnone : Progression.rejection? args = none := by simpa [misfit?] using hfit
    rw [hnone] at hargs
    obtain ⟨words, -, hok⟩ := hargs
    have hmade := ends_onHeap_bind_iff.mp ((ends_ofExcept_bind_of_ok hok).mp hends)
    cases (ends_pure_iff.mp hmade).1

end Builtin

/-! ## What cannot be called -/

section NotCallable

variable {host : Host} {f v item : Value} {source : Source} {w : World} {items : List Value}

theorem Host.ends_of_not_callable (host : Host) (hf : f.isCallable = false) (args : List Value)
    (w : World) : host.Ends w f args (.error (.notCallable f.typeName)) w := by
  refine ⟨1, ?_⟩
  cases f with
  | builtin b => cases hf
  | function id name => cases hf
  | exceptionType kind => cases hf
  | _ => exact ends_throw_iff.mpr ⟨rfl, rfl⟩

/-- Whether a built-in function calls its first argument with the items of its second one. -/
def Builtin.CallsItems (f : Value) : Builtin → Prop
  | .map => True
  | .filter => f ≠ .null
  | _ => False

/-- Calls with items that come to a fault are what such a function fails with. -/
theorem Host.ends_of_calls_error {b : Builtin} (hb : b.CallsItems f)
    (hof : Source.of v = .ok source) {calls : List MapCall} {w' : World} {fault : Fault}
    (hcalls : CallsEach host f source w calls w') (hfault : answers calls = .error fault) :
    host.Ends w (.builtin b) [f, v] (.error fault) w' := by
  cases b with
  | map =>
    rw [Host.ends_map_iff, hof]
    exact ⟨calls, w', hcalls, by rw [hfault]; exact ⟨rfl, rfl⟩⟩
  | filter =>
    rw [Host.ends_filter_iff hb, hof]
    exact ⟨calls, w', hcalls, by rw [hfault]; exact ⟨rfl, rfl⟩⟩
  | _ => exact hb.elim

/-- Without items there is nothing to call. -/
theorem Host.ends_of_no_items (host : Host) {b : Builtin} (hb : b.CallsItems f)
    (hof : Source.of v = .ok source) {source' : Source} {h : Heap}
    (hnone : w.heap.takeFrom source = ((none, source'), h)) :
    host.Ends w (.builtin b) [f, v] (.ok (.list (h.newList #[]).1))
      { w with heap := (h.newList #[]).2 } := by
  have hcalls : CallsEach host f source w [] { w with heap := h } := .ended hnone
  cases b with
  | map =>
    rw [Host.ends_map_iff, hof]
    exact ⟨[], _, hcalls, rfl, rfl⟩
  | filter =>
    rw [Host.ends_filter_iff hb, hof]
    exact ⟨[], _, hcalls, rfl, rfl⟩
  | _ => exact hb.elim

/-- What cannot be called is found out with the first item, which is taken, and with no other. -/
theorem Host.exists_ends_of_not_callable (host : Host) {b : Builtin} (hb : b.CallsItems f)
    (hf : f.isCallable = false) (hof : Source.of v = .ok source)
    (hahead : w.heap.ahead (w.heap.cursorOf source) = item :: items) :
    ∃ source' h', w.heap.takeFrom source = ((some item, source'), h') ∧
      h'.ahead (h'.cursorOf source') = items ∧
      host.Ends w (.builtin b) [f, v] (.error (.notCallable f.typeName)) { w with heap := h' } := by
  obtain ⟨source', h', ht, -, hrest, -⟩ := Heap.takeFrom_of_ahead_eq_cons hahead
  have hcalls := CallsEach.failed ht (host.ends_of_not_callable hf [item] { w with heap := h' })
  exact ⟨source', h', ht, hrest, Host.ends_of_calls_error hb hof hcalls rfl⟩

end NotCallable

/-- A built-in function refuses a wrong number of arguments before it looks at any of them, and then
what it has no use for: what has no length, is no iterator, counts as no integer, or cannot be iterated
over. What is refused is what fails with one fault in whatever world, whatever calls would do, and leaves
that world alone, so the session is as it was. Something that cannot be called is no reason to refuse
arguments: `map` and `filter` fail then exactly if there is an item, and have taken the first one, and
nothing else is done. -/
theorem a_refused_call_changes_nothing (b : Builtin) (args : List Value) :
    (∀ fault, b.miscount? args.length = some fault → b.rejection? args = some fault) ∧
      (∀ fault, b.rejection? args = some fault ↔
        ∀ config invoke fuel w, (b.run config invoke fuel args).Ends w (.error fault) w) ∧
      (∀ fault, b.rejection? args = some fault →
        ∀ (s : Session) fuel, s.call (fuel + 1) (.builtin b) args = some (.error fault, s)) ∧
      ∀ (host : Host) f v source w, args = [f, v] → b.CallsItems f → f.isCallable = false →
        Source.of v = .ok source →
        ((∃ w', host.Ends w (.builtin b) args (.error (.notCallable f.typeName)) w') ↔
            w.heap.ahead (w.heap.cursorOf source) ≠ []) ∧
          (∀ item items, w.heap.ahead (w.heap.cursorOf source) = item :: items →
            ∃ source' h', w.heap.takeFrom source = ((some item, source'), h') ∧
              h'.ahead (h'.cursorOf source') = items ∧
              host.Ends w (.builtin b) args (.error (.notCallable f.typeName))
                { w with heap := h' }) ∧
          (w.heap.ahead (w.heap.cursorOf source) = [] →
            ∃ l w', host.Ends w (.builtin b) args (.ok (.list l)) w' ∧ w'.heap.list l = #[]) := by
  refine ⟨fun fault hcount => Option.or_eq_some_iff.mpr (Or.inl hcount),
    fun fault => ⟨Builtin.ends_run_of_rejection, ?_⟩, ?_, ?_⟩
  · intro hends
    have hsomewhere := hends {} (fun _ _ => outOfFuel) 0 {}
    cases hrejected : b.rejection? args with
    | none => exact absurd hsomewhere (Builtin.not_ends_run_of_accepted hrejected _ _ _)
    | some fault' =>
      cases (hsomewhere.unique (Builtin.ends_run_of_rejection hrejected _ _ _ _)).1
      rfl
  · intro fault hrejected s fuel
    have hends := Builtin.ends_run_of_rejection hrejected s.host.config (s.host.call fuel) fuel
      s.world
    exact Session.perform_eq_some_iff.mpr ⟨s.world, hends, rfl⟩
  · rintro host f v source w rfl hb hf hof
    have hfails : ∀ item items, w.heap.ahead (w.heap.cursorOf source) = item :: items → _ :=
      fun item items hahead => host.exists_ends_of_not_callable hb hf hof hahead
    have hends : w.heap.ahead (w.heap.cursorOf source) = [] →
        ∃ l w', host.Ends w (.builtin b) [f, v] (.ok (.list l)) w' ∧ w'.heap.list l = #[] := by
      intro hnil
      obtain ⟨source', h', hnone⟩ := Heap.takeFrom_of_ahead_eq_nil hnil
      exact ⟨_, _, host.ends_of_no_items hb hof hnone, h'.list_newList #[]⟩
    refine ⟨⟨?_, ?_⟩, hfails, hends⟩
    · rintro ⟨w', hfailed⟩ hnil
      obtain ⟨l, w₁, hlisted, -⟩ := hends hnil
      cases (hfailed.unique hlisted).1
    · intro hsome
      obtain ⟨item, items, hahead⟩ := List.exists_cons_of_ne_nil hsome
      obtain ⟨source', h', -, -, hfailed⟩ := hfails item items hahead
      exact ⟨_, hfailed⟩

/-- An integer is neither what can be iterated over nor what can be called. Only the second takes an
item, which is found out when it is too late. -/
theorem an_integer_is_called_with_one_item_only :
    let w : World := { heap := { cursors := #[.tuple [.int 1, .int 2]] } }
    let s : Session := { world := w }
    s.call 1 (.builtin .map) [.int 3, .int 5] = some (.error (.notIterable "int"), s) ∧
      s.host.Ends w (.builtin .map) [.int 3, .iterator ⟨.tuple, ⟨0⟩⟩] (.error (.notCallable "int"))
        { w with heap := { cursors := #[.tuple [.int 2]] } } := by
  intro w s
  obtain ⟨-, -, hrefused, -⟩ := a_refused_call_changes_nothing .map [.int 3, .int 5]
  obtain ⟨-, -, -, hcalled⟩ := a_refused_call_changes_nothing .map
    [.int 3, .iterator ⟨.tuple, ⟨0⟩⟩]
  obtain ⟨-, hfails, -⟩ := hcalled s.host _ _ (.shared ⟨0⟩) w rfl trivial rfl rfl
  obtain ⟨source', h', ht, -, hends⟩ := hfails (.int 1) [.int 2] rfl
  cases ht
  exact ⟨hrefused _ rfl s 0, hends⟩

end Builtins
