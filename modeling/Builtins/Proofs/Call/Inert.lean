-- Calls with inert values, where the host has no functions of its own. No generator or iterator can
-- be reached from such a value, so `next` has nothing to raise at the end of, and there is no name
-- that a call could miss.
import Builtins.Proofs.Call.Functionless
import Builtins.Proofs.Call.Journal
import Builtins.Proofs.Heap.Exceptions
import Builtins.Proofs.Progression.Arguments

namespace Builtins

open Builtins.Action

/-! ## Inert values -/

namespace Heap

/-- Nothing, truth values, integers, texts, built-in functions and exception types, and lists and
tuples of such values. -/
inductive Inert (h : Heap) : Value → Prop
  | null : Inert h .null
  | bool (b : Bool) : Inert h (.bool b)
  | int (n : Word) : Inert h (.int n)
  | text (s : String) : Inert h (.text s)
  | builtin (b : Builtin) : Inert h (.builtin b)
  | exceptionType (kind : ExceptionKind) : Inert h (.exceptionType kind)
  | list {id : ListId} (known : id.index < h.lists.size)
    (items : ∀ x ∈ (h.list id).toList, Inert h x) : Inert h (.list id)
  | tuple {items : List Value} (inert : ∀ x ∈ items, Inert h x) : Inert h (.tuple items)

variable {h h' : Heap}

/-- An inert value stays so when lists are made. -/
theorem Inert.extends {v : Value} (hv : h.Inert v) (hmore : h.Extends h') : h'.Inert v := by
  induction hv with
  | null => exact .null
  | bool b => exact .bool b
  | int n => exact .int n
  | text s => exact .text s
  | builtin b => exact .builtin b
  | exceptionType kind => exact .exceptionType kind
  | @list id known _ ih =>
    refine .list (Nat.lt_of_lt_of_le known hmore.known) fun x hx => ?_
    rw [hmore.list id known] at hx
    exact ih x hx
  | tuple _ ih => exact .tuple ih

/-- Whether a cursor has only inert items ahead of it, and goes over no generator. -/
def InertCursor (h : Heap) : Cursor → Prop
  | .list id _ => h.Inert (.list id)
  | .tuple rest => ∀ x ∈ rest, h.Inert x
  | .text _ => True
  | .generator _ => False

theorem InertCursor.extends {c : Cursor} (hc : h.InertCursor c) (hmore : h.Extends h') :
    h'.InertCursor c := by
  cases c with
  | list id index => exact Inert.extends hc hmore
  | tuple rest => exact fun x hx => (hc x hx).extends hmore
  | text rest => trivial
  | generator id => exact hc.elim

/-- A loop over an inert value goes by a cursor of its own. -/
theorem Inert.source {v : Value} {source : Source} (hv : h.Inert v)
    (hof : Source.of v = .ok source) : ∃ c, source = .own c ∧ h.InertCursor c := by
  cases hv with
  | list known items =>
    cases hof
    exact ⟨_, rfl, .list known items⟩
  | tuple inert =>
    cases hof
    exact ⟨_, rfl, inert⟩
  | text s =>
    cases hof
    exact ⟨_, rfl, trivial⟩
  | _ => cases hof

/-- What such a loop takes is inert, and nothing is changed by it. -/
theorem InertCursor.takeFrom {c : Cursor} {source : Source} {x : Value} (hc : h.InertCursor c)
    (ht : h.takeFrom (.own c) = ((some x, source), h')) :
    h' = h ∧ h.Inert x ∧ ∃ c', source = .own c' ∧ h.InertCursor c' := by
  cases c with
  | list id index =>
    cases hi : (h.list id)[index]? with
    | none => simp [Heap.takeFrom, draw, hi] at ht
    | some y =>
      simp only [Heap.takeFrom, draw, hi, Prod.mk.injEq, Option.some.injEq] at ht
      obtain ⟨⟨rfl, rfl⟩, rfl⟩ := ht
      refine ⟨rfl, ?_, _, rfl, hc⟩
      cases hc with
      | list known items => exact items y (Array.mem_toList_iff.mpr (Array.mem_of_getElem? hi))
  | tuple rest =>
    cases rest with
    | nil => simp [Heap.takeFrom, draw] at ht
    | cons y rest =>
      simp only [Heap.takeFrom, draw, Prod.mk.injEq, Option.some.injEq] at ht
      obtain ⟨⟨rfl, rfl⟩, rfl⟩ := ht
      exact ⟨rfl, hc y List.mem_cons_self, _, rfl, fun x hx => hc x (List.mem_cons_of_mem y hx)⟩
  | text rest =>
    cases rest with
    | nil => simp [Heap.takeFrom, draw] at ht
    | cons y rest =>
      simp only [Heap.takeFrom, draw, Prod.mk.injEq, Option.some.injEq] at ht
      obtain ⟨⟨rfl, rfl⟩, rfl⟩ := ht
      exact ⟨rfl, .text _, _, rfl, trivial⟩
  | generator id => exact hc.elim

end Heap

/-! ## Faults -/

/-- Whether a fault is neither a raised exception nor a name that is not defined. -/
def Fault.Ordinary : Fault → Prop
  | raised _ | undefined _ => False
  | _ => True

/-- Whether a computation can fail in ordinary ways only. -/
def Action.Ordinary {α : Type} (a : Action α) : Prop :=
  ∀ w fault w', a.Ends w (.error fault) w' → fault.Ordinary

namespace Action

variable {α β : Type}

theorem ordinary_pure (x : α) : (pure x : Action α).Ordinary :=
  fun _ _ _ h => nomatch (ends_pure_iff.mp h).1

theorem ordinary_heap : Action.heap.Ordinary := fun _ _ _ h => nomatch (ends_heap_iff.mp h).1

theorem ordinary_write (line : String) : (write line).Ordinary :=
  fun _ _ _ h => nomatch (ends_write_iff.mp h).1

theorem ordinary_onHeap (step : Heap → α × Heap) : (onHeap step).Ordinary :=
  fun _ _ _ h => nomatch (ends_onHeap_iff.mp h).1

theorem ordinary_ofExcept {result : Except Fault α}
    (hresult : ∀ fault, result = .error fault → fault.Ordinary) : (ofExcept result).Ordinary :=
  fun _ fault _ h => hresult fault (ends_ofExcept_iff.mp h).1.symm

theorem ordinary_attempt {step : Heap → Except Fault α × Heap}
    (hstep : ∀ h fault, (step h).1 = .error fault → fault.Ordinary) : (attempt step).Ordinary :=
  fun w fault _ h => hstep w.heap fault (ends_attempt_iff.mp h).1.symm

theorem ordinary_bind {a : Action α} {f : α → Action β} (ha : a.Ordinary)
    (hf : ∀ x, (f x).Ordinary) : (a >>= f).Ordinary := by
  intro w fault w' h
  rcases ends_bind_iff.mp h with ⟨fault', h₁, he⟩ | ⟨x, w₁, -, h₂⟩
  · cases he
    exact ha w fault w' h₁
  · exact hf x w₁ fault w' h₂

theorem ordinary_newList (items : Array Value) : (newList items).Ordinary :=
  ordinary_bind (ordinary_onHeap _) fun _ => ordinary_pure _

end Action

namespace Heap

theorem iterate_ordinary (h : Heap) (v : Value) {fault : Fault}
    (he : (h.iterate v).1 = .error fault) : fault.Ordinary := by
  unfold iterate at he
  split at he
  · cases he
  · split at he
    · cases he
    · cases he
      trivial

theorem iter_ordinary (h : Heap) (v : Value) {fault : Fault} (he : (h.iter v).1 = .error fault) :
    fault.Ordinary := by
  rcases h.iter_eq v with hi | hi
  · rw [hi] at he
    cases he
  · rw [hi] at he
    exact h.iterate_ordinary v (map_eq_error_iff.mp he)

theorem add_ordinary (h : Heap) (a b : Value) {fault : Fault} (he : (h.add a b).1 = .error fault) :
    fault.Ordinary := by
  unfold add at he
  split at he
  · cases he
  · cases he
  · cases he
  · unfold Value.addWords at he
    split at he
    · split at he <;> cases he
      trivial
    · cases he
      trivial

/-- `next` has nothing to raise of what is no generator and no iterator. -/
theorem next_ordinary (h : Heap) {v : Value} (hv : h.Inert v) {fault : Fault}
    (he : (h.next v).1 = .error fault) : fault.Ordinary := by
  cases hv <;> cases he <;> trivial

end Heap

namespace Builtin

theorem oneArgument_ordinary {function : String} {args : List Value} {fault : Fault}
    (h : oneArgument function args = .error fault) : fault.Ordinary := by
  unfold oneArgument at h
  split at h <;> cases h
  trivial

theorem eq_of_oneArgument {function : String} {args : List Value} {v : Value}
    (h : oneArgument function args = .ok v) : args = [v] := by
  unfold oneArgument at h
  split at h <;> cases h
  rfl

theorem twoArguments_ordinary {function : String} {args : List Value} {fault : Fault}
    (h : twoArguments function args = .error fault) : fault.Ordinary := by
  unfold twoArguments at h
  split at h <;> cases h
  trivial

theorem sumArguments_ordinary {args : List Value} {fault : Fault}
    (h : sumArguments args = .error fault) : fault.Ordinary := by
  unfold sumArguments at h
  split at h <;> cases h
  trivial

theorem length_ordinary {h : Heap} {v : Value} {fault : Fault}
    (he : length h v = .error fault) : fault.Ordinary := by
  unfold length at he
  split at he <;> cases he
  trivial

end Builtin

theorem Source.of_ordinary {v : Value} {fault : Fault} (h : Source.of v = .error fault) :
    fault.Ordinary := by
  unfold Source.of at h
  split at h
  · cases h
  · split at h <;> cases h
    trivial

/-- A loop fails in ordinary ways only if its body does. -/
theorem Action.ordinary_foldItems {β : Type} {body : β → Value → Action β}
    (hbody : ∀ acc item, (body acc item).Ordinary) (fuel : Nat) (v : Value) (start : β) :
    (foldItems fuel v start body).Ordinary := by
  intro w fault w' h
  rcases turns_of_foldItems h with ⟨fault', hof, he, -⟩ | ⟨source, turns, -, hturns⟩
  · cases he
    exact Source.of_ordinary hof
  · generalize hanswer : Except.error fault = answer at hturns
    clear h
    induction hturns with
    | ended => cases hanswer
    | failed _ hends =>
      cases hanswer
      exact hbody _ _ _ _ _ hends
    | turn _ _ _ ih => exact ih hanswer

/-- Without a predicate there is nothing to fail but the iteration. -/
theorem Builtin.ordinary_filterItems_null (invoke : Caller) (fuel : Nat) (v : Value) :
    (filterItems invoke fuel .null v).Ordinary := by
  refine ordinary_bind (ordinary_foldItems (fun kept item w fault w' h => ?_) fuel v #[])
    ordinary_newList
  cases ((ends_filterItem_null kept item w).unique h).1

theorem Progression.ofArgs_ordinary {function : String} {args : List Value} {fault : Fault}
    (h : Progression.ofArgs function args = .error fault) : fault.Ordinary := by
  have heq := Progression.ofArgs_eq function args
  cases hr : Progression.rejection? args with
  | none =>
    rw [hr] at heq
    obtain ⟨words, -, hok⟩ := heq
    rw [hok] at h
    cases h
  | some reject =>
    rw [hr] at heq
    obtain rfl : reject function = fault := Except.error.inj (heq.symm.trans h)
    unfold Progression.rejection? at hr
    split at hr
    · cases hr
      trivial
    · obtain ⟨⟨v, name⟩, -, hv⟩ := List.exists_of_findSome?_eq_some hr
      cases hw : v.toWord? with
      | some n => simp [hw] at hv
      | none =>
        simp only [hw, Option.some.injEq] at hv
        subst hv
        trivial

/-! ## Calls -/

namespace Host

variable {host : Host} {w w' : World} {f : Value} {args : List Value} {fault : Fault}

/-- A call with inert values that comes to no call of another function fails in ordinary ways
only. -/
theorem ordinary_of_ne (hf : w.heap.Inert f) (hargs : ∀ x ∈ args, w.heap.Inert x)
    (hmap : f ≠ .builtin .map) (hfilter : f ≠ .builtin .filter) {fuel : Nat}
    (h : (host.call (fuel + 1) f args).Ends w (.error fault) w') : fault.Ordinary := by
  cases hf with
  | builtin b =>
    have hrun : (b.run host.config (host.call fuel) fuel args).Ends w (.error fault) w' := h
    cases b with
    | print =>
      exact ordinary_bind ordinary_heap (fun _ => ordinary_bind (ordinary_write _) fun _ =>
        ordinary_pure _) _ _ _ hrun
    | len =>
      exact ordinary_bind (ordinary_ofExcept fun _ => Builtin.oneArgument_ordinary)
        (fun _ => ordinary_bind ordinary_heap fun _ => ordinary_ofExcept fun _ =>
          Builtin.length_ordinary) _ _ _ hrun
    | repr =>
      exact ordinary_bind (ordinary_ofExcept fun _ => Builtin.oneArgument_ordinary)
        (fun _ => ordinary_bind ordinary_heap fun _ => ordinary_pure _) _ _ _ hrun
    | iter =>
      exact ordinary_bind (ordinary_ofExcept fun _ => Builtin.oneArgument_ordinary)
        (fun v => ordinary_attempt fun heap _ => heap.iter_ordinary v) _ _ _ hrun
    | next =>
      cases hone : Builtin.oneArgument "next" args with
      | error fault' =>
        cases (ends_ofExcept_bind_of_error hone).mp hrun |>.1
        exact Builtin.oneArgument_ordinary hone
      | ok v =>
        obtain rfl := Builtin.eq_of_oneArgument hone
        have hnext := (ends_attempt_iff.mp ((ends_ofExcept_bind_of_ok hone).mp hrun)).1
        exact w.heap.next_ordinary (hargs v List.mem_cons_self) hnext.symm
    | map => exact absurd rfl hmap
    | filter => exact absurd rfl hfilter
    | sum =>
      have hadd : ∀ total item, (Builtin.addItem total item).Ordinary := fun total item =>
        ordinary_attempt fun heap _ => heap.add_ordinary total item
      exact ordinary_bind (ordinary_ofExcept fun _ => Builtin.sumArguments_ordinary)
        (fun vs => ordinary_foldItems hadd fuel vs.1 vs.2) _ _ _ hrun
    | range =>
      refine ordinary_bind (ordinary_ofExcept fun _ => Progression.ofArgs_ordinary)
        (fun p => ?_) _ _ _ hrun
      unfold Builtin.rangeList
      cases p.iterates with
      | true => exact ordinary_newList _
      | false => exact ordinary_bind (ordinary_write _) fun _ => ordinary_newList _
    | xrange =>
      exact ordinary_bind (ordinary_ofExcept fun _ => Progression.ofArgs_ordinary)
        (fun _ => ordinary_bind (ordinary_onHeap _) fun _ => ordinary_pure _) _ _ _ hrun
  | exceptionType kind =>
    exact ordinary_bind (ordinary_onHeap _) (fun _ => ordinary_pure _) _ _ _ h
  | _ =>
    cases (ends_throw_iff.mp h).1
    trivial

/-- Neither does one with a single argument. -/
theorem ordinary_single {x : Value} (hf : w.heap.Inert f) (hx : w.heap.Inert x)
    (h : host.Ends w f [x] (.error fault) w') : fault.Ordinary := by
  obtain ⟨_ | fuel, h⟩ := h
  · exact absurd h not_ends_outOfFuel
  · by_cases hmap : f = .builtin .map
    · subst hmap
      cases (ends_ofExcept_bind_of_error rfl).mp h |>.1
      trivial
    · by_cases hfilter : f = .builtin .filter
      · subst hfilter
        cases (ends_ofExcept_bind_of_error rfl).mp h |>.1
        trivial
      · exact ordinary_of_ne hf (by simpa using hx) hmap hfilter h

/-- Why a loop that calls a function with the items of a value fails: the value cannot be iterated,
or a call has failed. -/
def LoopFault (host : Host) (g v : Value) (w : World) (fault : Fault) : Prop :=
  Source.of v = .error fault ∨ ∃ source calls w₁, Source.of v = .ok source ∧
    CallsEach host g source w calls w₁ ∧ answers calls = .error fault

/-- A loop that fails has no result. -/
theorem loopFault_of_calls {g v : Value} {result : List MapCall → World → List Value → Prop}
    (h : match Source.of v with
      | .error fault' => (Except.error fault : Except Fault Value) = .error fault' ∧ w' = w
      | .ok source => ∃ calls w₁, CallsEach host g source w calls w₁ ∧
          match answers calls with
          | .error fault' => (Except.error fault : Except Fault Value) = .error fault' ∧ w' = w₁
          | .ok results => result calls w₁ results)
    (hresult : ∀ calls w₁ results, ¬ result calls w₁ results) : LoopFault host g v w fault := by
  cases hof : Source.of v with
  | error fault' =>
    simp only [hof] at h
    cases h.1
    exact Or.inl hof
  | ok source =>
    simp only [hof] at h
    obtain ⟨calls, w₁, hcalls, hend⟩ := h
    cases ha : answers calls with
    | ok results =>
      simp only [ha] at hend
      exact absurd hend (hresult calls w₁ results)
    | error fault' =>
      simp only [ha] at hend
      cases hend.1
      exact Or.inr ⟨source, calls, w₁, hof, hcalls, ha⟩

theorem fault_of_ends_map {g v : Value} (h : host.Ends w (.builtin .map) [g, v] (.error fault) w') :
    LoopFault host g v w fault :=
  loopFault_of_calls (ends_map_iff.mp h) (by simp)

theorem fault_of_ends_filter {g v : Value} (hg : g ≠ .null)
    (h : host.Ends w (.builtin .filter) [g, v] (.error fault) w') : LoopFault host g v w fault :=
  loopFault_of_calls ((ends_filter_iff hg).mp h) (by simp)

variable (hnone : host.functions = #[])

include hnone

theorem extends_of_ends {answer : Except Fault Value} (h : host.Ends w f args answer w') :
    w.heap.Extends w'.heap := by
  obtain ⟨fuel, h⟩ := h
  exact keepsLists_call hnone fuel f args _ _ _ h

/-- Calls over an inert value are made with inert items, and change no list. -/
theorem inert_of_callsEach {c : Cursor} {calls : List MapCall}
    (hcalls : CallsEach host f (.own c) w calls w') (hc : w.heap.InertCursor c) :
    ∀ call ∈ calls, w.heap.Extends call.start.heap ∧ call.start.heap.Inert call.item := by
  generalize hsource : Source.own c = source at hcalls
  induction hcalls generalizing c with
  | ended => simp
  | failed hsome =>
    subst hsource
    obtain ⟨rfl, hx, -⟩ := hc.takeFrom hsome
    simpa using ⟨Heap.extends_refl _, hx⟩
  | next hsome hcall _ ih =>
    subst hsource
    obtain ⟨rfl, hx, c', rfl, hc'⟩ := hc.takeFrom hsome
    have hmore := extends_of_ends hnone hcall
    intro call hmem
    rcases List.mem_cons.mp hmem with rfl | hmem
    · exact ⟨Heap.extends_refl _, hx⟩
    · obtain ⟨hextends, hitem⟩ := ih (hc'.extends hmore) rfl call hmem
      exact ⟨hmore.trans hextends, hitem⟩

/-- If what is called with the items of an inert value fails, it does so in ordinary ways. -/
theorem ordinary_of_loop {g v : Value} (hinert : w.heap.Inert g ∧ w.heap.Inert v)
    (h : LoopFault host g v w fault) : fault.Ordinary := by
  rcases h with hof | ⟨source, calls, w₁, hof, hcalls, ha⟩
  · exact Source.of_ordinary hof
  · obtain ⟨c, rfl, hc⟩ := hinert.2.source hof
    obtain ⟨before, last, rfl, hlast, -⟩ := hcalls.last_of_error ha
    have hmem : last ∈ before ++ [last] := by simp
    obtain ⟨hmore, hx⟩ := inert_of_callsEach hnone hcalls hc last hmem
    have hends := hcalls.ends last hmem
    rw [hlast] at hends
    exact ordinary_single (hinert.1.extends hmore) hx hends

/-- A call with inert values fails in ordinary ways only. -/
theorem ordinary_of_inert (hf : w.heap.Inert f) (hargs : ∀ x ∈ args, w.heap.Inert x)
    (h : host.Ends w f args (.error fault) w') : fault.Ordinary := by
  have hcalled := h
  obtain ⟨_ | fuel, h⟩ := h
  · exact absurd h not_ends_outOfFuel
  · by_cases hmap : f = .builtin .map
    · subst hmap
      cases hvs : Builtin.twoArguments "map" args with
      | error fault' =>
        cases (ends_ofExcept_bind_of_error hvs).mp h |>.1
        exact Builtin.twoArguments_ordinary hvs
      | ok vs =>
        obtain ⟨g, v⟩ := vs
        obtain rfl := Builtin.eq_of_twoArguments hvs
        exact ordinary_of_loop hnone (by simpa using hargs) (fault_of_ends_map hcalled)
    · by_cases hfilter : f = .builtin .filter
      · subst hfilter
        cases hvs : Builtin.twoArguments "filter" args with
        | error fault' =>
          cases (ends_ofExcept_bind_of_error hvs).mp h |>.1
          exact Builtin.twoArguments_ordinary hvs
        | ok vs =>
          obtain ⟨g, v⟩ := vs
          obtain rfl := Builtin.eq_of_twoArguments hvs
          by_cases hg : g = .null
          · subst hg
            exact Builtin.ordinary_filterItems_null _ _ _ _ _ _
              ((ends_ofExcept_bind_of_ok hvs).mp h)
          · exact ordinary_of_loop hnone (by simpa using hargs) (fault_of_ends_filter hg hcalled)
      · exact ordinary_of_ne hf hargs hmap hfilter h

end Host

/-! ## What such calls hand on -/

theorem Heap.Inert.isIterator_eq_false {h : Heap} {v : Value} (hv : h.Inert v) :
    v.isIterator = false := by
  cases hv <;> rfl

/-- Whether no call of a built-in function that a journal notes is handed a generator or an
iterator. -/
def Journal.HandsOnNone (journal : Journal) : Prop :=
  ∀ b args line?, Entry.builtin b args line? ∈ journal → ∀ v ∈ args, v.isIterator = false

namespace Journal

theorem handsOnNone_nil : HandsOnNone [] := by simp [HandsOnNone]

theorem HandsOnNone.append {j k : Journal} (hj : j.HandsOnNone) (hk : k.HandsOnNone) :
    HandsOnNone (j ++ k) := by
  intro b args line? hmem
  rcases List.mem_append.mp hmem with hmem | hmem
  · exact hj b args line? hmem
  · exact hk b args line? hmem

theorem handsOnNone_builtin {h : Heap} {args : List Value} (hargs : ∀ x ∈ args, h.Inert x)
    (b : Builtin) (line? : Option String) : HandsOnNone [.builtin b args line?] := by
  intro b' args' line?' hmem v hv
  obtain ⟨-, rfl, -⟩ : b' = b ∧ args' = args ∧ line?' = line? := by simpa using hmem
  exact (hargs v hv).isIterator_eq_false

/-- A loop over an inert value notes calls with inert items. -/
theorem handsOnNone_loop {invoke : Caller} {log : Log} {f : Value}
    (hkeeps : ∀ f args, (invoke f args).Keeps World.KeepsLists)
    (hlog : ∀ x (w : World), w.heap.Inert x → HandsOnNone (log f [x] w)) {c : Cursor} {w : World}
    (hc : w.heap.InertCursor c) (fuel : Nat) :
    HandsOnNone (loopJournal invoke log f (.own c) fuel w) := by
  induction fuel generalizing c w with
  | zero => exact handsOnNone_nil
  | succ fuel ih =>
    rw [loopJournal]
    rcases ht : w.heap.takeFrom (.own c) with ⟨⟨_ | x, source⟩, h⟩
    · exact handsOnNone_nil
    · obtain ⟨rfl, hx, c', rfl, hc'⟩ := hc.takeFrom ht
      refine (hlog x _ hx).append ?_
      split
      · next w₁ hends => exact ih (hc'.extends (hkeeps f [x] _ _ _ hends))
      · exact handsOnNone_nil

end Journal

namespace Host

variable {host : Host} (hnone : host.functions = #[])

include hnone

/-- A call with one inert argument notes itself alone. -/
theorem handsOnNone_single (fuel : Nat) (f : Value) {x : Value} {w : World}
    (hx : w.heap.Inert x) : Journal.HandsOnNone (host.journal fuel f [x] w) := by
  cases fuel with
  | zero => exact Journal.handsOnNone_nil
  | succ fuel =>
    cases f with
    | builtin b =>
      have hargs : ∀ y ∈ [x], w.heap.Inert y := by simpa using hx
      have halone : host.journal (fuel + 1) (.builtin b) [x] w =
          [.builtin b [x] (b.line? host.config w.heap [x])] := by cases b <;> rfl
      rw [halone]
      exact Journal.handsOnNone_builtin hargs b _
    | function id name =>
      simp only [journal, function?_eq_none hnone]
      exact Journal.handsOnNone_nil
    | _ => exact Journal.handsOnNone_nil

/-- What is called with inert values hands no generator and no iterator to any function. -/
theorem handsOnNone_journal (fuel : Nat) (f : Value) {args : List Value} {w : World}
    (hargs : ∀ x ∈ args, w.heap.Inert x) : Journal.HandsOnNone (host.journal fuel f args w) := by
  cases fuel with
  | zero => exact Journal.handsOnNone_nil
  | succ fuel =>
    have hitems : ∀ g v, w.heap.Inert v →
        Journal.HandsOnNone (itemsJournal (host.call fuel) (host.journal fuel) fuel g v w) := by
      intro g v hv
      unfold itemsJournal
      split
      · next source hof =>
        obtain ⟨c, rfl, hc⟩ := hv.source hof
        exact Journal.handsOnNone_loop (keepsLists_call hnone fuel)
          (fun x w₁ hx => handsOnNone_single hnone fuel g hx) hc fuel
      · exact Journal.handsOnNone_nil
    cases f with
    | builtin b =>
      refine (Journal.handsOnNone_builtin hargs b _).append (k := b.callsJournal _ _ _ _ _) ?_
      unfold Builtin.callsJournal
      split
      · exact hitems _ _ (hargs _ (by simp))
      · split
        · exact Journal.handsOnNone_nil
        · exact hitems _ _ (hargs _ (by simp))
      · exact Journal.handsOnNone_nil
    | function id name =>
      simp only [journal, function?_eq_none hnone]
      exact Journal.handsOnNone_nil
    | _ => exact Journal.handsOnNone_nil

end Host

end Builtins
