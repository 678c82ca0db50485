-- The law of `filter`. It keeps the items that its predicate holds of, each as often as it comes
-- and in order. Without a predicate it judges the items themselves, which is the same as to ask a
-- predicate that returns its argument.
import Builtins.Host.Stock
import Builtins.Proofs.Loop.Drained
import Builtins.Proofs.Mapping.Each

namespace Builtins

/-! ## Truth -/

namespace Heap

theorem truthy_eq_of_lists_eq {h h' : Heap} (he : h'.lists = h.lists) (v : Value) :
    h'.truthy v = h.truthy v := by
  cases v with
  | list id => simp only [truthy, list_eq_of_lists_eq he]
  | _ => rfl

/-- A new list makes nothing false that was true. -/
theorem truthy_newList {h : Heap} (items : Array Value) {v : Value} (hv : h.truthy v = true) :
    (h.newList items).2.truthy v = true := by
  cases v with
  | list id =>
    rcases Nat.lt_or_ge id.index h.lists.size with hlt | hge
    · simpa only [truthy, list_newList_of_lt h items hlt] using hv
    · -- What is no list of the heap counts as empty.
      simp [truthy, list, Array.getD_eq_getD_getElem?, hge] at hv
  | _ => exact hv

end Heap

/-! ## What is kept -/

/-- Whether a call has answered with something true. -/
def MapCall.holds (c : MapCall) : Bool :=
  match c.answer with
  | .ok y => c.finish.heap.truthy y
  | .error _ => false

/-- The items that calls have found a predicate to hold of, in order. -/
def kept (calls : List MapCall) : List Value := (calls.filter (·.holds)).map (·.item)

theorem kept_cons (c : MapCall) (calls : List MapCall) :
    kept (c :: calls) = if c.holds then c.item :: kept calls else kept calls := by
  unfold kept
  cases hc : c.holds <;> simp [hc]

theorem kept_sublist (calls : List MapCall) : (kept calls).Sublist (calls.map (·.item)) :=
  List.Sublist.map _ List.filter_sublist

namespace Builtin

variable {invoke : Caller} {f item : Value}

/-- What a predicate answers is judged in the world that its call has left. -/
theorem ends_keeps_iff (hf : f ≠ .null) {w w' : World} {verdict : Except Fault Bool} :
    (keeps invoke f item).Ends w verdict w' ↔
      ∃ y, (invoke f [item]).Ends w y w' ∧ verdict = y.map w'.heap.truthy := by
  have hkeeps : keeps invoke f item = invoke f [item] >>= fun answer =>
      Action.heap >>= fun h => pure (h.truthy answer) := by
    unfold keeps
    cases f with
    | null => exact absurd rfl hf
    | _ => rfl
  rw [hkeeps, Action.ends_bind_iff]
  constructor
  · rintro (⟨fault, hcall, rfl⟩ | ⟨y, w₁, hcall, hjudge⟩)
    · exact ⟨_, hcall, rfl⟩
    · rw [bind_pure_comp, Action.ends_map_iff] at hjudge
      obtain ⟨h, hheap, rfl⟩ := hjudge
      obtain ⟨rfl, rfl⟩ := Action.ends_heap_iff.mp hheap
      exact ⟨_, hcall, rfl⟩
  · rintro ⟨fault | y, hcall, rfl⟩
    · exact Or.inl ⟨_, hcall, rfl⟩
    · refine Or.inr ⟨y, w', hcall, ?_⟩
      rw [bind_pure_comp, Action.ends_map_iff]
      exact ⟨_, Action.ends_heap_iff.mpr ⟨rfl, rfl⟩, rfl⟩

/-- The body of `filter` calls its predicate, and puts the item behind the others if the answer is
true. -/
theorem callsItem_filterItem (hf : f ≠ .null) :
    CallsItem invoke f (fun h kept item y => if h.truthy y then kept.push item else kept)
      (filterItem invoke f) := by
  intro acc item w answer w'
  unfold filterItem
  rw [bind_pure_comp, Action.ends_map_iff]
  simp only [ends_keeps_iff hf]
  constructor
  · rintro ⟨_, ⟨y, hcall, rfl⟩, rfl⟩
    exact ⟨y, hcall, by cases y <;> rfl⟩
  · rintro ⟨y, hcall, rfl⟩
    exact ⟨_, ⟨y, hcall, rfl⟩, by cases y <;> rfl⟩

/-- Without a predicate, the body of `filter` judges the item and leaves the world alone. -/
theorem ends_filterItem_null (kept : Array Value) (item : Value) (w : World) :
    (filterItem invoke .null kept item).Ends w
      (.ok (if w.heap.truthy item then kept.push item else kept)) w := by
  unfold filterItem
  rw [bind_pure_comp, Action.ends_map_iff]
  refine ⟨.ok (w.heap.truthy item), ?_, rfl⟩
  unfold keeps
  rw [bind_pure_comp, Action.ends_map_iff]
  exact ⟨_, Action.ends_heap_iff.mpr ⟨rfl, rfl⟩, rfl⟩

end Builtin

theorem gather_kept (items : Array Value) (calls : List MapCall) :
    gather (fun h kept item y => if h.truthy y then kept.push item else kept) items calls =
      (answers calls).map fun _ => items ++ (kept calls).toArray := by
  induction calls generalizing items with
  | nil => simp [gather, kept, Except.map]
  | cons c calls ih =>
    rw [gather, answers_cons]
    cases hc : c.answer with
    | error fault => rfl
    | ok y =>
      simp only [Except.bind]
      rw [ih]
      cases answers calls with
      | error fault => rfl
      | ok results =>
        have hholds : c.holds = c.finish.heap.truthy y := by simp only [MapCall.holds, hc]
        cases ht : c.finish.heap.truthy y <;> simp [kept_cons, hholds, ht, Except.map]

theorem foldl_push_if (p : Value → Bool) (items : List Value) (acc : Array Value) :
    items.foldl (fun acc x => if p x then acc.push x else acc) acc =
      acc ++ (items.filter p).toArray := by
  induction items generalizing acc with
  | nil => simp
  | cons x items ih => cases hx : p x <;> simp [hx, ih]

/-! ## Calls of `filter` -/

section Calls

variable {host : Host} {f v : Value} {w w' : World} {answer : Except Fault Value}

/-- A call of `filter` with a predicate fails if its second argument cannot be iterated. Else it
makes its calls, and fails with the first that fails, or ends with a new list of what is kept. -/
theorem Host.ends_filter_iff (hf : f ≠ .null) :
    host.Ends w (.builtin .filter) [f, v] answer w' ↔
      match Source.of v with
      | .error fault => answer = .error fault ∧ w' = w
      | .ok source => ∃ calls w₁, CallsEach host f source w calls w₁ ∧
          match answers calls with
          | .error fault => answer = .error fault ∧ w' = w₁
          | .ok _ =>
            answer = .ok (.list (w₁.heap.newList (kept calls).toArray).1) ∧
              w' = { w₁ with heap := (w₁.heap.newList (kept calls).toArray).2 } := by
  have hbody : ∀ fuel, CallsItem (host.call fuel) f
      (fun h kept item y => if h.truthy y then kept.push item else kept)
      (Builtin.filterItem (host.call fuel) f) := fun _ => Builtin.callsItem_filterItem hf
  rw [ends_iff_calls (fun _ => rfl) hbody]
  cases Source.of v with
  | error fault => rfl
  | ok source =>
    simp only [gather_kept]
    refine exists_congr fun calls => exists_congr fun w₁ => and_congr_right fun _ => ?_
    cases answers calls with
    | error fault => rfl
    | ok results => simp [Except.map]

variable {source : Source} {items : List Value} {h' : Heap}

/-- Without a predicate, `filter` keeps the items that are true. -/
theorem Host.ends_filter_null (host : Host) (hof : Source.of v = .ok source)
    (hd : w.heap.Drained source items h') :
    host.Ends w (.builtin .filter) [.null, v]
      (.ok (.list (h'.newList (items.filter h'.truthy).toArray).1))
      { w with heap := (h'.newList (items.filter h'.truthy).toArray).2 } := by
  have hbody : ∀ w₁ : World, w₁.heap.lists = w.heap.lists → ∀ kept x,
      (Builtin.filterItem (host.call (items.length + 1)) .null kept x).Ends w₁
        (.ok (if h'.truthy x then kept.push x else kept)) w₁ := by
    intro w₁ hw₁ kept x
    have hlists : w₁.heap.lists = h'.lists := hw₁.trans hd.lists.symm
    rw [← Heap.truthy_eq_of_lists_eq hlists x]
    exact Builtin.ends_filterItem_null kept x w₁
  have hfold := Heap.Drained.ends_foldItems hof hd hbody (Nat.lt_succ_self items.length) #[]
  rw [foldl_push_if, Array.empty_append] at hfold
  exact ⟨items.length + 2, Action.ends_bind_newList_iff.mpr ⟨_, _, hfold, rfl, rfl⟩⟩

/-- A function that returns its argument can be called with item after item. -/
theorem Heap.Drained.callsEach (hf : ∀ w x, host.Ends w f [x] (.ok x) w)
    (hd : w.heap.Drained source items h') :
    ∃ calls, CallsEach host f source w calls { w with heap := h' } ∧ answers calls = .ok items ∧
      kept calls = items.filter h'.truthy := by
  generalize hheap : w.heap = heap at hd
  induction hd generalizing w with
  | ended hnone =>
    subst hheap
    exact ⟨[], .ended hnone, rfl, rfl⟩
  | @item _ h₁ h' source _ x items hsome hrest ih =>
    subst hheap
    obtain ⟨calls, hcalls, hanswers, hkept⟩ := ih (w := ⟨h₁, w.output⟩) rfl
    refine ⟨⟨⟨source, x, ⟨h₁, w.output⟩, ⟨h₁, w.output⟩⟩, .ok x⟩ :: calls,
      .next hsome (hf _ x) hcalls, ?_, ?_⟩
    · rw [answers_cons, hanswers]
      rfl
    · have hjudged := Heap.truthy_eq_of_lists_eq hrest.lists x
      rw [kept_cons, hkept, List.filter_cons, hjudged]
      rfl

/-- A predicate that returns its argument keeps what `filter` keeps without a predicate. -/
theorem Host.ends_filter_of_returns (hf : ∀ w x, host.Ends w f [x] (.ok x) w)
    (hof : Source.of v = .ok source) (hd : w.heap.Drained source items h') :
    host.Ends w (.builtin .filter) [f, v]
      (.ok (.list (h'.newList (items.filter h'.truthy).toArray).1))
      { w with heap := (h'.newList (items.filter h'.truthy).toArray).2 } := by
  have hne : f ≠ .null := by
    rintro rfl
    obtain ⟨_ | fuel, hcall⟩ := hf w .null
    · exact Action.not_ends_outOfFuel hcall
    · cases (Action.ends_throw_iff.mp hcall).1
  rw [ends_filter_iff hne, hof]
  obtain ⟨calls, hcalls, hanswers, hkept⟩ := hd.callsEach hf
  refine ⟨calls, _, hcalls, ?_⟩
  rw [hanswers, hkept]
  exact ⟨rfl, rfl⟩

/-- To filter what `filter` has kept without a predicate keeps all of it. -/
theorem Host.ends_filter_filtered (host : Host) (h : Heap) (items : List Value)
    (output : Array String) :
    let kept := (items.filter h.truthy).toArray
    let made := (h.newList kept).2
    host.Ends ⟨made, output⟩ (.builtin .filter) [.null, .list (h.newList kept).1]
      (.ok (.list (made.newList kept).1)) ⟨(made.newList kept).2, output⟩ := by
  intro kept made
  have hcontents : made.contents (.list (h.newList kept).1) = items.filter h.truthy := by
    simp only [made, Heap.contents, Heap.list_newList]
    rfl
  have hall : (items.filter h.truthy).filter made.truthy = items.filter h.truthy := by
    rw [List.filter_eq_self]
    intro x hx
    exact Heap.truthy_newList kept (List.mem_filter.mp hx).2
  have hd := made.drained_along (v := .list (h.newList kept).1) rfl 0
  rw [List.drop_zero, hcontents] at hd
  have hends := host.ends_filter_null (w := ⟨made, output⟩) (Source.of_sequence rfl) hd
  rw [hall] at hends
  exact hends

end Calls

/-! ## The law of `filter` -/

/-- Turns of which each begins in the world that the turn before it has left, with its item taken
from the source and nothing else done. -/
def Successive : World → List Turn → Prop
  | _, [] => True
  | w, t :: turns =>
    (∃ source', w.heap.takeFrom t.source = ((some t.item, source'), t.start.heap)) ∧
      t.start.output = w.output ∧ Successive t.finish turns

theorem CallsEach.successive {host : Host} {f : Value} {source : Source} {w w' : World}
    {calls : List MapCall} (hcalls : CallsEach host f source w calls w') :
    Successive w (calls.map (·.toTurn)) := by
  induction hcalls with
  | ended => exact trivial
  | failed hsome => exact ⟨⟨_, hsome⟩, rfl, trivial⟩
  | next hsome _ _ ih => exact ⟨⟨_, hsome⟩, rfl, ih⟩

/-- A predicate is called with each item that there is, in order, as long as no call fails, and the
items at which its answers are true make up a new list; the fault of a call is that of `filter`.
Without a predicate `filter` always ends, and keeps what is true of all that it collects. So does a
predicate that returns its argument, and to filter once more changes nothing. -/
theorem filter_keeps_the_items_that_its_predicate_holds_of (host : Host) (f v : Value) (w : World) :
    (f ≠ .null → ∀ answer w', host.Ends w (.builtin .filter) [f, v] answer w' ↔
      match Source.of v with
      | .error fault => answer = .error fault ∧ w' = w
      | .ok source => ∃ calls w₁, CallsEach host f source w calls w₁ ∧
          match answers calls with
          | .error fault => answer = .error fault ∧ w' = w₁
          | .ok _ =>
            answer = .ok (.list (w₁.heap.newList (kept calls).toArray).1) ∧
              w' = { w₁ with heap := (w₁.heap.newList (kept calls).toArray).2 }) ∧
      (∀ source calls w', CallsEach host f source w calls w' →
        (∀ c ∈ calls, host.Ends c.start f [c.item] c.answer c.finish) ∧
          Successive w (calls.map (·.toTurn)) ∧
          (kept calls).Sublist (calls.map (·.item)) ∧
          ∀ fault, answers calls = .error fault →
            ∃ before last, calls = before ++ [last] ∧ last.answer = .error fault ∧
              ∀ c ∈ before, ∃ y, c.answer = .ok y) ∧
      match Source.of v with
      | .error fault => host.Ends w (.builtin .filter) [.null, v] (.error fault) w
      | .ok source => ∃ items h' l w', w.heap.Drained source items h' ∧
          (∃ fuel, (Action.collect fuel v).Ends w (.ok items.toArray) { w with heap := h' }) ∧
          (l, w'.heap) = h'.newList (items.filter h'.truthy).toArray ∧ w'.output = w.output ∧
          (w'.heap.list l).toList = items.filter h'.truthy ∧
          host.Ends w (.builtin .filter) [.null, v] (.ok (.list l)) w' ∧
          (∀ g, (∀ w x, host.Ends w g [x] (.ok x) w) →
            host.Ends w (.builtin .filter) [g, v] (.ok (.list l)) w') ∧
          ∃ l' w'', host.Ends w' (.builtin .filter) [.null, .list l] (.ok (.list l')) w'' ∧
            w''.heap.list l' = w'.heap.list l := by
  refine ⟨fun hf answer w' => Host.ends_filter_iff hf, ?_, ?_⟩
  · intro source calls w' hcalls
    exact ⟨hcalls.ends, hcalls.successive, kept_sublist calls, fun fault h =>
      hcalls.last_of_error h⟩
  · cases hof : Source.of v with
    | error fault =>
      refine ⟨1, ?_⟩
      apply (Action.ends_ofExcept_bind_of_ok rfl).mpr
      refine Action.ends_bind_iff.mpr (Or.inl ⟨fault, ?_, rfl⟩)
      exact (Action.ends_ofExcept_bind_of_error hof).mpr ⟨rfl, rfl⟩
    | ok source =>
      obtain ⟨items, h', hd⟩ := w.heap.exists_drained source
      have hlist := h'.list_newList (items.filter h'.truthy).toArray
      have hagain := (h'.newList (items.filter h'.truthy).toArray).2.list_newList
        (items.filter h'.truthy).toArray
      exact ⟨items, h', (h'.newList (items.filter h'.truthy).toArray).1,
        { w with heap := (h'.newList (items.filter h'.truthy).toArray).2 }, hd,
        ⟨_, hd.ends_collect hof (Nat.lt_succ_self _)⟩, rfl, rfl, congrArg Array.toList hlist,
        host.ends_filter_null hof hd, fun g hg => Host.ends_filter_of_returns hg hof hd, _, _,
        host.ends_filter_filtered h' items w.output, hagain.trans hlist.symm⟩

/-- An item that comes twice is kept twice, and what counts as false is not kept. -/
theorem filter_keeps_equal_items_in_order :
    let host : Host := { functions := #[Stock.identity] }
    let f : Value := .function ⟨1⟩ "identity"
    let v : Value := .tuple [.int 2, .int 0, .text "", .int 2]
    let listed : World := { heap := { lists := #[#[.int 2, .int 2]] } }
    f ≠ .null ∧ (∀ w x, host.Ends w f [x] (.ok x) w) ∧
      (∃ calls, CallsEach host f (.own (.along v 0)) {} calls {} ∧
        kept calls = [.int 2, .int 2] ∧ (kept calls).Sublist (calls.map (·.item))) ∧
      host.Ends {} (.builtin .filter) [f, v] (.ok (.list ⟨0⟩)) listed ∧
      host.Ends {} (.builtin .filter) [.null, v] (.ok (.list ⟨0⟩)) listed := by
  intro host f v listed
  have hne : f ≠ .null := by simp [f]
  have hreturns : ∀ w x, host.Ends w f [x] (.ok x) w := fun w x => ⟨1, rfl⟩
  obtain ⟨hiff, hcalled, items, h', l, w', hd, -, hmade, houtput, -, hnull, hsame, -⟩ :=
    filter_keeps_the_items_that_its_predicate_holds_of host f v {}
  have hall : Heap.Drained {} (.own (.along v 0)) [.int 2, .int 0, .text "", .int 2] {} :=
    Heap.drained_along {} rfl 0
  obtain ⟨calls, hcalls, hanswers, hkept⟩ := hall.callsEach (w := {}) hreturns
  have hends := (hiff hne (.ok (.list ⟨0⟩)) listed).mpr
    ⟨calls, {}, hcalls, by rw [hanswers, hkept]; exact ⟨rfl, rfl⟩⟩
  refine ⟨hne, hreturns, ⟨calls, hcalls, hkept, (hcalled _ calls {} hcalls).2.2.1⟩, hends, ?_⟩
  obtain ⟨hl, hw⟩ := hends.unique (hsame f hreturns)
  rw [hl, hw]
  exact hnull

end Builtins
