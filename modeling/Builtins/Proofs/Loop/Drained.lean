-- Going over a value with nothing done in between. Wherever an iterator stands, it has finitely
-- many items left, so a loop whose body leaves the world alone comes to an end.
import Builtins.Proofs.Loop.Turns
import Builtins.Proofs.Progression.Values
import Builtins.Proofs.Sequence.Contents

namespace Builtins

/-- What a source hands out until it has no item left, if nothing else is done meanwhile, and the
heap that this leaves. -/
inductive Heap.Drained : Heap → Source → List Value → Heap → Prop
  | ended {h h' : Heap} {source source' : Source}
    (hnone : h.takeFrom source = ((none, source'), h')) : Drained h source [] h'
  | item {h h₁ h' : Heap} {source source' : Source} {x : Value} {items : List Value}
    (hsome : h.takeFrom source = ((some x, source'), h₁)) (hrest : Drained h₁ source' items h') :
    Drained h source (x :: items) h'

/-! ## How many items are left -/

/-- A bound on the values that a generator has left. -/
def Generator.left (g : Generator) : Nat :=
  match g.stage with
  | .created => g.progression.span + 1
  | .suspended last => g.progression.distance last
  | .exhausted => 0

theorem Generator.left_lt_of_yielded {g g' : Generator} {x : Word}
    (h : g.resume = (.yielded x, g')) : g'.left < g.left := by
  obtain ⟨p, stage⟩ := g
  cases stage with
  | created =>
    cases hf : p.first? with
    | none => simp [resume, proceed, hf] at h
    | some y =>
      obtain ⟨rfl, -⟩ := (p.first?_eq_some_iff y).mp hf
      simp only [resume, proceed, hf, Prod.mk.injEq] at h
      obtain ⟨-, rfl⟩ := h
      exact Nat.lt_succ_self _
  | suspended last =>
    cases hn : p.next? last with
    | none => simp [resume, proceed, hn] at h
    | some y =>
      simp only [resume, proceed, hn, Prod.mk.injEq] at h
      obtain ⟨-, rfl⟩ := h
      exact Progression.distance_lt_of_next? hn
  | exhausted => simp [resume] at h

namespace Heap

/-- A bound on the items that are left behind a cursor. -/
def left (h : Heap) : Cursor → Nat
  | .list id index => (h.list id).size - index
  | .tuple rest => rest.length
  | .text rest => rest.length
  | .generator id => (h.generator id).left

/-- The cursor that a loop draws from. -/
def cursorOf (h : Heap) : Source → Cursor
  | .shared id => h.cursor id
  | .own c => c

/-- A generator that hands out a value is one of the heap, and stands where the resumption has left
it. -/
theorem generator_of_resume_eq_yielded {h h' : Heap} {id : GeneratorId} {x : Word}
    (hr : h.resume id = (.yielded x, h')) :
    ∃ g, (h.generator id).resume = (.yielded x, g) ∧ h'.generator id = g := by
  simp only [resume, Prod.mk.injEq] at hr
  obtain ⟨hx, rfl⟩ := hr
  refine ⟨_, Prod.ext hx rfl, ?_⟩
  by_cases hlt : id.index < h.generators.size
  · simp [generator, setGenerator, Array.getD_eq_getD_getElem?, hlt]
  · have hended : h.generator id = ⟨⟨0, 0, 0⟩, .exhausted⟩ := by
      simp [generator, Array.getD_eq_getD_getElem?, hlt]
    rw [hended] at hx
    cases hx

/-- To draw an item leaves fewer behind the cursor. -/
theorem left_lt_of_draw {h h' : Heap} {c c' : Cursor} {x : Value}
    (hd : h.draw c = (some x, c', h')) : h'.left c' < h.left c := by
  cases c with
  | list l index =>
    cases hi : (h.list l)[index]? with
    | none => simp [draw, hi] at hd
    | some y =>
      have hlt := (Array.getElem?_eq_some_iff.mp hi).1
      simp only [draw, hi, Prod.mk.injEq] at hd
      obtain ⟨-, rfl, rfl⟩ := hd
      simp only [left]
      omega
  | tuple rest =>
    cases rest with
    | nil => simp [draw] at hd
    | cons y rest =>
      simp only [draw, Prod.mk.injEq] at hd
      obtain ⟨-, rfl, rfl⟩ := hd
      exact Nat.lt_succ_self _
  | text rest =>
    cases rest with
    | nil => simp [draw] at hd
    | cons y rest =>
      simp only [draw, Prod.mk.injEq] at hd
      obtain ⟨-, rfl, rfl⟩ := hd
      exact Nat.lt_succ_self _
  | generator id =>
    cases hr : h.resume id with
    | mk result h₁ =>
      simp only [draw, hr, Prod.mk.injEq] at hd
      obtain ⟨hvalue, rfl, rfl⟩ := hd
      cases result with
      | yielded y =>
        obtain ⟨g, hg, hid⟩ := generator_of_resume_eq_yielded hr
        simp only [left, hid]
        exact Generator.left_lt_of_yielded hg
      | returned => simp [Generator.Resumption.value?] at hvalue
      | raised => simp [Generator.Resumption.value?] at hvalue

/-- An iterator that hands out an item is one of the heap, and stands where the draw has left it. -/
theorem cursor_advance {h h' : Heap} {id : IteratorId} {x : Value}
    (ha : h.advance id = (some x, h')) :
    ∃ c h₁, h.draw (h.cursor id) = (some x, c, h₁) ∧ h' = h₁.setCursor id c ∧
      h'.cursor id = c := by
  rw [advance_eq, Prod.mk.injEq] at ha
  obtain ⟨hx, rfl⟩ := ha
  refine ⟨_, _, Prod.ext hx rfl, rfl, ?_⟩
  by_cases hlt : id.index < h.cursors.size
  · simp [cursor, setCursor, Array.getD_eq_getD_getElem?, hlt]
  · have hdefault : h.cursor id = .tuple [] := by
      simp [cursor, Array.getD_eq_getD_getElem?, hlt, default]
    rw [hdefault] at hx
    cases hx

/-- To take an item leaves fewer for the loop. -/
theorem left_lt_of_takeFrom {h h' : Heap} {source source' : Source} {x : Value}
    (ht : h.takeFrom source = ((some x, source'), h')) :
    h'.left (h'.cursorOf source') < h.left (h.cursorOf source) := by
  cases source with
  | shared id =>
    cases ha : h.advance id with
    | mk y h₁ =>
      simp only [takeFrom, ha, Prod.mk.injEq] at ht
      obtain ⟨⟨rfl, rfl⟩, rfl⟩ := ht
      obtain ⟨c, h₂, hdraw, hmoved, hcursor⟩ := cursor_advance ha
      have hlt := left_lt_of_draw hdraw
      simp only [cursorOf, hcursor]
      rw [hmoved]
      exact hlt
  | own c =>
    simp only [takeFrom, Prod.mk.injEq] at ht
    obtain ⟨⟨hx, rfl⟩, rfl⟩ := ht
    exact left_lt_of_draw (Prod.ext hx rfl)

/-! ## Running dry -/

/-- Every source runs dry. -/
theorem exists_drained (h : Heap) (source : Source) : ∃ items h', h.Drained source items h' := by
  induction hn : h.left (h.cursorOf source) using Nat.strongRecOn generalizing h source with
  | ind n ih =>
    subst hn
    rcases ht : h.takeFrom source with ⟨⟨_ | x, source'⟩, h₁⟩
    · exact ⟨[], h₁, .ended ht⟩
    · obtain ⟨items, h', hrest⟩ := ih _ (left_lt_of_takeFrom ht) h₁ source' rfl
      exact ⟨x :: items, h', .item ht hrest⟩

/-- A sequence hands out what it has from the place of the cursor on, and is left as it is. -/
theorem drained_along (h : Heap) {v : Value} (hv : v.isSequence = true) (i : Nat) :
    h.Drained (.own (.along v i)) ((h.contents v).drop i) h := by
  generalize hrest : (h.contents v).drop i = rest
  induction rest generalizing i with
  | nil =>
    have hnone : (h.contents v)[i]? = none := by simpa using hrest
    have hended : h.takeFrom (.own (.along v i)) = ((none, .own (.along v i)), h) := by
      simp [takeFrom, draw_along h hv, hnone]
    exact .ended hended
  | cons x rest ih =>
    obtain ⟨hsome, hnext⟩ := getElem?_of_drop_eq_cons hrest
    have hitem : h.takeFrom (.own (.along v i)) = ((some x, .own (.along v (i + 1))), h) := by
      simp [takeFrom, draw_along h hv, hsome]
    exact .item hitem (ih (i + 1) hnext)

theorem lists_takeFrom (h : Heap) (source : Source) : (h.takeFrom source).2.lists = h.lists := by
  cases source with
  | shared id => exact h.lists_advance id
  | own c => exact h.lists_draw c

namespace Drained

variable {h h' : Heap} {source : Source} {items : List Value}

/-- To run a source dry changes no list. -/
theorem lists (hd : h.Drained source items h') : h'.lists = h.lists := by
  induction hd with
  | @ended h _ source _ hnone =>
    have hsame := h.lists_takeFrom source
    rw [hnone] at hsame
    exact hsame
  | @item h _ _ source _ _ _ hsome _ ih =>
    have hsame := h.lists_takeFrom source
    rw [hsome] at hsame
    rw [ih, hsame]

/-- A body that leaves the world alone is fed the items of a source that runs dry. Its results may
depend on the lists, which stay as they are. -/
theorem ends_loop {β : Type} {body : β → Value → Action β} {step : β → Value → β} {w : World}
    (hd : w.heap.Drained source items h') (hbody : ∀ w₁ : World, w₁.heap.lists = w.heap.lists →
      ∀ acc x, (body acc x).Ends w₁ (.ok (step acc x)) w₁)
    {fuel : Nat} (hfuel : items.length < fuel) (acc : β) :
    Action.Ends (Run.loop body source fuel acc) w (.ok (items.foldl step acc))
      { w with heap := h' } := by
  generalize hheap : w.heap = heap at hd
  induction hd generalizing w fuel acc with
  | ended hnone =>
    obtain ⟨fuel, rfl⟩ : ∃ n, fuel = n + 1 := ⟨fuel - 1, by omega⟩
    subst hheap
    apply Action.ends_loop_succ_iff.mpr
    simp [hnone]
  | @item _ h₁ _ source _ x items hsome _ ih =>
    obtain ⟨fuel, rfl⟩ : ∃ n, fuel = n + 1 := ⟨fuel - 1, by omega⟩
    subst hheap
    have hsame : h₁.lists = w.heap.lists := by
      have hlists := w.heap.lists_takeFrom source
      rw [hsome] at hlists
      exact hlists
    apply Action.ends_loop_succ_iff.mpr
    simp only [hsome]
    refine Action.ends_bind_iff.mpr (Or.inr ⟨_, _, hbody ⟨h₁, w.output⟩ hsame acc x, ?_⟩)
    have hshorter : items.length < fuel := Nat.lt_of_succ_lt_succ hfuel
    apply ih (w := ⟨h₁, w.output⟩) _ hshorter _ rfl
    intro w₁ hw₁ acc x
    exact hbody w₁ (hw₁.trans hsame) acc x

/-- So is one that a loop over a value feeds. -/
theorem ends_foldItems {β : Type} {body : β → Value → Action β} {step : β → Value → β} {v : Value}
    {w : World} (hof : Source.of v = .ok source) (hd : w.heap.Drained source items h')
    (hbody : ∀ w₁ : World, w₁.heap.lists = w.heap.lists →
      ∀ acc x, (body acc x).Ends w₁ (.ok (step acc x)) w₁)
    {fuel : Nat} (hfuel : items.length < fuel) (start : β) :
    (Action.foldItems fuel v start body).Ends w (.ok (items.foldl step start))
      { w with heap := h' } :=
  (Action.ends_ofExcept_bind_of_ok hof).mpr (hd.ends_loop hbody hfuel start)

/-- To collect a value that can be iterated over gives all that its source hands out. -/
theorem ends_collect {v : Value} {w : World} (hof : Source.of v = .ok source)
    (hd : w.heap.Drained source items h') {fuel : Nat} (hfuel : items.length < fuel) :
    (Action.collect fuel v).Ends w (.ok items.toArray) { w with heap := h' } := by
  have hbody : ∀ w₁ : World, w₁.heap.lists = w.heap.lists → ∀ (acc : Array Value) x,
      (pure (acc.push x) : Action (Array Value)).Ends w₁ (.ok (acc.push x)) w₁ :=
    fun w₁ _ acc x => Action.ends_pure_iff.mpr ⟨rfl, rfl⟩
  have hfold := ends_foldItems hof hd hbody hfuel #[]
  rw [List.foldl_push_eq_append', Array.empty_append] at hfold
  exact hfold

end Drained

end Heap

end Builtins
