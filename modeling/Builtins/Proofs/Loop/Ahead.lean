-- What lies ahead of a loop: the items that it would take from here on if nothing else were done.
-- Whatever is done meanwhile, a tuple, a text and a generator only lose items, from the front. A
-- list may get more, but the place of the loop in it only moves on.
import Builtins.Proofs.Generator.Resumptions
import Builtins.Proofs.Heap.Progress
import Builtins.Proofs.Loop.Drained

namespace Builtins

/-! ## Generators -/

namespace Generator

/-- The values that a generator hands out from now on. -/
def ahead (g : Generator) : List Word := (g.take g.left).1

/-- To take more values than there are left makes no difference. -/
theorem take_eq_of_left_le {g : Generator} {n m : Nat} (hn : g.left ≤ n) (hm : g.left ≤ m) :
    (g.take n).1 = (g.take m).1 := by
  induction n generalizing g m with
  | zero =>
    cases m with
    | zero => rfl
    | succ m =>
      unfold take
      rcases hr : g.resume with ⟨x | _ | _, g'⟩
      · have hlt := left_lt_of_yielded hr
        omega
      · rfl
      · rfl
  | succ n ih =>
    unfold take
    rcases hr : g.resume with ⟨x | _ | _, g'⟩
    · have hlt := left_lt_of_yielded hr
      obtain ⟨m, rfl⟩ : ∃ k, m = k + 1 := ⟨m - 1, by omega⟩
      change x :: (g'.take n).1 = x :: (g'.take m).1
      rw [ih (show g'.left ≤ n by omega) (show g'.left ≤ m by omega)]
    · cases m <;> simp
    · cases m <;> simp

theorem ahead_of_yielded {g g' : Generator} {x : Word} (h : g.resume = (.yielded x, g')) :
    g.ahead = x :: g'.ahead := by
  have hlt := left_lt_of_yielded h
  obtain ⟨n, hn⟩ : ∃ n, g.left = n + 1 := ⟨g.left - 1, by omega⟩
  unfold ahead
  rw [hn, take]
  simp only [h]
  rw [take_eq_of_left_le (show g'.left ≤ n by omega) (Nat.le_refl g'.left)]

theorem ahead_of_value?_eq_none {g : Generator} (h : g.resume.1.value? = none) : g.ahead = [] := by
  unfold ahead
  cases g.left with
  | zero => rfl
  | succ n =>
    unfold take
    rcases hr : g.resume with ⟨x | _ | _, g'⟩
    · simp [hr, Resumption.value?] at h
    · rfl
    · rfl

/-- A body that hands out nothing is over. -/
theorem stage_resume_of_value?_eq_none {g : Generator} (h : g.resume.1.value? = none) :
    g.resume.2.stage = .exhausted := by
  obtain ⟨p, stage⟩ := g
  cases stage with
  | created => cases hf : p.first? <;> simp_all [resume, proceed, Resumption.value?]
  | suspended last => cases hn : p.next? last <;> simp_all [resume, proceed, Resumption.value?]
  | exhausted => rfl

theorem ahead_of_exhausted {g : Generator} (h : g.stage = .exhausted) : g.ahead = [] := by
  apply ahead_of_value?_eq_none
  simp [resume, h, Resumption.value?]

/-- A resumption takes the first value, if there is any. -/
theorem ahead_resume (g : Generator) : g.resume.2.ahead = g.ahead.tail := by
  cases hv : g.resume.1.value? with
  | none => rw [ahead_of_exhausted (stage_resume_of_value?_eq_none hv), ahead_of_value?_eq_none hv]; rfl
  | some x =>
    rcases hr : g.resume with ⟨y | _ | _, g'⟩
    · rw [ahead_of_yielded hr]
      rfl
    · simp [hr, Resumption.value?] at hv
    · simp [hr, Resumption.value?] at hv

end Generator

/-- After `k` resumptions the first `k` values have been handed out. -/
theorem Progression.ahead_after (p : Progression) (k : Nat) :
    (p.after k).ahead = p.values.drop k := by
  induction hn : p.values.length - k generalizing k with
  | zero =>
    have hlen : p.values.length ≤ k := by omega
    have hover : (p.after k).resume.1.value? = none := by
      rw [resume_after, value?_resumption, List.getElem?_eq_none hlen]
    rw [Generator.ahead_of_value?_eq_none hover, List.drop_eq_nil_of_le hlen]
  | succ n ih =>
    have hlt : k < p.values.length := by omega
    have hyields : (p.after k).resume = (.yielded p.values[k], p.after (k + 1)) := by
      rw [resume_after, (p.resumption_eq_yielded_iff k _).mpr (List.getElem?_eq_getElem hlt)]
    rw [Generator.ahead_of_yielded hyields, ih (k + 1) (by omega), ← List.drop_eq_getElem_cons hlt]

/-! ## Cursors and sources -/

namespace Heap

/-- The items that a cursor has ahead of it. -/
def ahead (h : Heap) : Cursor → List Value
  | .list id index => (h.list id).toList.drop index
  | .tuple rest => rest
  | .text rest => rest.map fun c => .text (String.singleton c)
  | .generator id => (h.generator id).ahead.map .int

variable {h h' : Heap}

/-- To draw from a cursor takes the first item ahead of it. -/
theorem ahead_of_draw_some {c c' : Cursor} {x : Value} (hd : h.draw c = (some x, c', h')) :
    h.ahead c = x :: h'.ahead c' := by
  cases c with
  | list l index =>
    cases hi : (h.list l)[index]? with
    | none => simp [draw, hi] at hd
    | some y =>
      simp only [draw, hi, Prod.mk.injEq, Option.some.injEq] at hd
      obtain ⟨rfl, rfl, rfl⟩ := hd
      obtain ⟨hlt, hy⟩ := Array.getElem?_eq_some_iff.mp hi
      have hlength : index < (h.list l).toList.length := by rwa [Array.length_toList]
      simp only [ahead]
      rw [List.drop_eq_getElem_cons hlength, Array.getElem_toList, hy]
  | tuple rest =>
    cases rest with
    | nil => simp [draw] at hd
    | cons y rest =>
      simp only [draw, Prod.mk.injEq, Option.some.injEq] at hd
      obtain ⟨rfl, rfl, rfl⟩ := hd
      rfl
  | text rest =>
    cases rest with
    | nil => simp [draw] at hd
    | cons y rest =>
      simp only [draw, Prod.mk.injEq, Option.some.injEq] at hd
      obtain ⟨rfl, rfl, rfl⟩ := hd
      rfl
  | generator id =>
    rcases hr : h.resume id with ⟨y | _ | _, h₁⟩
    · simp only [draw, hr, Prod.mk.injEq, Generator.Resumption.value?, Option.map_some,
        Option.some.injEq] at hd
      obtain ⟨rfl, rfl, rfl⟩ := hd
      obtain ⟨g, hg, hid⟩ := generator_of_resume_eq_yielded hr
      simp only [ahead, hid, Generator.ahead_of_yielded hg, List.map_cons]
    · simp [draw, hr, Generator.Resumption.value?] at hd
    · simp [draw, hr, Generator.Resumption.value?] at hd

/-- At the end there is nothing ahead. -/
theorem ahead_of_draw_none {c c' : Cursor} (hd : h.draw c = (none, c', h')) : h.ahead c = [] := by
  cases c with
  | list l index =>
    cases hi : (h.list l)[index]? with
    | none => simpa [ahead] using hi
    | some y => simp [draw, hi] at hd
  | tuple rest =>
    cases rest with
    | nil => rfl
    | cons y rest => simp [draw] at hd
  | text rest =>
    cases rest with
    | nil => rfl
    | cons y rest => simp [draw] at hd
  | generator id =>
    have hnone : (h.generator id).resume.1.value? = none := by
      simpa [draw, resume] using congrArg Prod.fst hd
    simp only [ahead, Generator.ahead_of_value?_eq_none hnone, List.map_nil]

theorem ahead_of_takeFrom_some {source source' : Source} {x : Value}
    (ht : h.takeFrom source = ((some x, source'), h')) :
    h.ahead (h.cursorOf source) = x :: h'.ahead (h'.cursorOf source') := by
  cases source with
  | shared id =>
    simp only [takeFrom, Prod.mk.injEq] at ht
    obtain ⟨⟨hitem, rfl⟩, rfl⟩ := ht
    obtain ⟨c, h₁, hdraw, hmoved, hcursor⟩ := cursor_advance (Prod.ext hitem rfl)
    have hsame : (h.advance id).2.ahead c = h₁.ahead c :=
      (congrArg (·.ahead c) hmoved).trans (by cases c <;> rfl)
    simp only [cursorOf, hcursor]
    rw [ahead_of_draw_some hdraw, hsame]
  | own c =>
    simp only [takeFrom, Prod.mk.injEq] at ht
    obtain ⟨⟨hitem, rfl⟩, rfl⟩ := ht
    exact ahead_of_draw_some (Prod.ext hitem rfl)

theorem ahead_of_takeFrom_none {source source' : Source}
    (ht : h.takeFrom source = ((none, source'), h')) : h.ahead (h.cursorOf source) = [] := by
  cases source with
  | shared id =>
    simp only [takeFrom, advance_eq, Prod.mk.injEq] at ht
    exact ahead_of_draw_none (Prod.ext ht.1.1 rfl)
  | own c =>
    simp only [takeFrom, Prod.mk.injEq] at ht
    exact ahead_of_draw_none (Prod.ext ht.1.1 rfl)

/-- A source that is run dry hands out what lies ahead. -/
theorem Drained.items_eq {source : Source} {items : List Value} (hd : h.Drained source items h') :
    items = h.ahead (h.cursorOf source) := by
  induction hd with
  | ended hnone => exact (ahead_of_takeFrom_none hnone).symm
  | item hsome _ ih => rw [ahead_of_takeFrom_some hsome, ih]

/-! ## Whatever is done meanwhile -/

/-- The generator that is resumed moves on, if it is there or not. -/
theorem generator_resume (h : Heap) (g : GeneratorId) :
    (h.resume g).2.generator g = (h.generator g).resume.2 := by
  by_cases hlt : g.index < h.generators.size
  · simp [resume, generator, setGenerator, Array.getD_eq_getD_getElem?, hlt]
  · have hnone : h.generators[g.index]? = none := Array.getElem?_eq_none (by omega)
    simp [resume, generator, setGenerator, Array.getD_eq_getD_getElem?, hnone, Generator.resume]

/-- To draw takes the first item, if there is any. -/
theorem ahead_draw (h : Heap) (c : Cursor) :
    (h.draw c).2.2.ahead (h.draw c).2.1 = (h.ahead c).tail := by
  cases c with
  | list l index =>
    cases hi : (h.list l)[index]? with
    | none =>
      have hnil : (h.list l).toList.drop index = [] := by simpa using hi
      simp only [draw, hi, ahead, hnil, List.tail_nil]
    | some y => simp [draw, hi, ahead]
  | tuple rest => cases rest <;> rfl
  | text rest => cases rest <;> rfl
  | generator g =>
    change ((h.resume g).2.generator g).ahead.map Value.int = _
    rw [generator_resume, Generator.ahead_resume, List.map_tail]
    rfl

/-- Whether what a cursor goes over is there. -/
def HasCursor (h : Heap) : Cursor → Prop
  | .list id _ => id.index < h.lists.size
  | .generator id => id.index < h.generators.size
  | .tuple _ | .text _ => True

/-- Whether what a loop goes by is there, and what that goes over. -/
def Has (h : Heap) : Source → Prop
  | .shared id => id.index < h.cursors.size ∧ h.HasCursor (h.cursor id)
  | .own c => h.HasCursor c

theorem HasCursor.reaches {c c' : Cursor} (hc : h.HasCursor c) (hreaches : c.Reaches c') :
    h.HasCursor c' := by
  cases c <;> cases c' <;> simp only [Cursor.Reaches] at hreaches
  · exact hreaches.1 ▸ hc
  · trivial
  · trivial
  · exact hreaches ▸ hc

/-- Steps take nothing away. -/
theorem HasCursor.perform {c : Cursor} (hc : h.HasCursor c) (s : Step) :
    (s.perform h).2.HasCursor c := by
  cases c with
  | list id index =>
    unfold HasCursor at hc ⊢
    rcases h.lists_perform s with ⟨l, item, -, he⟩ | ⟨-, he | ⟨items, he⟩⟩ <;> rw [he]
    · simpa [append] using hc
    · exact hc
    · rw [Array.size_push]; omega
  | generator id =>
    have hg := Array.getElem?_eq_getElem hc
    obtain ⟨g, hg', -⟩ := generator_reaches_perform hg s
    exact (Array.getElem?_eq_some_iff.mp hg').1
  | tuple rest => trivial
  | text rest => trivial

/-- What an item is drawn from is there. -/
theorem hasCursor_of_draw_some {c c' : Cursor} {x : Value} (hd : h.draw c = (some x, c', h')) :
    h'.HasCursor c' := by
  cases c with
  | list l index =>
    cases hi : (h.list l)[index]? with
    | none => simp [draw, hi] at hd
    | some y =>
      simp only [draw, hi, Prod.mk.injEq] at hd
      obtain ⟨-, rfl, rfl⟩ := hd
      by_cases hlt : l.index < h.lists.size
      · exact hlt
      · simp [list, Array.getD_eq_getD_getElem?, hlt] at hi
  | tuple rest =>
    cases rest with
    | nil => cases hd
    | cons => cases hd; trivial
  | text rest =>
    cases rest with
    | nil => cases hd
    | cons => cases hd; trivial
  | generator g =>
    simp only [draw, resume, Prod.mk.injEq] at hd
    obtain ⟨hx, rfl, rfl⟩ := hd
    by_cases hlt : g.index < h.generators.size
    · simpa [HasCursor, setGenerator] using hlt
    · have hover : h.generator g = ⟨⟨0, 0, 0⟩, .exhausted⟩ := by
        simp [generator, Array.getD_eq_getD_getElem?, hlt]
      rw [hover] at hx
      cases hx

/-- What a loop has taken an item from is there. -/
theorem has_of_takeFrom_some {source source' : Source} {x : Value}
    (ht : h.takeFrom source = ((some x, source'), h')) : h'.Has source' := by
  cases source with
  | own c =>
    simp only [takeFrom, Prod.mk.injEq] at ht
    obtain ⟨⟨hx, rfl⟩, rfl⟩ := ht
    exact hasCursor_of_draw_some (Prod.ext hx rfl)
  | shared id =>
    simp only [takeFrom, Prod.mk.injEq] at ht
    obtain ⟨⟨hx, rfl⟩, rfl⟩ := ht
    obtain ⟨c, h₁, hdraw, hmoved, hcursor⟩ := cursor_advance (Prod.ext hx rfl)
    have hsize : (h.advance id).2.cursors.size = h.cursors.size := by
      rw [cursors_advance, Array.size_setIfInBounds]
    constructor
    · rw [hsize]
      by_cases hlt : id.index < h.cursors.size
      · exact hlt
      · have hnone : h.cursor id = .tuple [] := by
          simp [cursor, Array.getD_eq_getD_getElem?, hlt, default]
        rw [hnone] at hdraw
        cases hdraw
    · rw [hcursor]
      have hc := hasCursor_of_draw_some hdraw
      have hsame : (h₁.setCursor id c).HasCursor c := by cases c <;> exact hc
      exact (congrArg (·.HasCursor c) hmoved).mpr hsame

/-- Whatever is done, what a loop goes by stays and only moves on. -/
theorem Has.reaches_perform {source : Source} (hs : h.Has source) (s : Step) :
    (s.perform h).2.Has source ∧
      (h.cursorOf source).Reaches ((s.perform h).2.cursorOf source) := by
  cases source with
  | own c => exact ⟨HasCursor.perform hs s, c.reaches_refl⟩
  | shared id =>
    obtain ⟨hlt, hc⟩ := hs
    have hget : h.cursors[id.index]? = some (h.cursor id) := by
      simp [cursor, Array.getD_eq_getD_getElem?, hlt]
    obtain ⟨c', hget', hreaches⟩ := cursor_reaches_perform hget s
    have hc' : (s.perform h).2.cursor id = c' := cursor_eq_of_getElem? hget'
    refine ⟨⟨(Array.getElem?_eq_some_iff.mp hget').1, ?_⟩, ?_⟩
    · rw [hc']
      exact (hc.perform s).reaches hreaches
    · simpa only [cursorOf, hc'] using hreaches

theorem Has.reaches_after {source : Source} (hs : h.Has source) (steps : List Step) :
    (h.after steps).Has source ∧ (h.cursorOf source).Reaches ((h.after steps).cursorOf source) := by
  induction steps generalizing h with
  | nil => exact ⟨hs, Cursor.reaches_refl _⟩
  | cons s steps ih =>
    obtain ⟨hs₁, hreaches₁⟩ := hs.reaches_perform s
    obtain ⟨hs', hreaches⟩ := ih hs₁
    exact ⟨hs', hreaches₁.trans hreaches⟩

end Heap

theorem Cursor.eq_list {c : Cursor} (hc : c.kind = .list) : ∃ l i, c = .list l i := by
  cases c with
  | list l i => exact ⟨l, i, rfl⟩
  | _ => cases hc

theorem Cursor.Reaches.kind_eq {c c' : Cursor} (hreaches : c.Reaches c') : c'.kind = c.kind := by
  cases c <;> cases c' <;> first | rfl | exact hreaches.elim

namespace Heap

variable {h h' : Heap}

/-- A loop that has taken an item goes by what its cursor has become. -/
theorem cursorOf_takeFrom_some {source source' : Source} {x : Value}
    (ht : h.takeFrom source = ((some x, source'), h')) :
    h'.cursorOf source' = (h.draw (h.cursorOf source)).2.1 := by
  cases source with
  | shared id =>
    simp only [takeFrom, Prod.mk.injEq] at ht
    obtain ⟨⟨hx, rfl⟩, rfl⟩ := ht
    obtain ⟨c, h₁, hdraw, -, hcursor⟩ := cursor_advance (Prod.ext hx rfl)
    simp only [cursorOf, hcursor, hdraw]
  | own c =>
    simp only [takeFrom, Prod.mk.injEq] at ht
    obtain ⟨⟨-, rfl⟩, rfl⟩ := ht
    rfl

/-- A loop keeps to the kind of thing that it goes over. -/
theorem kind_of_takeFrom_some {source source' : Source} {x : Value}
    (ht : h.takeFrom source = ((some x, source'), h')) :
    (h'.cursorOf source').kind = (h.cursorOf source).kind := by
  rw [cursorOf_takeFrom_some ht]
  exact (Cursor.reaches_draw h _).kind_eq

/-- A loop over a list takes the item at its place, and goes on to the next. -/
theorem takeFrom_some_of_list {source source' : Source} {x : Value} {l : ListId} {i : Nat}
    (ht : h.takeFrom source = ((some x, source'), h')) (hc : h.cursorOf source = .list l i) :
    i < (h.list l).size ∧ h'.cursorOf source' = .list l (i + 1) := by
  have hitem := ahead_of_takeFrom_some ht
  rw [hc] at hitem
  have hlt : i < (h.list l).size := by
    apply Nat.lt_of_not_le
    intro hge
    have hnil : (h.list l).toList.drop i = [] := List.drop_eq_nil_of_le (by simpa using hge)
    rw [ahead, hnil] at hitem
    cases hitem
  refine ⟨hlt, ?_⟩
  rw [cursorOf_takeFrom_some ht, hc]
  simp [draw, hlt]

/-- A step resumes a generator that is there, or leaves it alone. -/
theorem generator_perform {g : GeneratorId} (hg : g.index < h.generators.size) (s : Step) :
    (s.perform h).2.generator g = h.generator g ∨
      (s.perform h).2.generator g = (h.generator g).resume.2 := by
  unfold generator
  rw [generators_perform]
  split
  · left
    simp [Array.getD_eq_getD_getElem?, Array.getElem?_push, Nat.ne_of_lt hg]
  · cases s.generator? h with
    | none => exact Or.inl rfl
    | some other =>
      by_cases he : other.index = g.index
      · right
        obtain rfl : other = g := by cases other; cases g; exact congrArg GeneratorId.mk he
        simp [generator, Array.getD_eq_getD_getElem?, hg]
      · left
        simp [Array.getD_eq_getD_getElem?, Array.getElem?_setIfInBounds_ne he]

/-- What lies ahead of a cursor that goes over no list hangs on the generators alone. -/
theorem ahead_eq_of_generators_eq {c : Cursor} (hc : c.kind ≠ .list)
    (he : h'.generators = h.generators) : h'.ahead c = h.ahead c := by
  cases c with
  | list id index => exact absurd rfl hc
  | tuple rest => rfl
  | text rest => rfl
  | generator g => simp only [ahead, generator, he]

/-- A step takes nothing from a cursor but from the front. -/
theorem ahead_suffix_perform {c : Cursor} (hc : h.HasCursor c) (hkind : c.kind ≠ .list) (s : Step) :
    (s.perform h).2.ahead c <:+ h.ahead c := by
  cases c with
  | list id index => exact absurd rfl hkind
  | tuple rest => exact List.suffix_rfl
  | text rest => exact List.suffix_rfl
  | generator g =>
    simp only [ahead]
    rcases generator_perform hc s with he | he
    · simp [he]
    · rw [he, Generator.ahead_resume, List.map_tail]
      exact List.tail_suffix _

/-- A step that moves an iterator on does to the generators what its cursor does. -/
theorem generators_perform_of_iterator? {s : Step} {id : IteratorId}
    (hs : s.iterator? = some id) :
    (s.perform h).2.generators = (h.draw (h.cursor id)).2.2.generators := by
  have hne : ∀ p, s ≠ .newGenerator p := by
    rintro p rfl
    cases hs
  have hresumed : s.generator? h = (h.cursor id).generator? := by
    unfold Step.generator?
    split
    · cases hs
    · cases hs
    · cases hs
    · rw [hs, Option.bind_some]
  rw [generators_perform, generators_draw, ← hresumed]
  split
  · exact absurd rfl (hne _)
  · rfl

/-- Nor does it from what a loop goes by. -/
theorem Has.ahead_suffix_perform {source : Source} (hs : h.Has source)
    (hkind : (h.cursorOf source).kind ≠ .list) (s : Step) :
    (s.perform h).2.ahead ((s.perform h).2.cursorOf source) <:+ h.ahead (h.cursorOf source) := by
  cases source with
  | own c => exact Heap.ahead_suffix_perform hs hkind s
  | shared id =>
    obtain ⟨hlt, hc⟩ := hs
    have hget : h.cursors[id.index]? = some (h.cursor id) := by
      simp [cursor, Array.getD_eq_getD_getElem?, hlt]
    have hnext := cursor_eq_of_getElem? (getElem?_cursors_perform hget s)
    simp only [cursorOf]
    rw [hnext]
    by_cases hs : s.iterator? = some id
    · -- The step has drawn from the iterator itself.
      rw [if_pos hs]
      have hgenerators := generators_perform_of_iterator? (h := h) hs
      have hmoved : (h.draw (h.cursor id)).2.1.kind ≠ .list := by
        rwa [((h.cursor id).reaches_draw h).kind_eq]
      rw [ahead_eq_of_generators_eq hmoved hgenerators, ahead_draw]
      exact List.tail_suffix _
    · rw [if_neg hs]
      exact Heap.ahead_suffix_perform hc hkind s

theorem Has.ahead_suffix_after {source : Source} (hs : h.Has source)
    (hkind : (h.cursorOf source).kind ≠ .list) (steps : List Step) :
    (h.after steps).ahead ((h.after steps).cursorOf source) <:+ h.ahead (h.cursorOf source) := by
  induction steps generalizing h with
  | nil => exact List.suffix_rfl
  | cons s steps ih =>
    obtain ⟨hs₁, hreaches⟩ := hs.reaches_perform s
    have hkind₁ : ((s.perform h).2.cursorOf source).kind ≠ .list := by rwa [hreaches.kind_eq]
    exact (ih hs₁ hkind₁).trans (hs.ahead_suffix_perform hkind s)

end Heap

end Builtins
