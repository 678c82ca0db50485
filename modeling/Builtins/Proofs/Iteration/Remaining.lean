-- What is left for a consumer when some items have been taken one by one with `next`. An iterator and
-- a generator hand out what lies ahead of them, from the front, so the items that have been taken and
-- those that a consumer comes to afterwards are together the items that there were.
import Builtins.Proofs.Iteration.Consumers
import Builtins.Proofs.Iteration.Sums

namespace Builtins

open Builtins.Action

/-! ## Items taken one by one -/

/-- Whether what is done between two worlds takes nothing that lies ahead of an iterator, adds nothing
to it, and changes no list among some objects. -/
structure World.Spares (u : Value) (objects : List Value) (w w' : World) : Prop where
  leads : w.Leads w'
  ahead : ∀ source, Source.of u = .ok source →
    w'.heap.ahead (w'.heap.cursorOf source) = w.heap.ahead (w.heap.cursorOf source)
  lists : ∀ l, .list l ∈ objects → w'.heap.list l = w.heap.list l

/-- Items that calls of `next` give one by one. In between, others may do what spares the iterator and
some objects. -/
inductive Host.Takes (host : Host) (u : Value) (objects : List Value) :
    World → List Value → World → Prop
  | done (w : World) : Takes host u objects w [] w
  | next {w w₁ w' : World} {x : Value} {xs : List Value}
    (hnext : host.Ends w (.builtin .next) [u] (.ok x) w₁) (hrest : Takes host u objects w₁ xs w') :
    Takes host u objects w (x :: xs) w'
  | meanwhile {w w₁ w' : World} {xs : List Value} (hspares : w.Spares u objects w₁)
    (hrest : Takes host u objects w₁ xs w') : Takes host u objects w xs w'

namespace Heap

variable {h : Heap} {u x : Value} {source : Source}

/-- What `next` takes from an iterator or a generator is what a loop by it takes, and the loop goes by
the same afterwards. -/
theorem next_eq_takeFrom (hu : u.isIterator = true)
    (hof : Source.of u = .ok source) (h : Heap) :
    (h.takeFrom source).1.2 = source ∧
      h.next u = match (h.takeFrom source).1.1 with
        | some item => (.ok item, (h.takeFrom source).2)
        | none => (h.takeFrom source).2.raiseStop := by
  cases u with
  | generator id =>
    cases hof
    refine ⟨rfl, (h.resumeValue_eq id).trans ?_⟩
    simp only [takeFrom, draw]
    cases (h.resume id).1.value? <;> rfl
  | iterator it =>
    cases hof
    exact ⟨rfl, h.next_iterator_eq it⟩
  | _ => cases hu

/-- If `next` gives an item, that has been the first one ahead. -/
theorem ahead_of_next_ok (hu : u.isIterator = true)
    (hof : Source.of u = .ok source) (hnext : (h.next u).1 = .ok x) :
    (h.next u).2.Has source ∧
      h.ahead (h.cursorOf source) = x :: (h.next u).2.ahead ((h.next u).2.cursorOf source) ∧
      (h.next u).2.lists = h.lists := by
  obtain ⟨hsource, heq⟩ := next_eq_takeFrom hu hof h
  have hlists := h.lists_takeFrom source
  rcases ht : h.takeFrom source with ⟨⟨_ | y, source'⟩, h'⟩
  · rw [ht] at heq
    rw [heq] at hnext
    cases hnext
  · rw [ht] at heq hsource hlists
    obtain rfl : source' = source := hsource
    rw [heq] at hnext ⊢
    cases hnext
    exact ⟨has_of_takeFrom_some ht, ahead_of_takeFrom_some ht, hlists⟩

/-- If there is an item ahead, `next` gives it. -/
theorem next_of_ahead_eq_cons {items : List Value}
    (hu : u.isIterator = true) (hof : Source.of u = .ok source)
    (hcons : h.ahead (h.cursorOf source) = x :: items) : (h.next u).1 = .ok x := by
  obtain ⟨source', h', ht, -⟩ := takeFrom_of_ahead_eq_cons hcons
  rw [(next_eq_takeFrom hu hof h).2, ht]

end Heap

namespace Host.Takes

variable {host : Host} {u : Value} {objects xs : List Value} {w w' : World} {source : Source}

/-- The items that are taken one by one are the first ones ahead, and the others stay there. -/
theorem ahead_eq (htakes : host.Takes u objects w xs w')
    (hu : u.isIterator = true) (hof : Source.of u = .ok source)
    (hs : w.heap.Has source) :
    w'.heap.Has source ∧
      w.heap.ahead (w.heap.cursorOf source) = xs ++ w'.heap.ahead (w'.heap.cursorOf source) := by
  induction htakes with
  | done w => exact ⟨hs, rfl⟩
  | next hnext _ ih =>
    obtain ⟨hanswer, rfl⟩ := Host.ends_next_iff.mp hnext
    obtain ⟨hs₁, hfirst, -⟩ := Heap.ahead_of_next_ok hu hof hanswer.symm
    obtain ⟨hs', hrest⟩ := ih hs₁
    exact ⟨hs', by rw [hfirst, hrest, List.cons_append]⟩
  | meanwhile hspares _ ih =>
    obtain ⟨steps, hsteps⟩ := hspares.leads.heap
    obtain ⟨hs', hrest⟩ := ih (hsteps ▸ (hs.reaches_after steps).1)
    exact ⟨hs', by rw [← hspares.ahead source hof, hrest]⟩

/-- Lists among the objects stay as they are. -/
theorem list_eq (htakes : host.Takes u objects w xs w')
    (hu : u.isIterator = true) (hof : Source.of u = .ok source)
    {l : ListId} (hl : .list l ∈ objects) (hknown : l.index < w.heap.lists.size) :
    l.index < w'.heap.lists.size ∧ w'.heap.list l = w.heap.list l := by
  induction htakes with
  | done w => exact ⟨hknown, rfl⟩
  | next hnext _ ih =>
    obtain ⟨hanswer, rfl⟩ := Host.ends_next_iff.mp hnext
    obtain ⟨-, -, hlists⟩ := Heap.ahead_of_next_ok hu hof hanswer.symm
    obtain ⟨hknown', hsame⟩ := ih (by rwa [hlists])
    exact ⟨hknown', hsame.trans (Heap.list_eq_of_lists_eq hlists l)⟩
  | @meanwhile w _ _ _ hspares _ ih =>
    obtain ⟨steps, hsteps⟩ := hspares.leads.heap
    have hthere : w.heap.Has (.own (.list l 0)) := hknown
    obtain ⟨hknown', hsame⟩ := ih (hsteps ▸ (hthere.reaches_after steps).1)
    exact ⟨hknown', hsame.trans (hspares.lists l hl)⟩

theorem agrees (htakes : host.Takes u objects w xs w')
    (hu : u.isIterator = true) (hof : Source.of u = .ok source)
    (hknown : ∀ l, .list l ∈ objects → l.index < w.heap.lists.size) {x : Value} (hx : x ∈ objects) :
    w.heap.Agrees x w'.heap x := by
  cases x with
  | list l =>
    obtain ⟨hknown', hsame⟩ := htakes.list_eq hu hof hx (hknown l hx)
    exact ⟨hknown l hx, hknown', hsame.symm⟩
  | _ => rfl

/-- As long as there are items ahead, `next` gives them. -/
theorem exists_of_le (hu : u.isIterator = true)
    (hof : Source.of u = .ok source) {items : List Value}
    (hahead : w.heap.ahead (w.heap.cursorOf source) = items) {k : Nat} (hk : k ≤ items.length) :
    ∃ w', host.Takes u objects w (items.take k) w' := by
  induction items generalizing w k with
  | nil => exact ⟨w, by simpa using Host.Takes.done w⟩
  | cons x items ih =>
    cases k with
    | zero => exact ⟨w, .done w⟩
    | succ k =>
      have hnext := Heap.next_of_ahead_eq_cons hu hof hahead
      obtain ⟨-, hfirst, -⟩ := Heap.ahead_of_next_ok hu hof hnext
      have hrest := (List.cons.inj (hfirst.symm.trans hahead)).2
      obtain ⟨w', htakes⟩ := ih (w := ⟨(w.heap.next u).2, w.output⟩) hrest
        (Nat.le_of_succ_le_succ hk)
      exact ⟨w', .next (Host.ends_next_iff.mpr ⟨hnext.symm, rfl⟩) htakes⟩

end Host.Takes

/-! ## An iterator of a value -/

/-- What `iter` gives for a value: an iterator or a generator that has the items ahead. No list is
another then. -/
structure Host.Iterates (host : Host) (w : World) (v : Value) (items : List Value) (u : Value)
    (w' : World) (source : Source) : Prop where
  ends : host.Ends w (.builtin .iter) [v] (.ok u) w'
  isIterator : u.isIterator = true
  of : Source.of u = .ok source
  has : w'.heap.Has source
  ahead : w'.heap.ahead (w'.heap.cursorOf source) = items
  lists : w'.heap.lists = w.heap.lists

/-- To take an iterator of a value takes none of its items. -/
theorem Host.exists_iterates (host : Host) {w : World} {v : Value} {source : Source}
    (hw : w.heap.Closed) (hv : w.heap.Knows v) (hof : Source.of v = .ok source) :
    ∃ u w' source', host.Iterates w v (w.heap.ahead (w.heap.cursorOf source)) u w' source' := by
  have hhas := (hw.knows_cursorOf hv hof).1
  have hself : v.isIterator = true →
      host.Iterates w v (w.heap.ahead (w.heap.cursorOf source)) v w source :=
    fun hv => ⟨ends_iter_self hv, hv, hof, hhas, rfl, rfl⟩
  have hnew : v.isSequence = true → ∀ c, Cursor.start? v = some c → source = .own c →
      ∃ u w' source', host.Iterates w v (w.heap.ahead (w.heap.cursorOf source)) u w' source' := by
    rintro hseq c hstart rfl
    have hcursor : (w.heap.newIterator c).2.cursor ⟨w.heap.cursors.size⟩ = c := by
      simp [Heap.newIterator, Heap.cursor, Array.getD_eq_getD_getElem?]
    refine ⟨_, _, .shared ⟨w.heap.cursors.size⟩, ends_iter_of_start hw hseq hstart,
      rfl, rfl, ?_, ?_, ?_⟩ <;> simp only [World.room, hw.room_eq c]
    · refine ⟨by simp [Heap.newIterator], ?_⟩
      rw [hcursor]
      cases c <;> exact hhas
    · simp only [Heap.cursorOf, hcursor]
      cases c <;> rfl
    · rfl
  cases v with
  | generator id => exact ⟨_, _, _, hself rfl⟩
  | iterator it => exact ⟨_, _, _, hself rfl⟩
  | list id => exact hnew rfl _ rfl (Except.ok.inj hof).symm
  | tuple items => exact hnew rfl _ rfl (Except.ok.inj hof).symm
  | text s => exact hnew rfl _ rfl (Except.ok.inj hof).symm
  | _ => cases hof

/-! ## What is left for a consumer -/

namespace Consumer

variable {host : Host} {w w' : World} {u v start total : Value} {source : Source}

/-- All that lies ahead is collected. -/
theorem exists_ends_collect (host : Host) (hof : Source.of u = .ok source) :
    ∃ w', collect.Ends host w u (.ok (.tuple (w.heap.ahead (w.heap.cursorOf source)))) w' := by
  obtain ⟨items, h', hd⟩ := w.heap.exists_drained source
  rw [← hd.items_eq]
  exact ⟨⟨h', w.output⟩, _, _, hd.ends_collect hof (Nat.lt_succ_self _), rfl⟩

/-- A sum over what lies ahead. -/
theorem exists_ends_sum (host : Host) {g : Heap} {items : List Value} (hof : Source.of u = .ok source)
    (hahead : w.heap.ahead (w.heap.cursorOf source) = items) (hstart : g.Agrees total w.heap start)
    (hitems : ∀ x ∈ items, g.Agrees x w.heap x) :
    ∃ answer w', (sum start).Ends host w u answer w' ∧
      (g.addAll total items).2.AnswersAgree w'.heap (g.addAll total items).1 answer := by
  obtain ⟨fuel, answer, w', hends, hagree⟩ := exists_ends_addLoop hahead hstart hitems
  refine ⟨answer, w', (ends_iff_run (.sum start)).mpr ⟨fuel, ?_⟩, hagree⟩
  simp only [run, Builtin.sumItems, foldItems_of_ok hof]
  exact hends

theorem ends_sum_tuple (items : List Value) :
    (sum start).Ends host w (.tuple items) (w.heap.addAll start items).1
      ⟨(w.heap.addAll start items).2, w.output⟩ := by
  obtain ⟨fuel, hends⟩ := exists_ends_addLoop_tuple items start w
  exact (ends_iff_run (.sum start)).mpr ⟨fuel, hends⟩

/-- A sum that goes on, from what the items taken so far come to, comes to what all items come to. -/
theorem exists_ends_sum_of_takes {items xs : List Value} {w₀ w₁ : World} {s : Value}
    {source' : Source} (hof : Source.of v = .ok source)
    (hitems : w.heap.ahead (w.heap.cursorOf source) = items)
    (hknown : ∀ l, .list l ∈ start :: items → l.index < w.heap.lists.size)
    (hiter : host.Iterates w v items u w₀ source')
    (htakes : host.Takes u (start :: items) w₀ xs w')
    (hfold : (sum start).Ends host w' (.tuple xs) (.ok s) w₁) :
    ∃ answer whole w₂ w₃, (sum s).Ends host w₁ u answer w₂ ∧
      (sum start).Ends host w v whole w₃ ∧ w₂.heap.AnswersAgree w₃.heap answer whole := by
  obtain ⟨hs', hsplit⟩ := htakes.ahead_eq hiter.isIterator hiter.of hiter.has
  rw [hiter.ahead] at hsplit
  -- The objects are in the end what they were at first.
  have hagree : ∀ x ∈ start :: items, w.heap.Agrees x w'.heap x := by
    intro x hx
    have hlater := htakes.agrees hiter.isIterator hiter.of (by rwa [hiter.lists]) hx
    exact hlater.extends (Heap.extends_of_lists_eq hiter.lists.symm) w'.heap.extends_refl
  obtain ⟨rest, hrest⟩ : ∃ rest, w'.heap.ahead (w'.heap.cursorOf source') = rest := ⟨_, rfl⟩
  rw [hrest] at hsplit
  have hxs : ∀ x ∈ xs, x ∈ start :: items := by
    intro x hx
    rw [hsplit]
    exact List.mem_cons_of_mem start (List.mem_append_left rest hx)
  have hrest' : ∀ x ∈ rest, x ∈ start :: items := by
    intro x hx
    rw [hsplit]
    exact List.mem_cons_of_mem start (List.mem_append_right xs hx)
  -- The first items come to what they would have come to at first.
  obtain ⟨hs, rfl⟩ := Host.Ends.unique hfold (ends_sum_tuple xs)
  have hfirst : (w.heap.addAll start xs).2.AnswersAgree (w'.heap.addAll start xs).2
      (w.heap.addAll start xs).1 (w'.heap.addAll start xs).1 :=
    Heap.addAll_agrees (hagree start List.mem_cons_self) fun x hx => hagree x (hxs x hx)
  have hg := w.heap.extends_addAll start xs
  have hw' := w'.heap.extends_addAll start xs
  obtain ⟨-, hahead⟩ := Heap.ahead_addAll hs' start xs
  have happend := w.heap.addAll_append start xs rest
  rw [← hs] at hfirst
  rcases hadd : w.heap.addAll start xs with ⟨fault | total, g⟩ <;> rw [hadd] at hfirst hg happend
  · cases hfirst
  · cases hfirst with
    | ok htotal =>
      obtain ⟨answer, w₂, hends, hanswer⟩ := exists_ends_sum host hiter.of
        (w := ⟨(w'.heap.addAll start xs).2, w'.output⟩) (hahead.trans hrest) htotal
        fun x hx => (hagree x (hrest' x hx)).extends hg hw'
      obtain ⟨whole, w₃, hwhole, hsame⟩ := exists_ends_sum host hof hitems
        (Heap.agrees_refl fun l hl => hknown l (hl ▸ List.mem_cons_self))
        fun x hx => Heap.agrees_refl fun l hl => hknown l (hl ▸ List.mem_cons_of_mem start hx)
      rw [hsplit, happend] at hsame
      exact ⟨answer, whole, w₂, w₃, hends, hwhole, hanswer.common hsame⟩

end Consumer

end Builtins
