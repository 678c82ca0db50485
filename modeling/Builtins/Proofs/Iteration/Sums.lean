-- Sums of items from the left. What they come to hangs on the items and on what is in the lists among
-- them, and a sum can be broken off after any item and taken up again from what it has come to.
import Builtins.Proofs.Loop.Ahead
import Builtins.Proofs.Snapshot.Acyclic

namespace Builtins

open Builtins.Action

namespace Heap

/-- What items come to that are added, from the left, onto a first summand. -/
def addAll (h : Heap) (total : Value) : List Value → Except Fault Value × Heap
  | [] => (.ok total, h)
  | item :: items =>
    match h.add total item with
    | (.ok total, h) => h.addAll total items
    | (.error fault, h) => (.error fault, h)

/-- Whether a value of one heap is the same as a value of another, or both are lists of the same
items. -/
def Agrees (h : Heap) (a : Value) (h' : Heap) (b : Value) : Prop :=
  match a, b with
  | .list l, .list m => l.index < h.lists.size ∧ m.index < h'.lists.size ∧ h.list l = h'.list m
  | a, b => a = b

/-- Whether two answers are the same fault, or results that agree. -/
inductive AnswersAgree (h h' : Heap) : Except Fault Value → Except Fault Value → Prop
  | ok {a b : Value} (hab : h.Agrees a h' b) : AnswersAgree h h' (.ok a) (.ok b)
  | error (fault : Fault) : AnswersAgree h h' (.error fault) (.error fault)

variable {h h' g g' : Heap} {a b x : Value}

/-! ## One sum -/

theorem agrees_of_ne_list (ha : ∀ l, a ≠ .list l) : h.Agrees a h' b ↔ a = b := by
  cases a with
  | list l => exact absurd rfl (ha l)
  | _ => exact Iff.rfl

theorem Agrees.extends (hab : h.Agrees a g b) (hh : h.Extends h') (hg : g.Extends g') :
    h'.Agrees a g' b := by
  cases a with
  | list l =>
    cases b with
    | list m =>
      obtain ⟨hl, hm, hsame⟩ := hab
      refine ⟨Nat.lt_of_lt_of_le hl hh.known, Nat.lt_of_lt_of_le hm hg.known, ?_⟩
      rw [hh.list l hl, hg.list m hm, hsame]
    | _ => exact hab
  | _ => exact hab

theorem Agrees.exists_list {l : ListId} (hab : h.Agrees (.list l) h' b) : ∃ m, b = .list m := by
  cases b with
  | list m => exact ⟨m, rfl⟩
  | _ => cases hab

theorem agrees_refl (hx : ∀ l, x = .list l → l.index < h.lists.size) : h.Agrees x h x := by
  cases x with
  | list l => exact ⟨hx l rfl, hx l rfl, rfl⟩
  | _ => rfl

/-- What agrees with one value agrees with each other. -/
theorem Agrees.common {c : Value} (hab : g.Agrees a h b) (hac : g.Agrees a h' c) :
    h.Agrees b h' c := by
  cases a with
  | list l =>
    obtain ⟨m, rfl⟩ := hab.exists_list
    obtain ⟨k, rfl⟩ := hac.exists_list
    exact ⟨hab.2.1, hac.2.1, hab.2.2.symm.trans hac.2.2⟩
  | _ =>
    subst hab
    exact hac

theorem AnswersAgree.common {answer answer₁ answer₂ : Except Fault Value}
    (h₁ : g.AnswersAgree h answer answer₁) (h₂ : g.AnswersAgree h' answer answer₂) :
    h.AnswersAgree h' answer₁ answer₂ := by
  cases h₁ with
  | ok hab =>
    cases h₂ with
    | ok hac => exact .ok (hab.common hac)
  | error fault =>
    cases h₂
    exact .error fault

theorem extends_add (h : Heap) (a b : Value) : h.Extends (h.add a b).2 := by
  rcases h.add_eq a b with he | ⟨items, he⟩
  · rw [he]
    exact h.extends_refl
  · rw [he]
    exact h.extends_newList items

theorem index_newList_lt (h : Heap) (items : Array Value) :
    (h.newList items).1.index < (h.newList items).2.lists.size := by
  simp [newList]

theorem add_list_left {l : ListId} (hx : ∀ m, x ≠ .list m) :
    h.add (.list l) x = (.error (.operands "+" "list" x.typeName), h) := by
  cases x with
  | list m => exact absurd rfl (hx m)
  | _ => rfl

theorem add_list_right {m : ListId} (ha : ∀ l, a ≠ .list l) :
    h.add a (.list m) = (.error (.operands "+" a.typeName "list"), h) := by
  cases a with
  | list l => exact absurd rfl (ha l)
  | _ => rfl

theorem ne_list_of_addWords {v : Value} (hsum : Value.addWords a b = .ok v) (l : ListId) :
    v ≠ .list l := by
  unfold Value.addWords at hsum
  split at hsum
  · split at hsum
    · cases hsum
      simp
    · cases hsum
  · cases hsum

/-- A sum without a list has nothing to do with the heap, and gives none. -/
theorem add_of_ne_list (ha : ∀ l, a ≠ .list l) : ∃ answer,
    (∀ h : Heap, h.add a x = (answer, h)) ∧ ∀ v, answer = .ok v → ∀ l, v ≠ .list l := by
  have hwords : ∀ v, Value.addWords a x = .ok v → ∀ l, v ≠ .list l :=
    fun _ hsum => ne_list_of_addWords hsum
  cases a with
  | list l => exact absurd rfl (ha l)
  | text s =>
    cases x with
    | text t => exact ⟨_, fun _ => rfl, by rintro _ ⟨⟩; simp⟩
    | _ => exact ⟨_, fun _ => rfl, hwords⟩
  | tuple xs =>
    cases x with
    | tuple ys => exact ⟨_, fun _ => rfl, by rintro _ ⟨⟩; simp⟩
    | _ => exact ⟨_, fun _ => rfl, hwords⟩
  | _ => exact ⟨_, fun _ => rfl, hwords⟩

/-- Sums of values that agree do so: sums of lists are lists of the same items. -/
theorem add_agrees {y : Value} (hab : h.Agrees a g b) (hxy : h.Agrees x g y) :
    (h.add a x).2.AnswersAgree (g.add b y).2 (h.add a x).1 (g.add b y).1 := by
  by_cases ha : ∀ l, a ≠ .list l
  · obtain rfl := (agrees_of_ne_list ha).mp hab
    by_cases hx : ∀ k, x ≠ .list k
    · obtain rfl := (agrees_of_ne_list hx).mp hxy
      obtain ⟨answer, hadd, hne⟩ := add_of_ne_list (x := x) ha
      rw [hadd h, hadd g]
      cases answer with
      | error fault => exact .error fault
      | ok v => exact .ok ((agrees_of_ne_list (hne v rfl)).mpr rfl)
    · obtain ⟨k, rfl⟩ : ∃ k, x = .list k := by simpa using hx
      obtain ⟨j, rfl⟩ := hxy.exists_list
      rw [add_list_right ha, add_list_right ha]
      exact .error _
  · obtain ⟨l, rfl⟩ : ∃ l, a = .list l := by simpa using ha
    obtain ⟨m, rfl⟩ := hab.exists_list
    by_cases hx : ∀ k, x ≠ .list k
    · obtain rfl := (agrees_of_ne_list hx).mp hxy
      rw [add_list_left hx, add_list_left hx]
      exact .error _
    · obtain ⟨k, rfl⟩ : ∃ k, x = .list k := by simpa using hx
      obtain ⟨j, rfl⟩ := hxy.exists_list
      have hsame : (h.newList (h.list l ++ h.list k)).2.list (h.newList (h.list l ++ h.list k)).1 =
          (g.newList (g.list m ++ g.list j)).2.list (g.newList (g.list m ++ g.list j)).1 := by
        rw [list_newList, list_newList, hab.2.2, hxy.2.2]
      exact .ok ⟨h.index_newList_lt _, g.index_newList_lt _, hsame⟩

/-! ## Many sums -/

theorem extends_addAll (h : Heap) (total : Value) (items : List Value) :
    h.Extends (h.addAll total items).2 := by
  induction items generalizing h total with
  | nil => exact h.extends_refl
  | cons item items ih =>
    have hfirst := h.extends_add total item
    rw [addAll]
    rcases ha : h.add total item with ⟨fault | total', h'⟩
    · rwa [ha] at hfirst
    · rw [ha] at hfirst
      exact hfirst.trans (ih h' total')

/-- To add items is to add the first ones, and to go on from what they come to. -/
theorem addAll_append (h : Heap) (total : Value) (items more : List Value) :
    h.addAll total (items ++ more) =
      match h.addAll total items with
      | (.ok total, h) => h.addAll total more
      | (.error fault, h) => (.error fault, h) := by
  induction items generalizing h total with
  | nil => rfl
  | cons item items ih =>
    rw [List.cons_append, addAll, addAll]
    rcases h.add total item with ⟨fault | total', h'⟩
    · rfl
    · exact ih h' total'

/-- What items come to agrees if the items and the first summands do. -/
theorem addAll_agrees {items : List Value} (hab : h.Agrees a g b)
    (hitems : ∀ x ∈ items, h.Agrees x g x) :
    (h.addAll a items).2.AnswersAgree (g.addAll b items).2 (h.addAll a items).1
      (g.addAll b items).1 := by
  induction items generalizing h g a b with
  | nil => exact .ok hab
  | cons x items ih =>
    have hsum := add_agrees hab (hitems x List.mem_cons_self)
    have hh := h.extends_add a x
    have hg := g.extends_add b x
    rw [addAll, addAll]
    rcases hadd : h.add a x with ⟨fault | a', h'⟩ <;>
      rcases hadd' : g.add b x with ⟨fault' | b', g'⟩ <;> rw [hadd, hadd'] at hsum
    · exact hsum
    · cases hsum
    · cases hsum
    · cases hsum with
      | ok hab' =>
        rw [hadd] at hh
        rw [hadd'] at hg
        exact ih hab' fun y hy => (hitems y (List.mem_cons_of_mem x hy)).extends hh hg

/-! ## What a sum leaves alone -/

/-- A new list takes nothing from a loop, and adds nothing to it. -/
theorem ahead_newList {source : Source} (hs : h.Has source) (items : Array Value) :
    (h.newList items).2.Has source ∧
      (h.newList items).2.ahead ((h.newList items).2.cursorOf source) =
        h.ahead (h.cursorOf source) := by
  have hcursor : ∀ c, h.HasCursor c →
      (h.newList items).2.HasCursor c ∧ (h.newList items).2.ahead c = h.ahead c := by
    intro c hc
    refine ⟨hc.perform (.deed (.newList items.toList)), ?_⟩
    cases c with
    | list l index => simp only [ahead, h.list_newList_of_lt items hc]
    | _ => rfl
  cases source with
  | own c => exact hcursor c hs
  | shared id =>
    obtain ⟨hhas, hahead⟩ := hcursor (h.cursor id) hs.2
    exact ⟨⟨hs.1, hhas⟩, hahead⟩

theorem ahead_add {source : Source} (hs : h.Has source) (a b : Value) :
    (h.add a b).2.Has source ∧
      (h.add a b).2.ahead ((h.add a b).2.cursorOf source) = h.ahead (h.cursorOf source) := by
  rcases h.add_eq a b with he | ⟨items, he⟩
  · rw [he]
    exact ⟨hs, rfl⟩
  · rw [he]
    exact ahead_newList hs items

theorem ahead_addAll {source : Source} (hs : h.Has source) (total : Value) (items : List Value) :
    (h.addAll total items).2.Has source ∧
      (h.addAll total items).2.ahead ((h.addAll total items).2.cursorOf source) =
        h.ahead (h.cursorOf source) := by
  induction items generalizing h total with
  | nil => exact ⟨hs, rfl⟩
  | cons item items ih =>
    obtain ⟨hs', hahead⟩ := ahead_add hs total item
    rw [addAll]
    rcases hadd : h.add total item with ⟨fault | total', h'⟩ <;> rw [hadd] at hs' hahead
    · exact ⟨hs', hahead⟩
    · obtain ⟨hs'', hahead'⟩ := ih hs' total'
      exact ⟨hs'', hahead'.trans hahead⟩

/-! ## The loop of `sum` -/

theorem takeFrom_of_ahead_eq_nil {source : Source} (hnil : h.ahead (h.cursorOf source) = []) :
    ∃ source' h', h.takeFrom source = ((none, source'), h') := by
  rcases ht : h.takeFrom source with ⟨⟨_ | x, source'⟩, h'⟩
  · exact ⟨source', h', rfl⟩
  · rw [ahead_of_takeFrom_some ht] at hnil
    cases hnil

theorem takeFrom_of_ahead_eq_cons {source : Source} {items : List Value}
    (hcons : h.ahead (h.cursorOf source) = x :: items) :
    ∃ source' h', h.takeFrom source = ((some x, source'), h') ∧ h'.Has source' ∧
      h'.ahead (h'.cursorOf source') = items ∧ h'.lists = h.lists := by
  rcases ht : h.takeFrom source with ⟨⟨_ | y, source'⟩, h'⟩
  · rw [ahead_of_takeFrom_none ht] at hcons
    cases hcons
  · have hlists := h.lists_takeFrom source
    rw [ht] at hlists
    rw [ahead_of_takeFrom_some ht, List.cons.injEq] at hcons
    obtain ⟨rfl, rfl⟩ := hcons
    exact ⟨source', h', rfl, has_of_takeFrom_some ht, rfl, hlists⟩

theorem extends_of_lists_eq (hlists : h'.lists = h.lists) : h.Extends h' where
  known := Nat.le_of_eq (by rw [hlists])
  list id _ := by simp only [list, hlists]

end Heap

/-- The loop of `sum` comes to what the items ahead of it come to, from any first summand that agrees
with its own. -/
theorem exists_ends_addLoop {items : List Value} {source : Source} {w : World} {g : Heap}
    {total acc : Value} (hahead : w.heap.ahead (w.heap.cursorOf source) = items)
    (hacc : g.Agrees total w.heap acc) (hitems : ∀ x ∈ items, g.Agrees x w.heap x) :
    ∃ fuel answer w', Ends (Run.loop Builtin.addItem source fuel acc) w answer w' ∧
      (g.addAll total items).2.AnswersAgree w'.heap (g.addAll total items).1 answer := by
  induction items generalizing source w g total acc with
  | nil =>
    obtain ⟨source', h, ht⟩ := Heap.takeFrom_of_ahead_eq_nil hahead
    have hlists := w.heap.lists_takeFrom source
    rw [ht] at hlists
    refine ⟨1, .ok acc, ⟨h, w.output⟩, ends_loop_succ_iff.mpr ?_, .ok ?_⟩
    · simp [ht]
    · exact hacc.extends g.extends_refl (Heap.extends_of_lists_eq hlists)
  | cons x items ih =>
    obtain ⟨source', h, ht, hs, hahead', hlists⟩ := Heap.takeFrom_of_ahead_eq_cons hahead
    have hmore := Heap.extends_of_lists_eq hlists
    have hitems' : ∀ y ∈ x :: items, g.Agrees y h y :=
      fun y hy => (hitems y hy).extends g.extends_refl hmore
    have hsum := Heap.add_agrees (hacc.extends g.extends_refl hmore) (hitems' x List.mem_cons_self)
    have hadds : (Builtin.addItem acc x).Ends ⟨h, w.output⟩ (h.add acc x).1
        ⟨(h.add acc x).2, w.output⟩ := ends_attempt_iff.mpr ⟨rfl, rfl⟩
    rw [Heap.addAll]
    have hg := g.extends_add total x
    have hh := h.extends_add acc x
    obtain ⟨hs', hrest⟩ := Heap.ahead_add hs acc x
    rcases hadd : g.add total x with ⟨fault | total', g'⟩ <;>
      rcases hadd' : h.add acc x with ⟨fault' | acc', h'⟩ <;> rw [hadd, hadd'] at hsum
    · rw [hadd'] at hadds
      cases hsum
      refine ⟨1, .error fault, ⟨h', w.output⟩, ends_loop_succ_iff.mpr ?_, .error fault⟩
      simp only [ht]
      exact ends_bind_iff.mpr (Or.inl ⟨fault, hadds, rfl⟩)
    · cases hsum
    · cases hsum
    · rw [hadd'] at hadds hh hrest
      rw [hadd] at hg
      cases hsum with
      | ok hacc' =>
        obtain ⟨fuel, answer, w', hends, hagree⟩ := ih (w := ⟨h', w.output⟩) (hrest.trans hahead')
          hacc' fun y hy => (hitems' y (List.mem_cons_of_mem x hy)).extends hg hh
        refine ⟨fuel + 1, answer, w', ends_loop_succ_iff.mpr ?_, hagree⟩
        simp only [ht]
        exact ends_bind_iff.mpr (Or.inr ⟨acc', _, hadds, hends⟩)

/-- Over a tuple, nothing changes but the lists that sums make. -/
theorem exists_ends_addLoop_tuple (items : List Value) (acc : Value) (w : World) :
    ∃ fuel, Ends (Run.loop Builtin.addItem (.own (.tuple items)) fuel acc) w
      (w.heap.addAll acc items).1 ⟨(w.heap.addAll acc items).2, w.output⟩ := by
  induction items generalizing acc w with
  | nil => exact ⟨1, ends_loop_succ_iff.mpr ⟨rfl, rfl⟩⟩
  | cons x items ih =>
    have hadds : (Builtin.addItem acc x).Ends w (w.heap.add acc x).1
        ⟨(w.heap.add acc x).2, w.output⟩ := ends_attempt_iff.mpr ⟨rfl, rfl⟩
    rw [Heap.addAll]
    rcases hadd : w.heap.add acc x with ⟨fault | acc', h⟩ <;> rw [hadd] at hadds
    · exact ⟨1, ends_loop_succ_iff.mpr (ends_bind_iff.mpr (Or.inl ⟨fault, hadds, rfl⟩))⟩
    · obtain ⟨fuel, hends⟩ := ih acc' ⟨h, w.output⟩
      exact ⟨fuel + 1, ends_loop_succ_iff.mpr (ends_bind_iff.mpr (Or.inr ⟨acc', _, hadds, hends⟩))⟩

end Builtins
