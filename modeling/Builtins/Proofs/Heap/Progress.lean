-- Nothing in the heap goes back. An iterator keeps to what it goes over and only moves on, a
-- generator that is exhausted stays so, and a list keeps what it has.
import Builtins.Proofs.Heap.Cursors

namespace Builtins

/-- Whether a cursor is at the place of another or behind it, over the same items. -/
def Cursor.Reaches : Cursor → Cursor → Prop
  | .list id index, .list id' index' => id' = id ∧ index ≤ index'
  | .tuple rest, .tuple rest' => rest' <:+ rest
  | .text rest, .text rest' => rest' <:+ rest
  | .generator id, .generator id' => id' = id
  | _, _ => False

/-- Whether a generator hands out the same progression as another, and is exhausted if that is. -/
structure Generator.Reaches (g g' : Generator) : Prop where
  progression : g'.progression = g.progression
  exhausted : g.stage = .exhausted → g'.stage = .exhausted

namespace Cursor

theorem reaches_refl (c : Cursor) : c.Reaches c := by
  cases c with
  | list id index => exact ⟨rfl, Nat.le_refl index⟩
  | tuple rest => exact List.suffix_rfl
  | text rest => exact List.suffix_rfl
  | generator id => rfl

theorem Reaches.trans {c₁ c₂ c₃ : Cursor} (h₁₂ : c₁.Reaches c₂) (h₂₃ : c₂.Reaches c₃) :
    c₁.Reaches c₃ := by
  cases c₁ <;> cases c₂ <;> cases c₃ <;> simp only [Reaches] at h₁₂ h₂₃ ⊢
  · exact ⟨h₂₃.1.trans h₁₂.1, Nat.le_trans h₁₂.2 h₂₃.2⟩
  · exact h₂₃.trans h₁₂
  · exact h₂₃.trans h₁₂
  · exact h₂₃.trans h₁₂

/-- To draw from a cursor moves it on, if at all. -/
theorem reaches_draw (h : Heap) (c : Cursor) : c.Reaches (h.draw c).2.1 := by
  cases c with
  | list id index =>
    cases hi : (h.list id)[index]? with
    | none => simp [Heap.draw, hi, Reaches]
    | some item => simp [Heap.draw, hi, Reaches]
  | tuple rest =>
    cases rest with
    | nil => exact List.suffix_rfl
    | cons item rest => exact List.suffix_cons item rest
  | text rest =>
    cases rest with
    | nil => exact List.suffix_rfl
    | cons c rest => exact List.suffix_cons c rest
  | generator id => rfl

end Cursor

namespace Generator

theorem reaches_refl (g : Generator) : g.Reaches g := ⟨rfl, id⟩

theorem Reaches.trans {g₁ g₂ g₃ : Generator} (h₁₂ : g₁.Reaches g₂) (h₂₃ : g₂.Reaches g₃) :
    g₁.Reaches g₃ :=
  ⟨h₂₃.progression.trans h₁₂.progression, fun h => h₂₃.exhausted (h₁₂.exhausted h)⟩

theorem reaches_resume (g : Generator) : g.Reaches g.resume.2 := by
  refine ⟨progression_resume g, fun hg => ?_⟩
  simp [resume, hg]

end Generator

namespace Heap

variable {h : Heap}

theorem cursor_reaches_perform {id : IteratorId} {c : Cursor}
    (hc : h.cursors[id.index]? = some c) (s : Step) :
    ∃ c', (s.perform h).2.cursors[id.index]? = some c' ∧ c.Reaches c' := by
  refine ⟨_, getElem?_cursors_perform hc s, ?_⟩
  split
  · exact c.reaches_draw h
  · exact c.reaches_refl

theorem generator_reaches_perform {i : Nat} {g : Generator} (hg : h.generators[i]? = some g)
    (s : Step) : ∃ g', (s.perform h).2.generators[i]? = some g' ∧ g.Reaches g' := by
  obtain ⟨hlt, hget⟩ := Array.getElem?_eq_some_iff.mp hg
  rw [generators_perform]
  split
  · refine ⟨g, ?_, g.reaches_refl⟩
    simp [Array.getElem?_push, Nat.ne_of_lt hlt, hg]
  · cases s.generator? h with
    | none => exact ⟨g, hg, g.reaches_refl⟩
    | some id =>
      by_cases hi : id.index = i
      · subst hi
        have hsame : h.generator id = g := by
          simp [generator, Array.getD_eq_getD_getElem?, hg]
        refine ⟨g.resume.2, ?_, g.reaches_resume⟩
        simp [hsame, hlt]
      · refine ⟨g, ?_, g.reaches_refl⟩
        simpa [Array.getElem?_setIfInBounds_ne hi] using hg

/-- A step that appends nothing leaves the lists as they are, and may make another. -/
theorem list_perform {s : Step} (hs : ∀ l item, s ≠ .deed (.append l item)) :
    h.lists.size ≤ (s.perform h).2.lists.size ∧
      ∀ id : ListId, id.index < h.lists.size → (s.perform h).2.list id = h.list id := by
  rcases h.lists_perform s with ⟨l, item, he, -⟩ | ⟨-, he | ⟨items, he⟩⟩
  · exact absurd he (hs l item)
  · simp [list, he]
  · refine ⟨by simp [he], fun id hid => ?_⟩
    simp [list, he, Array.getD_eq_getD_getElem?, Array.getElem?_push, Nat.ne_of_lt hid]

/-! ## After any steps -/

theorem cursor_reaches_after {id : IteratorId} {c : Cursor}
    (hc : h.cursors[id.index]? = some c) (steps : List Step) :
    ∃ c', (h.after steps).cursors[id.index]? = some c' ∧ c.Reaches c' := by
  induction steps generalizing h c with
  | nil => exact ⟨c, hc, c.reaches_refl⟩
  | cons s steps ih =>
    obtain ⟨c₁, hc₁, hreaches⟩ := cursor_reaches_perform hc s
    obtain ⟨c', hc', hmore⟩ := ih hc₁
    exact ⟨c', hc', hreaches.trans hmore⟩

theorem generator_reaches_after {i : Nat} {g : Generator} (hg : h.generators[i]? = some g)
    (steps : List Step) : ∃ g', (h.after steps).generators[i]? = some g' ∧ g.Reaches g' := by
  induction steps generalizing h g with
  | nil => exact ⟨g, hg, g.reaches_refl⟩
  | cons s steps ih =>
    obtain ⟨g₁, hg₁, hreaches⟩ := generator_reaches_perform hg s
    obtain ⟨g', hg', hmore⟩ := ih hg₁
    exact ⟨g', hg', hreaches.trans hmore⟩

end Heap

end Builtins
