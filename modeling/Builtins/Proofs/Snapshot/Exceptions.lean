-- The text of an exception. It tells the name of the kind and, as long as the payload is plain
-- data, nearly all of the payload: one tuple of two values or more is written like its items
-- without it.
import Mathlib.Data.List.Forall2
import Builtins.Proofs.Snapshot.Unambiguous

namespace Builtins

namespace ExceptionKind

/-- A failed assertion is displayed by a name of its own, and the other two kinds share theirs. -/
theorem displayName_eq_iff {kind kind' : ExceptionKind} :
    kind.displayName = kind'.displayName ↔ (kind = assertionError ↔ kind' = assertionError) := by
  cases kind <;> cases kind' <;> decide

/-- A display name is told by what it begins with, whatever comes behind it. -/
theorem displayName_append_inj {kind kind' : ExceptionKind} {rest rest' : List Char}
    (h : kind.displayName.toList ++ rest = kind'.displayName.toList ++ rest') :
    kind.displayName = kind'.displayName ∧ rest = rest' := by
  have hname : kind.displayName = kind'.displayName := by
    have hbegins := congrArg List.head? h
    cases kind <;> cases kind' <;> first | rfl | simp [displayName] at hbegins
  rw [hname] at h
  exact ⟨hname, List.append_cancel_left h⟩

end ExceptionKind

namespace Snapshot

/-! ## What comes behind the name -/

/-- What is written behind the name of an exception: nothing, its one value, or a tuple. -/
def body? : List Snapshot → Option Snapshot
  | [] => none
  | [s] => some s
  | ss => some (tuple ss)

/-- What separates a name from what is written behind it, and that. -/
def bodyChars : Option Snapshot → List Char
  | none => []
  | some s => ':' :: ' ' :: s.chars

theorem body?_of_two {ss : List Snapshot} (hss : 2 ≤ ss.length) : body? ss = some (tuple ss) := by
  rcases ss with _ | ⟨s, _ | ⟨t, ss⟩⟩
  · simp at hss
  · simp at hss
  · rfl

theorem toList_exceptionText (name : String) (ss : List Snapshot) :
    (exceptionText name (renderAll ss)).toList = name.toList ++ bodyChars (body? ss) := by
  rcases ss with _ | ⟨s, _ | ⟨t, ss⟩⟩
  · simp [renderAll, exceptionText, body?, bodyChars]
  · simp [renderAll, exceptionText, body?, bodyChars, chars]
  · simp only [renderAll, exceptionText, body?, bodyChars, chars, render, String.toList_append,
      List.append_assoc]
    rfl

theorem plain_body? {ss : List Snapshot} (hss : ∀ s ∈ ss, s.Plain) : ∀ s ∈ body? ss, s.Plain := by
  rcases ss with _ | ⟨s, _ | ⟨t, ss⟩⟩
  · nofun
  · rintro _ ⟨⟩
    exact hss s List.mem_cons_self
  · rintro _ ⟨⟩
    exact .tuple hss

theorem bodyChars_inj {s? t? : Option Snapshot} (hs : ∀ s ∈ s?, s.Plain) (ht : ∀ t ∈ t?, t.Plain)
    (h : bodyChars s? = bodyChars t?) : s? = t? := by
  cases s? with
  | none =>
    cases t? with
    | none => rfl
    | some t => cases h
  | some s =>
    cases t? with
    | none => cases h
    | some t =>
      obtain ⟨-, hchars⟩ := List.cons.inj (List.cons.inj h).2
      exact congrArg some ((hs s rfl).eq_of_render_eq (ht t rfl) (String.toList_inj.mp hchars))

/-- Payloads that come to the same behind the name are the same, or one is a tuple of the other. -/
theorem body?_eq_iff {ss ts : List Snapshot} :
    body? ss = body? ts ↔
      ss = ts ∨ (2 ≤ ts.length ∧ ss = [tuple ts]) ∨ (2 ≤ ss.length ∧ ts = [tuple ss]) := by
  constructor
  · intro h
    rcases ss with _ | ⟨s, _ | ⟨s', ss⟩⟩ <;> rcases ts with _ | ⟨t, _ | ⟨t', ts⟩⟩ <;>
      simp [body?] at h ⊢ <;> first | exact h | exact h.symm
  · rintro (rfl | ⟨hts, rfl⟩ | ⟨hss, rfl⟩)
    · rfl
    · rw [body?_of_two hts, body?]
    · rw [body?_of_two hss, body?]

end Snapshot

namespace Heap

variable {h h' : Heap}

/-! ## Payloads -/

theorem Plain.snapshot_eq_iff {v v' : Value} (hv : h.Plain v) (hv' : h'.Plain v') :
    h.snapshot v = h'.snapshot v' ↔ h.Alike h' v v' :=
  ⟨hv.alike hv', fun halike => halike.snapshot_eq hv hv'⟩

theorem snapshots_eq_iff {xs xs' : List Value} (hxs : ∀ x ∈ xs, h.Plain x)
    (hxs' : ∀ x ∈ xs', h'.Plain x) :
    xs.map h.snapshot = xs'.map h'.snapshot ↔ List.Forall₂ (h.Alike h') xs xs' := by
  induction xs generalizing xs' with
  | nil => cases xs' <;> simp
  | cons x xs ih =>
    cases xs' with
    | nil => simp
    | cons x' xs' =>
      rw [List.forall_mem_cons] at hxs hxs'
      rw [List.map_cons, List.map_cons, List.cons.injEq, List.forall₂_cons,
        hxs.1.snapshot_eq_iff hxs'.1, ih hxs.2 hxs'.2]

theorem plain_snapshots {xs : List Value} (hxs : ∀ x ∈ xs, h.Plain x) :
    ∀ s ∈ xs.map h.snapshot, s.Plain :=
  List.forall_mem_map.mpr fun x hx => (hxs x hx).snapshot

/-- Whether a payload is one tuple, of at least two values that are alike to another payload. -/
def Tuples (h h' : Heap) (xs xs' : List Value) : Prop :=
  ∃ items, xs = [.tuple items] ∧ 2 ≤ items.length ∧ List.Forall₂ (h.Alike h') items xs'

theorem Plain.items {items : List Value} (hv : h.Plain (.tuple items)) :
    ∀ x ∈ items, h.Plain x := by
  cases hv with
  | tuple hitems => exact hitems

theorem tuples_iff {xs xs' : List Value} (hxs : ∀ x ∈ xs, h.Plain x)
    (hxs' : ∀ x ∈ xs', h'.Plain x) :
    h.Tuples h' xs xs' ↔
      2 ≤ (xs'.map h'.snapshot).length ∧ xs.map h.snapshot = [.tuple (xs'.map h'.snapshot)] := by
  constructor
  · rintro ⟨items, rfl, hlength, halike⟩
    have hitems := (hxs _ List.mem_cons_self).items
    rw [← (snapshots_eq_iff hitems hxs').mpr halike, List.length_map]
    exact ⟨hlength, by rw [List.map_singleton, snapshot_tuple]⟩
  · rintro ⟨hlength, hsame⟩
    obtain ⟨v, rfl, hv⟩ := List.map_eq_singleton_iff.mp hsame
    have hshape := (hxs v List.mem_cons_self).shape
    rw [hv] at hshape
    obtain ⟨items, rfl, hitems⟩ := hshape
    have hplain := (hxs _ List.mem_cons_self).items
    rw [← hitems, List.length_map] at hlength
    exact ⟨items, rfl, hlength, (snapshots_eq_iff hplain hxs').mp hitems⟩

theorem exceptionText_eq (h : Heap) (e : ExceptionInstance) :
    (h.exceptionText e).toList = e.kind.displayName.toList ++
      Snapshot.bodyChars (Snapshot.body? (e.payload.map h.snapshot)) := by
  rw [← Snapshot.toList_exceptionText, Snapshot.renderAll_eq_map, List.map_map]
  rfl

end Heap

/-- Two exceptions whose payloads are plain data have one text exactly if their kinds have one
display name, which all kinds share but that of a failed assertion, and their payloads are
structurally equal or one payload is a tuple of at least two values that the other consists of. -/
theorem exceptions_are_told_by_their_text {h h' : Heap} {e e' : ExceptionInstance}
    (he : ∀ x ∈ e.payload, h.Plain x) (he' : ∀ x ∈ e'.payload, h'.Plain x) :
    (h.exceptionText e = h'.exceptionText e' ↔
        e.kind.displayName = e'.kind.displayName ∧
          (List.Forall₂ (h.Alike h') e.payload e'.payload ∨ h.Tuples h' e.payload e'.payload ∨
            h'.Tuples h e'.payload e.payload)) ∧
      (e.kind.displayName = e'.kind.displayName ↔
        (e.kind = .assertionError ↔ e'.kind = .assertionError)) := by
  have hbody : Snapshot.body? (e.payload.map h.snapshot) =
        Snapshot.body? (e'.payload.map h'.snapshot) ↔
      List.Forall₂ (h.Alike h') e.payload e'.payload ∨ h.Tuples h' e.payload e'.payload ∨
        h'.Tuples h e'.payload e.payload := by
    rw [Snapshot.body?_eq_iff, Heap.snapshots_eq_iff he he', Heap.tuples_iff he he',
      Heap.tuples_iff he' he]
  refine ⟨?_, ExceptionKind.displayName_eq_iff⟩
  rw [← hbody, ← String.toList_inj, Heap.exceptionText_eq, Heap.exceptionText_eq]
  constructor
  · intro htext
    obtain ⟨hname, hrest⟩ := ExceptionKind.displayName_append_inj htext
    have hplain := Snapshot.plain_body? (Heap.plain_snapshots he)
    have hplain' := Snapshot.plain_body? (Heap.plain_snapshots he')
    exact ⟨hname, Snapshot.bodyChars_inj hplain hplain' hrest⟩
  · rintro ⟨hname, hsame⟩
    rw [hname, hsame]

/-- A tuple of two values cannot be told from the two, but a tuple of one can be told from the one.
-/
theorem a_tuple_of_two_is_taken_for_two :
    let h : Heap := {}
    let two : ExceptionInstance := ⟨⟨0⟩, .stopIteration, [.tuple [.int 1, .text "two"]]⟩
    let two' : ExceptionInstance := ⟨⟨1⟩, .exception, [.int 1, .text "two"]⟩
    let one : ExceptionInstance := ⟨⟨2⟩, .exception, [.tuple [.int 1]]⟩
    let one' : ExceptionInstance := ⟨⟨3⟩, .exception, [.int 1]⟩
    (∀ x ∈ two.payload, h.Plain x) ∧ h.exceptionText two = h.exceptionText two' ∧
      h.exceptionText one ≠ h.exceptionText one' := by
  intro h two two' one one'
  have hitems : ∀ x ∈ two'.payload, h.Plain x :=
    List.forall_mem_cons.mpr ⟨.int 1, List.forall_mem_singleton.mpr (.text "two")⟩
  have htwo : ∀ x ∈ two.payload, h.Plain x := List.forall_mem_singleton.mpr (.tuple hitems)
  have hitem : ∀ x ∈ one'.payload, h.Plain x := List.forall_mem_singleton.mpr (.int 1)
  have hone : ∀ x ∈ one.payload, h.Plain x := List.forall_mem_singleton.mpr (.tuple hitem)
  refine ⟨htwo, ?_, fun hsame => ?_⟩
  · refine (exceptions_are_told_by_their_text htwo hitems).1.mpr ⟨rfl, Or.inr (Or.inl ?_)⟩
    exact ⟨_, rfl, by simp, .cons (.int 1) (.cons (.text "two") .nil)⟩
  · obtain ⟨-, halike | ⟨items, htuple, hlength, -⟩ | ⟨items, htuple, -⟩⟩ :=
      (exceptions_are_told_by_their_text hone hitem).1.mp hsame
    · cases halike with
      | cons halike _ => cases halike
    · cases htuple
      simp at hlength
    · cases htuple

end Builtins
