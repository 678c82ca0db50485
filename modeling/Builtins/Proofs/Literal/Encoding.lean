-- Plain data given back. The data that a value stands for is made into a value that looks the same,
-- with new lists of its own, as long as no text in it is a reference.
import Builtins.Literal
import Builtins.Proofs.Literal.Spelling

namespace Builtins

namespace Literal

variable {α β : Type} {h h' : Heap}

/-- A step that answers hands its answer and its heap on. -/
theorem run_bind {a : Step α} {f : α → Step β} {x : α} (ha : a.run.run h = (.ok x, h')) :
    (a >>= f).run.run h = (f x).run.run h' := by
  have hbind : (a >>= f).run.run h =
      StateT.run (ExceptT.bindCont f (a.run.run h).1) (a.run.run h).2 := rfl
  rw [hbind, ha]
  rfl

end Literal

namespace Snapshot

/-- Plain data in which no text is a reference. -/
inductive Encodable : Snapshot → Prop
  | null : Encodable .null
  | bool (b : Bool) : Encodable (.bool b)
  | int (n : Word) : Encodable (.int n)
  | text {s : String} (hs : s.toList.head? ≠ some '@') : Encodable (.text s)
  | list {ss : List Snapshot} (items : ∀ s ∈ ss, Encodable s) : Encodable (.list ss)
  | tuple {ss : List Snapshot} (items : ∀ s ∈ ss, Encodable s) : Encodable (.tuple ss)

theorem Literal.encodable {n : Nat} {s : Snapshot} (hs : s.Literal n) : s.Encodable := by
  induction hs with
  | bool _ b => exact .bool b
  | int _ n => exact .int n
  | text _ hs => exact .text hs.no_reference
  | list _ ih => exact .list ih

/-- Whether data is made into a value that looks like a snapshot, whatever heap there is, and with
no change to the lists in it. -/
def IsMade (g : Globals) (s : Snapshot) : Prop :=
  ∀ h : Heap, ∃ v h', (Literal.ofTree g s.tree).run.run h = (.ok v, h') ∧ h.Extends h' ∧
    h'.Plain v ∧ h'.snapshot v = s

/-- Items are made one after the other, and the earlier ones stay as they are. -/
theorem ofTrees_run {g : Globals} {ss : List Snapshot} (hss : ∀ s ∈ ss, IsMade g s) (h : Heap) :
    ∃ vs h', (Literal.ofTrees g (trees ss)).run.run h = (.ok vs, h') ∧ h.Extends h' ∧
      (∀ v ∈ vs, h'.Plain v) ∧ vs.map h'.snapshot = ss := by
  induction ss generalizing h with
  | nil => exact ⟨[], h, rfl, h.extends_refl, by simp, rfl⟩
  | cons s ss ih =>
    obtain ⟨v, h₁, hrun, hmore, hplain, hsnapshot⟩ := hss s List.mem_cons_self h
    obtain ⟨vs, h₂, hruns, hmores, hplains, hsnapshots⟩ :=
      ih (fun t ht => hss t (List.mem_cons_of_mem s ht)) h₁
    refine ⟨v :: vs, h₂, ?run, hmore.trans hmores, ?plain, ?snapshot⟩
    case run =>
      rw [trees, Literal.ofTrees, Literal.run_bind hrun, Literal.run_bind hruns]
      rfl
    case plain =>
      intro x hx
      rcases List.mem_cons.mp hx with rfl | hx
      · exact hplain.extends hmores
      · exact hplains x hx
    case snapshot =>
      rw [List.map_cons, hplain.snapshot_eq hmores, hsnapshot, hsnapshots]

/-- The data that a snapshot stands for is made into a value that looks like it. -/
theorem Encodable.isMade {s : Snapshot} (hs : s.Encodable) (g : Globals) : IsMade g s := by
  induction hs with
  | null => exact fun h => ⟨.null, h, rfl, h.extends_refl, .null, rfl⟩
  | bool b => exact fun h => ⟨.bool b, h, rfl, h.extends_refl, .bool b, rfl⟩
  | int n =>
    refine fun h => ⟨.int n, h, ?_, h.extends_refl, .int n, rfl⟩
    have hint : Literal.ofInt n.toInt = .ok (.int n) := by simp [Literal.ofInt]
    rw [tree, Literal.ofTree, hint]
    rfl
  | @text s hs =>
    refine fun h => ⟨.text s, h, ?_, h.extends_refl, .text s, rfl⟩
    have hnone : Literal.reference? s.toList = none := by
      unfold Literal.reference?
      split
      · next hname => exact absurd (by rw [hname]; rfl) hs
      · rfl
    rw [tree, Literal.ofTree, Literal.ofText, hnone]
    rfl
  | @list ss _ ih =>
    intro h
    obtain ⟨vs, h₁, hruns, hmores, hplains, hsnapshots⟩ := ofTrees_run ih h
    have hmore := h₁.extends_newList vs.toArray
    have hlist : (h₁.newList vs.toArray).2.Plain (.list (h₁.newList vs.toArray).1) := by
      refine .list (by simp [Heap.newList]) fun x hx => ?_
      rw [Heap.list_newList] at hx
      exact (hplains x hx).extends hmore
    refine ⟨_, _, ?run, hmores.trans hmore, hlist, ?snapshot⟩
    case run =>
      rw [tree, Literal.ofTree, Literal.run_bind hruns]
      rfl
    case snapshot =>
      rw [hlist.acyclic.snapshot_list, Heap.list_newList]
      have hsame : ∀ v ∈ vs, (h₁.newList vs.toArray).2.snapshot v = h₁.snapshot v :=
        fun v hv => (hplains v hv).snapshot_eq hmore
      rw [List.map_congr_left hsame, hsnapshots]
  | @tuple ss _ ih =>
    intro h
    obtain ⟨vs, h₁, hruns, hmores, hplains, hsnapshots⟩ := ofTrees_run ih h
    refine ⟨.tuple vs, h₁, ?run, hmores, .tuple hplains, ?snapshot⟩
    case run =>
      rw [tree, Literal.ofTree]
      have htag : (Yaml.bareTag "tuple" == Literal.tupleTag) = true := by decide
      rw [if_pos htag, Literal.run_bind hruns]
      rfl
    case snapshot => rw [Heap.snapshot_tuple, hsnapshots]

end Snapshot

end Builtins
