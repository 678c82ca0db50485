-- Values that do not hold themselves. On the way down into such a value every list comes at most
-- once, so its snapshot spells out all of them and ends nowhere before its time.
import Mathlib.Data.List.Perm.Subperm
import Builtins.Repr

namespace Builtins

namespace Heap

/-- The values that a value is made of: the items of a list or a tuple, and the payload of an
exception. -/
def parts (h : Heap) : Value → List Value
  | .list id => (h.list id).toList
  | .tuple items => items
  | .exception _ _ payload => payload
  | _ => []

/-- What is not a list has the same parts in all heaps. -/
theorem parts_eq_of_not_list {v : Value} (hv : ∀ id, v ≠ .list id) (h h' : Heap) :
    h'.parts v = h.parts v := by
  cases v with
  | list id => exact absurd rfl (hv id)
  | _ => rfl

/-- Whether a value is another or holds it, however deep. -/
inductive Holds (h : Heap) : Value → Value → Prop
  | self (v : Value) : Holds h v v
  | part {v x y : Value} (hx : x ∈ h.parts v) (hy : Holds h x y) : Holds h v y

/-- Whether a value does not hold itself, nor does any value in it, and all lists in it are lists
of the heap. -/
inductive Acyclic (h : Heap) : Value → Prop
  | intro {v : Value} (known : ∀ id, v = .list id → id.index < h.lists.size)
    (parts : ∀ x ∈ h.parts v, Acyclic h x) : Acyclic h v

variable {h : Heap}

theorem Holds.trans {v x y : Value} (hvx : h.Holds v x) (hxy : h.Holds x y) : h.Holds v y := by
  induction hvx with
  | self v => exact hxy
  | part hx _ ih => exact .part hx (ih hxy)

theorem Acyclic.not_holds {v x : Value} (hv : h.Acyclic v) (hx : x ∈ h.parts v) :
    ¬ h.Holds x v := by
  induction hv generalizing x with
  | @intro v _ _ ih =>
    intro hxv
    cases hxv with
    | self => exact ih v hx hx (.self v)
    | part hy hyv => exact ih x hx hy (hyv.trans (.part hx (.self x)))

/-! ## Snapshots -/

theorem length_le_of_nodup {above : List Nat} {n : Nat} (hnodup : above.Nodup)
    (hlt : ∀ i ∈ above, i < n) : above.length ≤ n := by
  have hsub : above ⊆ List.range n := fun i hi => List.mem_range.mpr (hlt i hi)
  simpa using (List.subperm_of_subset hnodup hsub).length_le

/-- Below some lists that a value does not hold, lists are nested no deeper in it than there are
other lists, so to spell out more makes no difference. -/
theorem Acyclic.snapshotWith_eq {v : Value} (hv : h.Acyclic v) {above : List Nat}
    (hnodup : above.Nodup) (hknown : ∀ i ∈ above, i < h.lists.size)
    (hnot : ∀ i ∈ above, ¬ h.Holds v (.list ⟨i⟩)) {m n : Nat}
    (hm : h.lists.size ≤ m + above.length) (hn : h.lists.size ≤ n + above.length) :
    v.snapshotWith (h.listSnapshot m) = v.snapshotWith (h.listSnapshot n) := by
  induction hv generalizing above m n with
  | @intro v known parts ih =>
    have hparts : (h.parts v).map (Value.snapshotWith (h.listSnapshot m)) =
        (h.parts v).map (Value.snapshotWith (h.listSnapshot n)) :=
      List.map_congr_left fun x hx =>
        ih x hx hnodup hknown (fun i hi hxi => hnot i hi (.part hx hxi)) hm hn
    cases v with
    | list id =>
      -- The list itself joins those above its items.
      have hnew : id.index ∉ above := fun hi => hnot id.index hi (.self _)
      have hcons : (id.index :: above).Nodup := List.nodup_cons.mpr ⟨hnew, hnodup⟩
      have hall : ∀ i ∈ id.index :: above, i < h.lists.size := by
        intro i hi
        rcases List.mem_cons.mp hi with rfl | hi
        · exact known id rfl
        · exact hknown i hi
      have hlength : above.length + 1 ≤ h.lists.size := length_le_of_nodup hcons hall
      obtain ⟨m, rfl⟩ : ∃ k, m = k + 1 := ⟨m - 1, by omega⟩
      obtain ⟨n, rfl⟩ : ∃ k, n = k + 1 := ⟨n - 1, by omega⟩
      have hitems : ∀ x ∈ (h.list id).toList,
          x.snapshotWith (h.listSnapshot m) = x.snapshotWith (h.listSnapshot n) := by
        intro x hx
        refine ih x hx hcons hall ?_ (by simp; omega) (by simp; omega)
        intro i hi hxi
        rcases List.mem_cons.mp hi with rfl | hi
        · exact (Acyclic.intro known parts).not_holds hx hxi
        · exact hnot i hi (.part hx hxi)
      simp only [Value.snapshotWith, listSnapshot, Value.snapshotsWith_eq_map]
      rw [List.map_congr_left hitems]
    | tuple items =>
      simp only [Value.snapshotWith, Value.snapshotsWith_eq_map]
      exact congrArg Snapshot.tuple hparts
    | exception id kind payload =>
      simp only [Value.snapshotWith, Value.snapshotsWith_eq_map]
      exact congrArg (Snapshot.exception kind) hparts
    | _ => rfl

theorem Acyclic.part {v x : Value} (hv : h.Acyclic v) (hx : x ∈ h.parts v) : h.Acyclic x := by
  cases hv with
  | intro _ parts => exact parts x hx

/-- A list that does not hold itself looks like its items. -/
theorem Acyclic.snapshot_list {id : ListId} (hv : h.Acyclic (.list id)) :
    h.snapshot (.list id) = .list ((h.list id).toList.map h.snapshot) := by
  have hdeeper : h.snapshot (.list id) =
      (Value.list id).snapshotWith (h.listSnapshot (h.lists.size + 1)) :=
    hv.snapshotWith_eq List.nodup_nil (by simp) (by simp) (by simp) (by simp)
  rw [hdeeper]
  simp only [Value.snapshotWith, listSnapshot, Value.snapshotsWith_eq_map]
  rfl

theorem snapshot_tuple (h : Heap) (items : List Value) :
    h.snapshot (.tuple items) = .tuple (items.map h.snapshot) := by
  simp only [snapshot, Value.snapshotWith, Value.snapshotsWith_eq_map]
  rfl

/-! ## Plain data -/

/-- Plain data: nothing, truth values, integers and texts, and lists and tuples of plain data that
do not hold themselves. -/
inductive Plain (h : Heap) : Value → Prop
  | null : Plain h .null
  | bool (b : Bool) : Plain h (.bool b)
  | int (n : Word) : Plain h (.int n)
  | text (s : String) : Plain h (.text s)
  | list {id : ListId} (known : id.index < h.lists.size)
    (plain : ∀ x ∈ (h.list id).toList, Plain h x) : Plain h (.list id)
  | tuple {items : List Value} (plain : ∀ x ∈ items, Plain h x) : Plain h (.tuple items)

theorem Plain.acyclic {v : Value} (hv : h.Plain v) : h.Acyclic v := by
  induction hv with
  | list known _ ih =>
    refine .intro ?_ ih
    rintro id ⟨⟩
    exact known
  | tuple _ ih => exact .intro (by simp) ih
  | _ => exact .intro (by simp) (by simp [parts])

end Heap

/-- What plain data looks like. -/
inductive Snapshot.Plain : Snapshot → Prop
  | null : Plain .null
  | bool (b : Bool) : Plain (.bool b)
  | int (n : Word) : Plain (.int n)
  | text (s : String) : Plain (.text s)
  | list {items : List Snapshot} (plain : ∀ s ∈ items, Plain s) : Plain (.list items)
  | tuple {items : List Snapshot} (plain : ∀ s ∈ items, Plain s) : Plain (.tuple items)

theorem Heap.Plain.snapshot {h : Heap} {v : Value} (hv : h.Plain v) : (h.snapshot v).Plain := by
  induction hv with
  | null => exact .null
  | bool b => exact .bool b
  | int n => exact .int n
  | text s => exact .text s
  | list known hitems ih =>
    rw [(Heap.Plain.list known hitems).acyclic.snapshot_list]
    refine .list fun s hs => ?_
    obtain ⟨x, hx, rfl⟩ := List.mem_map.mp hs
    exact ih x hx
  | tuple hitems ih =>
    rw [Heap.snapshot_tuple]
    refine .tuple fun s hs => ?_
    obtain ⟨x, hx, rfl⟩ := List.mem_map.mp hs
    exact ih x hx

/-! ## More lists -/

namespace Heap

/-- Whether a heap has all lists of another, as they are there. -/
structure Extends (h h' : Heap) : Prop where
  known : h.lists.size ≤ h'.lists.size
  list : ∀ id : ListId, id.index < h.lists.size → h'.list id = h.list id

theorem extends_refl (h : Heap) : h.Extends h := ⟨Nat.le_refl _, fun _ _ => rfl⟩

theorem Extends.trans {h₁ h₂ h₃ : Heap} (h₁₂ : h₁.Extends h₂) (h₂₃ : h₂.Extends h₃) :
    h₁.Extends h₃ where
  known := Nat.le_trans h₁₂.known h₂₃.known
  list id hid := (h₂₃.list id (Nat.lt_of_lt_of_le hid h₁₂.known)).trans (h₁₂.list id hid)

theorem extends_newList (h : Heap) (items : Array Value) : h.Extends (h.newList items).2 where
  known := by simp [newList]
  list _ hid := h.list_newList_of_lt items hid

variable {h h' : Heap}

/-- Plain data stays as it is when lists are made. -/
theorem Plain.extends {v : Value} (hv : h.Plain v) (hmore : h.Extends h') : h'.Plain v := by
  induction hv with
  | null => exact .null
  | bool b => exact .bool b
  | int n => exact .int n
  | text s => exact .text s
  | @list id known _ ih =>
    refine .list (Nat.lt_of_lt_of_le known hmore.known) fun x hx => ?_
    rw [hmore.list id known] at hx
    exact ih x hx
  | tuple _ ih => exact .tuple ih

theorem Plain.snapshot_eq {v : Value} (hv : h.Plain v) (hmore : h.Extends h') :
    h'.snapshot v = h.snapshot v := by
  induction hv with
  | @list id known plain ih =>
    have hlist := Plain.list known plain
    rw [hlist.acyclic.snapshot_list, (hlist.extends hmore).acyclic.snapshot_list,
      hmore.list id known, List.map_congr_left ih]
  | tuple _ ih => rw [snapshot_tuple, snapshot_tuple, List.map_congr_left ih]
  | _ => rfl

end Heap

end Builtins
