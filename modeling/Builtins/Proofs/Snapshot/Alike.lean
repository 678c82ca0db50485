-- Structural equality. Two values are alike when they are of one kind and have the same content,
-- place by place. For plain data that is what their snapshots say.
import Builtins.Proofs.Snapshot.Acyclic

namespace Builtins

namespace Heap

/-- Whether a value of one heap is structurally equal to a value of another. -/
inductive Alike (h h' : Heap) : Value → Value → Prop
  | null : Alike h h' .null .null
  | bool (b : Bool) : Alike h h' (.bool b) (.bool b)
  | int (n : Word) : Alike h h' (.int n) (.int n)
  | text (s : String) : Alike h h' (.text s) (.text s)
  | list {id id' : ListId} (size : (h.list id).size = (h'.list id').size)
    (items : ∀ (i : Nat) x x', (h.list id)[i]? = some x → (h'.list id')[i]? = some x' →
      Alike h h' x x') : Alike h h' (.list id) (.list id')
  | tuple {xs xs' : List Value} (length : xs.length = xs'.length)
    (items : ∀ (i : Nat) x x', xs[i]? = some x → xs'[i]? = some x' → Alike h h' x x') :
    Alike h h' (.tuple xs) (.tuple xs')

variable {h h' : Heap}

/-- Items that look the same are as many, and each is alike to the other in its place. -/
theorem alike_items {xs xs' : List Value}
    (hitems : ∀ x ∈ xs, ∀ x' ∈ xs', h.snapshot x = h'.snapshot x' → h.Alike h' x x')
    (hsame : xs.map h.snapshot = xs'.map h'.snapshot) :
    xs.length = xs'.length ∧
      ∀ (i : Nat) x x', xs[i]? = some x → xs'[i]? = some x' → h.Alike h' x x' := by
  constructor
  · simpa using congrArg List.length hsame
  · intro i x x' hx hx'
    have hplace : (xs.map h.snapshot)[i]? = (xs'.map h'.snapshot)[i]? := by rw [hsame]
    have heq : h.snapshot x = h'.snapshot x' := by simpa [hx, hx'] using hplace
    exact hitems x (List.mem_of_getElem? hx) x' (List.mem_of_getElem? hx') heq

/-- Items that come to the same in each place come to the same. -/
theorem map_eq_of_places {α : Type} {f f' : Value → α} {xs xs' : List Value}
    (hlength : xs.length = xs'.length)
    (hitems : ∀ (i : Nat) x x', xs[i]? = some x → xs'[i]? = some x' → f x = f' x') :
    xs.map f = xs'.map f' := by
  apply List.ext_getElem?
  intro i
  rw [List.getElem?_map, List.getElem?_map]
  cases hx : xs[i]? with
  | none =>
    have hout : xs'.length ≤ i := hlength ▸ List.getElem?_eq_none_iff.mp hx
    rw [List.getElem?_eq_none hout]
    rfl
  | some x =>
    obtain ⟨hi, -⟩ := List.getElem?_eq_some_iff.mp hx
    obtain ⟨x', hx'⟩ : ∃ x', xs'[i]? = some x' := ⟨_, List.getElem?_eq_getElem (hlength ▸ hi)⟩
    rw [hx']
    exact congrArg some (hitems i x _ hx hx')

/-- What plain data looks like tells its kind and its content. -/
theorem Plain.shape {v : Value} (hv : h.Plain v) :
    match h.snapshot v with
    | .null => v = .null
    | .bool b => v = .bool b
    | .int n => v = .int n
    | .text s => v = .text s
    | .list ss => ∃ id, v = .list id ∧ (h.list id).toList.map h.snapshot = ss
    | .tuple ss => ∃ xs, v = .tuple xs ∧ xs.map h.snapshot = ss
    | _ => False := by
  cases hv with
  | list known plain =>
    rw [(Plain.list known plain).acyclic.snapshot_list]
    exact ⟨_, rfl, rfl⟩
  | tuple plain =>
    rw [snapshot_tuple]
    exact ⟨_, rfl, rfl⟩
  | _ => rfl

/-- Plain data that looks the same is structurally equal. -/
theorem Plain.alike {v v' : Value} (hv : h.Plain v) (hv' : h'.Plain v')
    (hsame : h.snapshot v = h'.snapshot v') : h.Alike h' v v' := by
  induction hv generalizing v' with
  | @list id known plain ih =>
    have hshape := hv'.shape
    rw [← hsame, (Plain.list known plain).acyclic.snapshot_list] at hshape
    obtain ⟨id', rfl, hitems⟩ := hshape
    have hplain' : ∀ x' ∈ (h'.list id').toList, h'.Plain x' := by
      cases hv' with
      | list _ plain' => exact plain'
    obtain ⟨hlength, halike⟩ := alike_items
      (fun x hx x' hx' => ih x hx (hplain' x' hx')) hitems.symm
    refine .list hlength fun i x x' hx hx' => halike i x x' ?_ ?_
    · rw [Array.getElem?_toList, hx]
    · rw [Array.getElem?_toList, hx']
  | @tuple xs plain ih =>
    have hshape := hv'.shape
    rw [← hsame, snapshot_tuple] at hshape
    obtain ⟨xs', rfl, hitems⟩ := hshape
    have hplain' : ∀ x' ∈ xs', h'.Plain x' := by
      cases hv' with
      | tuple plain' => exact plain'
    obtain ⟨hlength, halike⟩ := alike_items
      (fun x hx x' hx' => ih x hx (hplain' x' hx')) hitems.symm
    exact .tuple hlength halike
  | _ =>
    -- What a scalar looks like is the scalar itself.
    have hshape := hv'.shape
    rw [← hsame] at hshape
    cases hshape
    constructor

/-- Plain data that is structurally equal looks the same. -/
theorem Alike.snapshot_eq {v v' : Value} (halike : h.Alike h' v v') (hv : h.Plain v)
    (hv' : h'.Plain v') : h.snapshot v = h'.snapshot v' := by
  induction halike with
  | list size items ih =>
    have hlist := hv
    have hlist' := hv'
    cases hv with
    | list _ hitems =>
      cases hv' with
      | list _ hitems' =>
        rw [hlist.acyclic.snapshot_list, hlist'.acyclic.snapshot_list]
        refine congrArg Snapshot.list (map_eq_of_places size fun i x x' hx hx' => ?_)
        rw [Array.getElem?_toList] at hx hx'
        exact ih i x x' hx hx' (hitems x (Array.mem_toList_iff.mpr (Array.mem_of_getElem? hx)))
          (hitems' x' (Array.mem_toList_iff.mpr (Array.mem_of_getElem? hx')))
  | tuple length items ih =>
    cases hv with
    | tuple hitems =>
      cases hv' with
      | tuple hitems' =>
        rw [snapshot_tuple, snapshot_tuple]
        refine congrArg Snapshot.tuple (map_eq_of_places length fun i x x' hx hx' => ?_)
        exact ih i x x' hx hx' (hitems x (List.mem_of_getElem? hx))
          (hitems' x' (List.mem_of_getElem? hx'))
  | _ => rfl

end Heap

end Builtins
