-- What values look like at every depth. A list that holds itself has no last depth, so two values
-- look like each other when they do so however deep their lists are spelled out. What a heap knows
-- looks the same in every heap that has more lists.
import Builtins.Proofs.Naming.Closed
import Builtins.Proofs.Snapshot.Alike

namespace Builtins

namespace Heap

variable {h h' g g' : Heap} {v v' : Value}

/-- Whether a value of one heap looks like a value of another, however deep lists are spelled
out. -/
def LooksLike (h h' : Heap) (v v' : Value) : Prop :=
  ∀ depth, v.snapshotWith (h.listSnapshot depth) = v'.snapshotWith (h'.listSnapshot depth)

/-! ## Plain data -/

theorem Alike.looksLike (halike : h.Alike h' v v') : h.LooksLike h' v v' := by
  induction halike with
  | list size items ih =>
    intro depth
    cases depth with
    | zero => rfl
    | succ depth =>
      simp only [Value.snapshotWith, listSnapshot, Value.snapshotsWith_eq_map]
      refine congrArg Snapshot.list (map_eq_of_places size fun i x x' hx hx' => ?_)
      rw [Array.getElem?_toList] at hx hx'
      exact ih i x x' hx hx' depth
  | tuple length items ih =>
    intro depth
    simp only [Value.snapshotWith, Value.snapshotsWith_eq_map]
    exact congrArg Snapshot.tuple
      (map_eq_of_places length fun i x x' hx hx' => ih i x x' hx hx' depth)
  | _ => exact fun _ => rfl

/-- Plain data looks like other plain data exactly if the two are structurally equal. -/
theorem Plain.looksLike_iff (hv : h.Plain v) (hv' : h'.Plain v') :
    h.LooksLike h' v v' ↔ h.Alike h' v v' := by
  refine ⟨fun hlooks => ?_, Alike.looksLike⟩
  -- Below as many lists as there are nothing more comes to light.
  have hleft : v.snapshotWith (h.listSnapshot (h.lists.size + h'.lists.size)) = h.snapshot v :=
    hv.acyclic.snapshotWith_eq List.nodup_nil (by simp) (by simp) (by simp) (by simp)
  have hright : v'.snapshotWith (h'.listSnapshot (h.lists.size + h'.lists.size)) = h'.snapshot v' :=
    hv'.acyclic.snapshotWith_eq List.nodup_nil (by simp) (by simp) (by simp) (by simp)
  exact hv.alike hv' (hleft.symm.trans ((hlooks _).trans hright))

/-! ## More lists -/

mutual

/-- What is known looks the same if the lists that are there do. -/
theorem snapshotWith_of_knows {lists lists' : ListId → Snapshot}
    (hsame : ∀ id : ListId, id.index < h.lists.size → lists id = lists' id) :
    ∀ {v : Value}, h.Knows v → v.snapshotWith lists = v.snapshotWith lists'
  | .list id, hv => hsame id hv
  | .tuple items, hv => by
    rw [Value.snapshotWith, Value.snapshotWith, snapshotsWith_of_knowsAll hsame hv]
  | .exception id kind payload, hv => by
    rw [Value.snapshotWith, Value.snapshotWith, snapshotsWith_of_knowsAll hsame hv]
  | .null, _ | .bool _, _ | .int _, _ | .text _, _ | .exceptionType _, _ | .generator _, _
  | .iterator _, _ | .builtin _, _ | .function _ _, _ => rfl

theorem snapshotsWith_of_knowsAll {lists lists' : ListId → Snapshot}
    (hsame : ∀ id : ListId, id.index < h.lists.size → lists id = lists' id) :
    ∀ {vs : List Value}, h.KnowsAll vs →
      Value.snapshotsWith lists vs = Value.snapshotsWith lists' vs
  | [], _ => rfl
  | v :: vs, hvs => by
    rw [Value.snapshotsWith, Value.snapshotsWith, snapshotWith_of_knows hsame hvs.1,
      snapshotsWith_of_knowsAll hsame hvs.2]

end

theorem Closed.knows_items (hh : h.Closed) {id : ListId} (hid : id.index < h.lists.size) {x : Value}
    (hx : x ∈ (h.list id).toList) : h.Knows x :=
  hh.knows_ahead (c := .list id 0) hid hx

/-- A list that is there looks the same among more lists. -/
theorem Closed.listSnapshot_eq (hh : h.Closed) (hmore : h.Extends h') (depth : Nat) {id : ListId}
    (hid : id.index < h.lists.size) : h'.listSnapshot depth id = h.listSnapshot depth id := by
  induction depth generalizing id with
  | zero => rfl
  | succ depth ih =>
    have hitems : h.KnowsAll (h.list id).toList := knowsAll_iff.mpr fun _ => hh.knows_items hid
    rw [listSnapshot, listSnapshot, hmore.list id hid,
      snapshotsWith_of_knowsAll (fun _ => ih) hitems]

/-- What is known looks the same wherever there are more lists. -/
theorem Knows.looksLike (hv : h.Knows v) (hh : h.Closed) (hg : h.Extends g) (hg' : h.Extends g') :
    g.LooksLike g' v v := fun depth =>
  (snapshotWith_of_knows (fun _ => hh.listSnapshot_eq hg depth) hv).trans
    (snapshotWith_of_knows (fun _ => hh.listSnapshot_eq hg' depth) hv).symm

end Heap

end Builtins
