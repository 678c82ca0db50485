-- Plain data to YAML and back. What is made of the data that a value is encoded as is the value
-- again, with lists of its own, and what a literal is made of is the data that its value is encoded
-- as. Texts that refer to a global name are left out on both sides.
import Builtins.Proofs.Literal.Offences
import Builtins.Proofs.Snapshot.Alike

namespace Builtins

open Yaml (Tree)

/-! ## Encoding -/

theorem Snapshot.trees_eq_map (ss : List Snapshot) : Snapshot.trees ss = ss.map Snapshot.tree := by
  induction ss with
  | nil => rfl
  | cons s ss ih => rw [Snapshot.trees, ih, List.map_cons]

namespace Heap

variable {h h' : Heap}

/-- Plain data as YAML: lists as sequences, and tuples as sequences under their tag. -/
def encode (h : Heap) (v : Value) : Tree := (h.snapshot v).tree

theorem encode_tuple (h : Heap) (items : List Value) :
    h.encode (.tuple items) = .tagged Literal.tupleTag (.sequence (items.map h.encode)) := by
  rw [encode, snapshot_tuple, Snapshot.tree, Snapshot.trees_eq_map, List.map_map]
  rfl

theorem Acyclic.encode_list {id : ListId} (hv : h.Acyclic (.list id)) :
    h.encode (.list id) = .sequence ((h.list id).toList.map h.encode) := by
  rw [encode, hv.snapshot_list, Snapshot.tree, Snapshot.trees_eq_map, List.map_map]
  rfl

theorem Plain.encode_eq {v : Value} (hv : h.Plain v) (hmore : h.Extends h') :
    h'.encode v = h.encode v := by
  rw [encode, hv.snapshot_eq hmore, encode]

/-- Plain data without a reference in it looks like data that can be encoded. -/
theorem Plain.encodable {v : Value} (hv : h.Plain v)
    (hnames : ∀ s, h.Holds v (.text s) → s.toList.head? ≠ some '@') :
    (h.snapshot v).Encodable := by
  induction hv with
  | null => exact .null
  | bool b => exact .bool b
  | int n => exact .int n
  | text s => exact .text (hnames s (.self _))
  | list known plain ih =>
    rw [(Plain.list known plain).acyclic.snapshot_list]
    refine .list fun s hs => ?_
    obtain ⟨x, hx, rfl⟩ := List.mem_map.mp hs
    exact ih x hx fun s hholds => hnames s (.part hx hholds)
  | tuple plain ih =>
    rw [snapshot_tuple]
    refine .tuple fun s hs => ?_
    obtain ⟨x, hx, rfl⟩ := List.mem_map.mp hs
    exact ih x hx fun s hholds => hnames s (.part hx hholds)

/-! ## Places -/

/-- What is at a place inside a value: the value itself, or what is at a place inside one of its
parts. -/
def at? (h : Heap) : Value → List Nat → Option Value
  | v, [] => some v
  | v, i :: place => (h.parts v)[i]?.bind fun x => h.at? x place

/-- What is made of plain data has the same at every place when more lists are made. -/
theorem Plain.at?_eq {v : Value} (hv : h.Plain v) (hmore : h.Extends h') (place : List Nat) :
    h'.at? v place = h.at? v place := by
  induction place generalizing v with
  | nil => rfl
  | cons i place ih =>
    have hparts : h'.parts v = h.parts v ∧ ∀ x ∈ h.parts v, h.Plain x := by
      cases hv with
      | list known plain => exact ⟨congrArg Array.toList (hmore.list _ known), plain⟩
      | tuple plain => exact ⟨rfl, plain⟩
      | _ => exact ⟨rfl, by simp [parts]⟩
    rw [at?, at?, hparts.1]
    cases hx : (h.parts v)[i]? with
    | none => rfl
    | some x => exact ih (hparts.2 x (List.mem_of_getElem? hx))

/-- Whether the lists in a value have all been made between two heaps, each for one place. -/
structure MakesAll (h h' : Heap) (v : Value) : Prop where
  new : ∀ place id, h'.at? v place = some (.list id) → h.lists.size ≤ id.index
  known : ∀ place id, h'.at? v place = some (.list id) → id.index < h'.lists.size
  once : ∀ place other id, h'.at? v place = some (.list id) → h'.at? v other = some (.list id) →
    place = other

/-- There are no lists in what has no parts. -/
theorem makesAll_of_parts {v : Value} (hparts : h'.parts v = []) (hv : ∀ id, v ≠ .list id) :
    h.MakesAll h' v := by
  have hnone : ∀ place id, h'.at? v place ≠ some (.list id) := by
    intro place id
    cases place with
    | nil => exact fun hat => hv id (Option.some.inj hat)
    | cons i place =>
      rw [at?, hparts]
      rintro ⟨⟩
  exact ⟨fun place id hat => absurd hat (hnone place id),
    fun place id hat => absurd hat (hnone place id),
    fun place _ id hat => absurd hat (hnone place id)⟩

/-- The items of a row have been made one after the other, so no two of them share a list. -/
theorem MakesAll.cons {h₁ h₂ : Heap} {v : Value} {vs : List Value} (hv : h.MakesAll h₁ v)
    (hplain : h₁.Plain v) (hvs : h₁.MakesAll h₂ (.tuple vs)) (hmore : h.Extends h₁)
    (hmores : h₁.Extends h₂) : h.MakesAll h₂ (.tuple (v :: vs)) := by
  -- A place in the row is one in its first item or one in the row of the others.
  have hfirst : ∀ place, h₂.at? (.tuple (v :: vs)) (0 :: place) = h₁.at? v place :=
    fun place => hplain.at?_eq hmores place
  have hothers : ∀ i place,
      h₂.at? (.tuple (v :: vs)) ((i + 1) :: place) = h₂.at? (.tuple vs) (i :: place) :=
    fun _ _ => rfl
  constructor
  case new =>
    rintro (_ | ⟨_ | i, place⟩) id hat
    · cases hat
    · rw [hfirst] at hat
      exact hv.new place id hat
    · rw [hothers] at hat
      exact Nat.le_trans hmore.known (hvs.new _ id hat)
  case known =>
    rintro (_ | ⟨_ | i, place⟩) id hat
    · cases hat
    · rw [hfirst] at hat
      exact Nat.lt_of_lt_of_le (hv.known place id hat) hmores.known
    · rw [hothers] at hat
      exact hvs.known _ id hat
  case once =>
    have happart : ∀ {place other id}, h₁.at? v place = some (.list id) →
        h₂.at? (.tuple vs) other = some (.list id) → False := by
      intro place other id hat hother
      exact Nat.lt_irrefl _ (Nat.lt_of_lt_of_le (hv.known place id hat) (hvs.new other id hother))
    rintro (_ | ⟨_ | i, place⟩) (_ | ⟨_ | j, other⟩) id hat hother
    · cases hat
    · cases hat
    · cases hat
    · cases hother
    · rw [hfirst] at hat hother
      rw [hv.once place other id hat hother]
    · rw [hfirst] at hat
      rw [hothers] at hother
      exact (happart hat hother).elim
    · cases hother
    · rw [hothers] at hat
      rw [hfirst] at hother
      exact (happart hother hat).elim
    · rw [hothers] at hat hother
      obtain ⟨rfl, rfl⟩ := List.cons.inj (hvs.once _ _ id hat hother)
      rfl

/-- A list is made after its items. -/
theorem MakesAll.newList {vs : List Value} (hvs : h.MakesAll h' (.tuple vs)) (hmore : h.Extends h')
    (hplain : ∀ v ∈ vs, h'.Plain v) :
    h.MakesAll (h'.newList vs.toArray).2 (.list (h'.newList vs.toArray).1) := by
  have hinside : ∀ i place,
      (h'.newList vs.toArray).2.at? (.list (h'.newList vs.toArray).1) (i :: place) =
        h'.at? (.tuple vs) (i :: place) := by
    intro i place
    have hrow : (h'.newList vs.toArray).2.at? (.list (h'.newList vs.toArray).1) (i :: place) =
        (h'.newList vs.toArray).2.at? (.tuple vs) (i :: place) := by
      simp only [at?, parts, list_newList]
    rw [hrow, (Plain.tuple hplain).at?_eq (h'.extends_newList vs.toArray)]
  have hsize : (h'.newList vs.toArray).2.lists.size = h'.lists.size + 1 := by simp [Heap.newList]
  have hself : ∀ id, (h'.newList vs.toArray).2.at? (.list (h'.newList vs.toArray).1) [] =
      some (.list id) → id.index = h'.lists.size := by
    rintro id ⟨⟩
    rfl
  constructor
  case new =>
    rintro (_ | ⟨i, place⟩) id hat
    · rw [hself id hat]
      exact hmore.known
    · rw [hinside] at hat
      exact hvs.new _ id hat
  case known =>
    rintro (_ | ⟨i, place⟩) id hat
    · rw [hself id hat, hsize]
      exact Nat.lt_succ_self _
    · rw [hinside] at hat
      rw [hsize]
      exact Nat.lt_succ_of_lt (hvs.known _ id hat)
  case once =>
    rintro (_ | ⟨i, place⟩) (_ | ⟨j, other⟩) id hat hother
    · rfl
    · rw [hinside] at hother
      exact absurd (hself id hat) (Nat.ne_of_lt (hvs.known _ id hother))
    · rw [hinside] at hat
      exact absurd (hself id hother) (Nat.ne_of_lt (hvs.known _ id hat))
    · rw [hinside] at hat hother
      exact hvs.once _ _ id hat hother

end Heap

/-! ## What is made of data -/

namespace Literal

variable {g : Globals}

/-- What data without references is made into: plain data with lists of its own, which is encoded
as the data that it is made of. -/
structure Made (t : Tree) (before : Heap) (v : Value) (after : Heap) : Prop where
  more : before.Extends after
  plain : after.Plain v
  makesAll : before.MakesAll after v
  same : (after.encode v).same t = true

/-- What the items of a sequence are made into. -/
structure MadeAll (ts : List Tree) (before : Heap) (vs : List Value) (after : Heap) : Prop where
  more : before.Extends after
  plain : ∀ v ∈ vs, after.Plain v
  makesAll : before.MakesAll after (.tuple vs)
  same : Tree.sameAll (vs.map after.encode) ts = true

/-- What has no parts is made without a step on the heap. -/
theorem made_scalar {t : Tree} {v : Value} {h : Heap} (hplain : h.Plain v)
    (hparts : h.parts v = []) (hv : ∀ id, v ≠ .list id) (hsame : (h.encode v).same t = true) :
    Made t h v h :=
  ⟨h.extends_refl, hplain, Heap.makesAll_of_parts hparts hv, hsame⟩

theorem made_int {n : Int} {before after : Heap} {v : Value}
    (hrun : (answer (ofInt n)).run.run before = (.ok v, after)) : Made (.int n) before v after := by
  obtain ⟨hv, rfl⟩ : ofInt n = .ok v ∧ before = after := Prod.mk.inj hrun
  unfold ofInt at hv
  split at hv
  · next w hw =>
    cases hv
    have hvalue : w.toInt = n := Word.ofInt?_eq_some_iff.mp hw
    exact made_scalar (.int w) rfl (by simp) (beq_iff_eq.mpr hvalue)
  · cases hv

theorem made_text {g : Globals} {s : String} (hs : s.toList.head? ≠ some '@')
    {before after : Heap} {v : Value}
    (hrun : (answer (ofText g s)).run.run before = (.ok v, after)) : Made (.text s) before v after := by
  obtain ⟨hv, rfl⟩ : ofText g s = .ok v ∧ before = after := Prod.mk.inj hrun
  unfold ofText at hv
  split at hv
  · next name hname =>
    rw [reference?_eq_some_iff] at hname
    exact absurd (by rw [hname]; rfl) hs
  · cases hv
    exact made_scalar (.text s) rfl (by simp) (beq_self_eq_true s)

/-- A list is made of the items of a sequence. -/
theorem MadeAll.newList {items : List Tree} {before h : Heap} {vs : List Value}
    (hvs : MadeAll items before vs h) :
    Made (.sequence items) before (.list (h.newList vs.toArray).1) (h.newList vs.toArray).2 := by
  have hmore := h.extends_newList vs.toArray
  have hplain : (h.newList vs.toArray).2.Plain (.list (h.newList vs.toArray).1) := by
    refine .list (by simp [Heap.newList]) fun x hx => ?_
    rw [Heap.list_newList] at hx
    exact (hvs.plain x hx).extends hmore
  refine ⟨hvs.more.trans hmore, hplain, hvs.makesAll.newList hvs.more hvs.plain, ?_⟩
  have hitems : vs.map (h.newList vs.toArray).2.encode = vs.map h.encode :=
    List.map_congr_left fun v hv => (hvs.plain v hv).encode_eq hmore
  rw [hplain.acyclic.encode_list, Heap.list_newList, hitems]
  exact hvs.same

/-- A tuple is made of the items of a sequence under its tag. -/
theorem MadeAll.tuple {items : List Tree} {before after : Heap} {vs : List Value} {tag : String}
    (htag : Yaml.bareTag tag = tupleTag) (hvs : MadeAll items before vs after) :
    Made (.tagged tag (.sequence items)) before (.tuple vs) after := by
  refine ⟨hvs.more, .tuple hvs.plain, hvs.makesAll, ?_⟩
  have hbare : Yaml.bareTag tupleTag = tupleTag := by decide
  rw [Heap.encode_tuple, Tree.same, hbare, htag, beq_self_eq_true, Bool.true_and, Tree.same]
  exact hvs.same

/-- One item more is made before the others. -/
theorem Made.cons {t : Tree} {ts : List Tree} {before h after : Heap} {v : Value}
    {vs : List Value} (hv : Made t before v h) (hvs : MadeAll ts h vs after) :
    MadeAll (t :: ts) before (v :: vs) after where
  more := hv.more.trans hvs.more
  plain := by
    intro x hx
    rcases List.mem_cons.mp hx with rfl | hx
    · exact hv.plain.extends hvs.more
    · exact hvs.plain x hx
  makesAll := hv.makesAll.cons hv.plain hvs.makesAll hv.more hvs.more
  same := by
    rw [List.map_cons, Tree.sameAll, hv.plain.encode_eq hvs.more, hv.same, hvs.same]
    rfl

mutual

/-- Data without references that a literal comes to is made into plain data. -/
theorem made_ofTree (g : Globals) : ∀ {t : Tree},
    (∀ s, t.Visits (.text s) → s.toList.head? ≠ some '@') → ∀ {before after : Heap} {v : Value},
      (ofTree g t).run.run before = (.ok v, after) → Made t before v after
  | .null, _, _, _, _, hrun => by
    cases hrun
    exact made_scalar .null rfl (by simp) rfl
  | .bool b, _, _, _, _, hrun => by
    cases hrun
    exact made_scalar (.bool b) rfl (by simp) (beq_self_eq_true b)
  | .int n, _, before, after, v, hrun => made_int hrun
  | .float x, _, _, _, _, hrun => by cases hrun
  | .text s, hnames, _, _, _, hrun => made_text (hnames s (.self _)) hrun
  | .sequence items, hnames, _, _, _, hrun => by
    rw [ofTree] at hrun
    obtain ⟨vs, h, hitems, hlist⟩ := exists_of_run_bind hrun
    have hvs := madeAll_ofTrees g (fun t ht s hs => hnames s (.item ht hs)) hitems
    cases hlist
    exact hvs.newList
  | .mapping _, _, _, _, _, hrun => by cases hrun
  | .tagged tag (.sequence items), hnames, _, _, _, hrun => by
    rw [ofTree] at hrun
    split at hrun
    · next htag =>
      rw [beq_iff_eq] at htag
      obtain ⟨vs, h, hitems, htuple⟩ := exists_of_run_bind hrun
      have hvs := madeAll_ofTrees g (fun t ht s hs => hnames s (.tupleItem htag ht hs)) hitems
      cases htuple
      exact hvs.tuple htag
    · cases hrun
  | .tagged _ .null, _, _, _, _, hrun | .tagged _ (.bool _), _, _, _, _, hrun
  | .tagged _ (.int _), _, _, _, _, hrun | .tagged _ (.float _), _, _, _, _, hrun
  | .tagged _ (.text _), _, _, _, _, hrun | .tagged _ (.mapping _), _, _, _, _, hrun
  | .tagged _ (.tagged _ _), _, _, _, _, hrun => by cases hrun

theorem madeAll_ofTrees (g : Globals) : ∀ {ts : List Tree},
    (∀ t ∈ ts, ∀ s, t.Visits (.text s) → s.toList.head? ≠ some '@') →
      ∀ {before after : Heap} {vs : List Value},
        (ofTrees g ts).run.run before = (.ok vs, after) → MadeAll ts before vs after
  | [], _, _, _, _, hrun => by
    cases hrun
    exact ⟨Heap.extends_refl _, by simp, Heap.makesAll_of_parts rfl (by simp), rfl⟩
  | t :: ts, hnames, _, _, _, hrun => by
    rw [ofTrees] at hrun
    obtain ⟨v, h, hitem, hmore⟩ := exists_of_run_bind hrun
    obtain ⟨vs, h', hitems, hrow⟩ := exists_of_run_bind hmore
    cases hrow
    exact (made_ofTree g (hnames t List.mem_cons_self) hitem).cons
      (madeAll_ofTrees g (fun u hu => hnames u (List.mem_cons_of_mem t hu)) hitems)

end

end Literal

/-! ## The law -/

/-- No text in the data that a snapshot stands for is a reference. -/
theorem Snapshot.Encodable.head?_ne {s : Snapshot} (hs : s.Encodable) {x : String}
    (hx : s.tree.Visits (.text x)) : x.toList.head? ≠ some '@' := by
  induction hs with
  | null => cases hx
  | bool b => cases hx
  | int n => cases hx
  | text hs =>
    cases hx
    exact hs
  | list _ ih =>
    rw [Snapshot.tree, Snapshot.trees_eq_map] at hx
    cases hx with
    | item ht hu =>
      obtain ⟨s, hs, rfl⟩ := List.mem_map.mp ht
      exact ih s hs hu
  | tuple _ ih =>
    rw [Snapshot.tree, Snapshot.trees_eq_map] at hx
    cases hx with
    | tupleItem _ ht hu =>
      obtain ⟨s, hs, rfl⟩ := List.mem_map.mp ht
      exact ih s hs hu

/-- Plain data without references is encoded as data that is made into the same again, with new lists,
one for each place. And data without references is what the value is encoded as that it is made
into. -/
theorem encoding_and_making_are_inverse (g : Globals) :
    (∀ (h : Heap) (v : Value), h.Plain v →
      (∀ s, h.Holds v (.text s) → s.toList.head? ≠ some '@') →
        ∀ before, ∃ v' after,
          (Literal.ofTree g (h.encode v)).run.run before = (.ok v', after) ∧
            after.Alike h v' v ∧ before.Extends after ∧ before.MakesAll after v') ∧
    ∀ t : Tree, (∀ s, t.Visits (.text s) → s.toList.head? ≠ some '@') →
      ∀ before v after, (Literal.ofTree g t).run.run before = (.ok v, after) →
        after.Plain v ∧ (after.encode v).same t = true := by
  constructor
  · intro h v hv hnames before
    have hs := hv.encodable hnames
    obtain ⟨v', after, hrun, hmore, hplain, hsame⟩ := hs.isMade g before
    have hmade := Literal.made_ofTree g (fun s hx => hs.head?_ne hx) hrun
    exact ⟨v', after, hrun, hplain.alike hv hsame, hmore, hmade.makesAll⟩
  · intro t hnames before v after hrun
    have hmade := Literal.made_ofTree g hnames hrun
    exact ⟨hmade.plain, hmade.same⟩

/-- A list that a tuple holds twice is made twice, and a text under the tag of tuples is given
back. -/
theorem a_list_held_twice_is_made_twice :
    let h : Heap := { lists := #[#[.int 1]] }
    let v : Value := .tuple [.list ⟨0⟩, .list ⟨0⟩]
    let t : Tree := .tagged "!tuple" (.sequence [.text "it's"])
    (h.Plain v ∧ ∀ s, h.Holds v (.text s) → s.toList.head? ≠ some '@') ∧
      (∃ v' after, (Literal.ofTree ∅ (h.encode v)).run.run h = (.ok v', after) ∧
        after.Alike h v' v ∧ h.Extends after ∧ h.MakesAll after v') ∧
      (∀ s, t.Visits (.text s) → s.toList.head? ≠ some '@') ∧
      ∃ v' after, (Literal.ofTree ∅ t).run.run h = (.ok v', after) ∧ after.Plain v' ∧
        (after.encode v').same t = true := by
  intro h v t
  obtain ⟨hencode, hmake⟩ := encoding_and_making_are_inverse ∅
  have hlist : h.Plain (.list ⟨0⟩) := by
    refine .list (by decide) fun x hx => ?_
    obtain rfl : x = .int 1 := by simpa [h, Heap.list] using hx
    exact .int 1
  have hv : h.Plain v := .tuple (by simpa using hlist)
  have hnames : ∀ s, h.Holds v (.text s) → s.toList.head? ≠ some '@' := by
    -- On the way down there is the list, and then the integer in it.
    intro s (hholds : h.Holds (.tuple _) _)
    obtain _ | @⟨_, x, _, hx, hholds⟩ := hholds
    obtain rfl : x = .list ⟨0⟩ := by simpa [Heap.parts] using hx
    obtain _ | @⟨_, x, _, hx, hholds⟩ := hholds
    obtain rfl : x = .int 1 := by simpa [h, Heap.parts, Heap.list] using hx
    obtain _ | ⟨hx, _⟩ := hholds
    cases hx
  have htexts : ∀ s, t.Visits (.text s) → s.toList.head? ≠ some '@' := by
    intro s (hs : Tree.Visits (.tagged _ (.sequence _)) _)
    cases hs with
    | tupleItem _ ht hu =>
      obtain rfl := List.mem_singleton.mp ht
      cases hu
      decide
  exact ⟨⟨hv, hnames⟩, hencode h v hv hnames h, htexts, _, _, rfl, hmake t htexts h _ _ rfl⟩

end Builtins
