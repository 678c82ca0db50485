-- Additions of three values and of two. How three values are grouped does not matter unless an
-- integer leaves the words on the way, and two values that cannot be added cannot be added the
-- other way round either. An addition makes at most one new list and leaves all that there is as it
-- was.
import Builtins.Proofs.Sequence.Sized
import Builtins.Proofs.Snapshot.Depths

namespace Builtins

namespace Value

variable {a b c : Value}

theorem Fellow.symm (hab : a.Fellow b) : b.Fellow a := ⟨hab.2 ▸ hab.1, hab.2.symm⟩

/-- Values of one class have the same fellows. -/
theorem fellow_iff_of_class_eq (hclass : b.summandClass? = a.summandClass?) :
    b.Fellow c ↔ a.Fellow c := by
  unfold Fellow
  rw [hclass]

theorem fellow_right_iff_of_class_eq (hclass : c.summandClass? = b.summandClass?) :
    a.Fellow c ↔ a.Fellow b := by
  unfold Fellow
  rw [hclass]

end Value

namespace Heap

variable {h h' g g' : Heap} {a b c v v' sum sum' : Value}

/-- What three values come to when the last two are added first. -/
def addNested (h : Heap) (a b c : Value) : Except Fault Value × Heap :=
  match h.add b c with
  | (.ok sum, h) => h.add a sum
  | (.error fault, h) => (.error fault, h)

theorem addNested_of_ok {bc : Value} (hbc : h.add b c = (.ok bc, g)) :
    h.addNested a b c = g.add a bc := by
  rw [addNested, hbc]

theorem addNested_of_error {fault : Fault} (hbc : h.add b c = (.error fault, g)) :
    h.addNested a b c = (.error fault, g) := by
  rw [addNested, hbc]

theorem addAll_pair_of_ok {ab : Value} (hab : h.add a b = (.ok ab, g)) :
    h.addAll a [b, c] = g.add ab c := by
  simp only [addAll, hab]
  rcases g.add ab c with ⟨fault | sum, g'⟩ <;> rfl

theorem addAll_pair_of_error {fault : Fault} (hab : h.add a b = (.error fault, g)) :
    h.addAll a [b, c] = (.error fault, g) := by
  rw [addAll, hab]

/-! ## One addition -/

/-- Two values have a sum, or they are numbers whose sum is no word, or they do not go together. -/
theorem add_cases (h : Heap) (a b : Value) :
    (∃ sum h', h.add a b = (.ok sum, h') ∧ a.Fellow b ∧ h.IsSum a b sum h') ∨
      (h.add a b = (.error (.overflow "+"), h) ∧ a.Fellow b ∧ a.summandClass? = some .number) ∨
      h.add a b = (.error (.operands "+" a.typeName b.typeName), h) ∧ ¬ a.Fellow b := by
  by_cases hab : a.Fellow b
  · by_cases hfits : Word.Fits (a.worth + b.worth)
    · obtain ⟨sum, h', hadd, hsum⟩ := add_of_fellow hab hfits h
      exact Or.inl ⟨sum, h', hadd, hab, hsum⟩
    · have hnumber : a.summandClass? = some .number := by
        by_contra hne
        rw [Value.worth_of_class_ne hne, Value.worth_of_class_ne (hab.2 ▸ hne)] at hfits
        exact hfits (by decide)
      exact Or.inr (Or.inl ⟨add_of_misfit hab hfits h, hab, hnumber⟩)
  · exact Or.inr (Or.inr ⟨add_of_stranger hab h, hab⟩)

theorem exists_add_of_fellow (hab : a.Fellow b) (hfits : (h.add a b).1 ≠ .error (.overflow "+")) :
    ∃ sum h', h.add a b = (.ok sum, h') := by
  rcases h.add_cases a b with ⟨sum, h', hadd, -⟩ | ⟨hadd, -⟩ | ⟨-, hstranger⟩
  · exact ⟨sum, h', hadd⟩
  · exact absurd (congrArg Prod.fst hadd) hfits
  · exact absurd hab hstranger

/-- An addition changes nothing but that there may be a list more. -/
theorem add_eq_withLists (h : Heap) (a b : Value) :
    (h.add a b).2 = { h with lists := (h.add a b).2.lists } := by
  rcases h.add_eq a b with he | ⟨items, he⟩ <;> rw [he]
  rfl

/-! ## Sums that are the same -/

/-- Sums of one class that are worth the same and have the same contents agree. -/
theorem agrees_of_sums (hclass : v'.summandClass? = v.summandClass?)
    (htype : v.summandClass?.map SummandClass.typeName = some v.typeName)
    (htype' : v'.summandClass?.map SummandClass.typeName = some v'.typeName)
    (hworth : v.worth = v'.worth) (hcontents : h.contents v = g.contents v')
    (hv : ∀ l, v = .list l → l.index < h.lists.size)
    (hv' : ∀ l, v' = .list l → l.index < g.lists.size) : h.Agrees v g v' := by
  cases v with
  | int m =>
    cases v' with
    | int n => exact congrArg Value.int (Int64.toInt_inj.mp hworth)
    | bool b => simp [Value.summandClass?, SummandClass.typeName, Value.typeName] at htype'
    | _ => cases hclass
  | text s =>
    have htext : v' = .text s := Value.eq_text_of_contents hclass hcontents.symm
    exact htext.symm
  | list l =>
    cases v' with
    | list m => exact ⟨hv l rfl, hv' m rfl, Array.toList_inj.mp hcontents⟩
    | _ => cases hclass
  | tuple xs =>
    cases v' with
    | tuple ys => exact congrArg Value.tuple hcontents
    | _ => cases hclass
  | _ => simp [Value.summandClass?, SummandClass.typeName, Value.typeName] at htype

/-- Values that agree look like each other if what they are made of does. -/
theorem Agrees.looksLike (hsame : h.Agrees v g v') (hparts : ∀ x ∈ h.parts v, h.LooksLike g x x) :
    h.LooksLike g v v' := by
  cases v with
  | list l =>
    obtain ⟨m, rfl⟩ := hsame.exists_list
    intro depth
    cases depth with
    | zero => rfl
    | succ depth =>
      simp only [Value.snapshotWith, listSnapshot, Value.snapshotsWith_eq_map, ← hsame.2.2]
      exact congrArg Snapshot.list (List.map_congr_left fun x hx => hparts x hx depth)
  | tuple items =>
    obtain rfl : Value.tuple items = v' := hsame
    intro depth
    simp only [Value.snapshotWith, Value.snapshotsWith_eq_map]
    exact congrArg Snapshot.tuple (List.map_congr_left fun x hx => hparts x hx depth)
  | exception id kind payload =>
    obtain rfl : Value.exception id kind payload = v' := hsame
    intro depth
    simp only [Value.snapshotWith, Value.snapshotsWith_eq_map]
    exact congrArg (Snapshot.exception kind) (List.map_congr_left fun x hx => hparts x hx depth)
  | _ =>
    subst hsame
    exact fun _ => rfl

/-- What a sequence that a heap knows has in it is known as well. -/
theorem Closed.knows_contents (hh : h.Closed) (hv : h.Knows v) {x : Value} (hx : x ∈ h.contents v) :
    h.Knows x := by
  cases v with
  | list l => exact hh.knows_items hv hx
  | tuple items => exact knowsAll_iff.mp hv x hx
  | text s =>
    obtain ⟨c, -, rfl⟩ := List.mem_map.mp hx
    trivial
  | _ => cases hx

theorem parts_subset_contents (hv : v.summandClass?.isSome = true) : h.parts v ⊆ h.contents v := by
  cases v <;> first | exact fun _ hx => hx | exact List.nil_subset _ | cases hv

theorem Extends.contents_of_knows (hmore : h.Extends g) (hv : h.Knows v) :
    g.contents v = h.contents v :=
  hmore.contents_eq fun l hl => by
    rw [hl] at hv
    exact hv

/-! ## Additions of three values -/

/-- What three values come to looks the same in whichever way they are grouped. -/
theorem looksLike_of_adds {ab bc : Value} {h₁ g₁ : Heap} (hh : h.Closed) (ha : h.Knows a)
    (hb : h.Knows b) (hc : h.Knows c) (hmore : h.Extends g) (hab : h.add a b = (.ok ab, h₁))
    (habc : h₁.add ab c = (.ok sum, h')) (hbc : g.add b c = (.ok bc, g₁))
    (habc' : g₁.add a bc = (.ok sum', g')) : h'.LooksLike g' sum sum' := by
  obtain ⟨-, hinner⟩ := isSum_of_add hab
  obtain ⟨hfellow, houter⟩ := isSum_of_add habc
  obtain ⟨-, hinner'⟩ := isSum_of_add hbc
  obtain ⟨-, houter'⟩ := isSum_of_add habc'
  have hh₁ : h.Extends h₁ := by simpa [hab] using h.extends_add a b
  have hh' : h₁.Extends h' := by simpa [habc] using h₁.extends_add ab c
  have hg₁ : g.Extends g₁ := by simpa [hbc] using g.extends_add b c
  have hg' : g₁.Extends g' := by simpa [habc'] using g₁.extends_add a bc
  have hclass : sum.summandClass? = a.summandClass? := houter.class_eq.trans hinner.class_eq
  have hclass' : sum'.summandClass? = a.summandClass? := houter'.class_eq
  have htype := houter.typeName
  rw [← houter.class_eq] at htype
  have htype' := houter'.typeName
  rw [← houter'.class_eq] at htype'
  have hworth : sum.worth = sum'.worth := by
    rw [houter.worth, hinner.worth, houter'.worth, hinner'.worth, Int.add_assoc]
  have hcontents : h'.contents sum = h.contents a ++ h.contents b ++ h.contents c := by
    rw [houter.contents, hinner.contents, hh₁.contents_of_knows hc]
  have hcontents' : g'.contents sum' = h.contents a ++ h.contents b ++ h.contents c := by
    rw [houter'.contents, hinner'.contents, (hmore.trans hg₁).contents_of_knows ha,
      hmore.contents_of_knows hb, hmore.contents_of_knows hc, List.append_assoc]
  have hsame : h'.Agrees sum g' sum' :=
    agrees_of_sums (hclass'.trans hclass.symm) htype htype' hworth
      (hcontents.trans hcontents'.symm) (fun _ => known_of_add habc) (fun _ => known_of_add habc')
  refine hsame.looksLike fun x hx => ?_
  have hsome : sum.summandClass?.isSome = true := houter.class_eq ▸ hfellow.1
  have hmem := parts_subset_contents hsome hx
  rw [hcontents, List.mem_append, List.mem_append] at hmem
  have hknown : h.Knows x := by
    rcases hmem with (hx | hx) | hx
    · exact hh.knows_contents ha hx
    · exact hh.knows_contents hb hx
    · exact hh.knows_contents hc hx
  exact hknown.looksLike hh (hh₁.trans hh') (hmore.trans (hg₁.trans hg'))

/-- Three values have a sum in both groupings, or in neither, as long as no integer leaves the
words. -/
theorem regrouped (hh : h.Closed) (ha : h.Knows a) (hb : h.Knows b) (hc : h.Knows c)
    (hmore : h.Extends g) (hab : (h.add a b).1 ≠ .error (.overflow "+"))
    (hbc : (g.add b c).1 ≠ .error (.overflow "+"))
    (hleft : (h.addAll a [b, c]).1 ≠ .error (.overflow "+"))
    (hright : (g.addNested a b c).1 ≠ .error (.overflow "+")) :
    (∃ sum sum' h' g', h.addAll a [b, c] = (.ok sum, h') ∧ g.addNested a b c = (.ok sum', g') ∧
        h'.LooksLike g' sum sum') ∨
      ∃ x y x' y' h' g', h.addAll a [b, c] = (.error (.operands "+" x y), h') ∧
        g.addNested a b c = (.error (.operands "+" x' y'), g') := by
  by_cases hfirst : a.Fellow b
  · obtain ⟨ab, h₁, hadd⟩ := exists_add_of_fellow hfirst hab
    have hclass : ab.summandClass? = b.summandClass? :=
      (isSum_of_add hadd).2.class_eq.trans hfirst.2.symm
    rw [addAll_pair_of_ok hadd] at hleft ⊢
    by_cases hlast : b.Fellow c
    · obtain ⟨bc, g₁, hadd'⟩ := exists_add_of_fellow hlast hbc
      rw [addNested_of_ok hadd'] at hright ⊢
      have hclass' := (isSum_of_add hadd').2.class_eq
      obtain ⟨sum, h', hsum⟩ :=
        exists_add_of_fellow ((Value.fellow_iff_of_class_eq hclass).mpr hlast) hleft
      obtain ⟨sum', g', hsum'⟩ :=
        exists_add_of_fellow ((Value.fellow_right_iff_of_class_eq hclass').mpr hfirst) hright
      exact Or.inl ⟨sum, sum', h', g', hsum, hsum',
        looksLike_of_adds hh ha hb hc hmore hadd hsum hadd' hsum'⟩
    · have hstranger : ¬ ab.Fellow c := mt (Value.fellow_iff_of_class_eq hclass).mp hlast
      exact Or.inr ⟨_, _, _, _, _, _, add_of_stranger hstranger h₁,
        addNested_of_error (add_of_stranger hlast g)⟩
  · have hfails := addAll_pair_of_error (c := c) (add_of_stranger hfirst h)
    by_cases hlast : b.Fellow c
    · obtain ⟨bc, g₁, hadd'⟩ := exists_add_of_fellow hlast hbc
      have hclass' := (isSum_of_add hadd').2.class_eq
      have hstranger : ¬ a.Fellow bc := mt (Value.fellow_right_iff_of_class_eq hclass').mp hfirst
      rw [addNested_of_ok hadd']
      exact Or.inr ⟨_, _, _, _, _, _, hfails, add_of_stranger hstranger g₁⟩
    · exact Or.inr ⟨_, _, _, _, _, _, hfails, addNested_of_error (add_of_stranger hlast g)⟩

/-! ## Additions of two values -/

/-- What an addition that has a sum leaves behind: two values of one class as they were, and a list
of its own if they are lists. -/
structure Added (h : Heap) (a b sum : Value) (h' : Heap) : Prop where
  fellows : a.Fellow b
  keeps : h.Extends h'
  rest : h' = { h with lists := h'.lists }
  left : h.LooksLike h' a a
  right : h.LooksLike h' b b
  fresh : ∀ l m, a = .list l → b = .list m → ∃ k, sum = .list k ∧ h.lists.size ≤ k.index ∧
    k.index < h'.lists.size ∧ ∀ (later : Heap) (x : Value),
      (later.append k x).list l = later.list l ∧ (later.append k x).list m = later.list m ∧
        (later.append l x).list k = later.list k ∧ (later.append m x).list k = later.list k

theorem added_of_add (hh : h.Closed) (ha : h.Knows a) (hb : h.Knows b)
    (hadd : h.add a b = (.ok sum, h')) : h.Added a b sum h' := by
  have hmore : h.Extends h' := by simpa [hadd] using h.extends_add a b
  refine ⟨(isSum_of_add hadd).1, hmore, ?_, ha.looksLike hh h.extends_refl hmore,
    hb.looksLike hh h.extends_refl hmore, ?_⟩
  · have hrest := h.add_eq_withLists a b
    rwa [hadd] at hrest
  · rintro l m rfl rfl
    cases hadd
    have hl : l.index < h.lists.size := ha
    have hm : m.index < h.lists.size := hb
    -- The index of the new list is the number of lists that there were.
    have hkl : (⟨h.lists.size⟩ : ListId) ≠ l := by
      rintro rfl
      exact Nat.lt_irrefl _ hl
    have hkm : (⟨h.lists.size⟩ : ListId) ≠ m := by
      rintro rfl
      exact Nat.lt_irrefl _ hm
    exact ⟨_, rfl, Nat.le_refl _, h.index_newList_lt _, fun later x =>
      ⟨list_append_of_ne later x hkl, list_append_of_ne later x hkm,
        list_append_of_ne later x hkl.symm, list_append_of_ne later x hkm.symm⟩⟩

theorem add_swap_of_numbers (ha : a.summandClass? = some .number)
    (hb : b.summandClass? = some .number) (h : Heap) :
    (∃ n, h.add a b = (.ok (.int n), h) ∧ h.add b a = (.ok (.int n), h)) ∨
      h.add a b = (.error (.overflow "+"), h) ∧ h.add b a = (.error (.overflow "+"), h) := by
  obtain ⟨m, hm⟩ := Value.exists_whole?_of_class ha
  obtain ⟨n, hn⟩ := Value.exists_whole?_of_class hb
  rw [add_of_whole? hm hn, add_of_whole? hn hm, Int.add_comm n m]
  cases Word.ofInt? (m + n) with
  | some sum => exact Or.inl ⟨sum, rfl, rfl⟩
  | none => exact Or.inr ⟨rfl, rfl⟩

theorem add_swap_of_others
    (hnot : ¬ (a.summandClass? = some .number ∧ b.summandClass? = some .number)) (h : Heap) :
    (∃ sum h' sum' g', h.add a b = (.ok sum, h') ∧ h.add b a = (.ok sum', g')) ∨
      h.add a b = (.error (.operands "+" a.typeName b.typeName), h) ∧
        h.add b a = (.error (.operands "+" b.typeName a.typeName), h) := by
  rcases h.add_cases a b with
    ⟨sum, h', hadd, hfellow, -⟩ | ⟨-, hfellow, hnumber⟩ | ⟨hadd, hstranger⟩
  · have hfits : (h.add b a).1 ≠ .error (.overflow "+") := by
      rcases h.add_cases b a with ⟨sum', g', hadd', -⟩ | ⟨-, -, hnumber⟩ | ⟨-, hstranger⟩
      · simp [hadd']
      · exact absurd ⟨hfellow.2.symm.trans hnumber, hnumber⟩ hnot
      · exact absurd hfellow.symm hstranger
    obtain ⟨sum', g', hadd'⟩ := exists_add_of_fellow hfellow.symm hfits
    exact Or.inl ⟨sum, h', sum', g', hadd, hadd'⟩
  · exact absurd ⟨hnumber, hfellow.2.trans hnumber⟩ hnot
  · exact Or.inr ⟨hadd, add_of_stranger (mt Value.Fellow.symm hstranger) h⟩

end Heap

/-- Three values that a heap knows have a sum whether the first two or the last two are added first,
and the two sums look the same, or they have none in either case, for the types of some operands.
That holds as long as no integer leaves the words, and it does not matter whether the second
grouping is worked out in the heap that there was or in one with more lists, such as the first has
left. Two numbers have one sum in either order, or leave the words in either order; two other values
have a sum in both orders or in neither, and then the types are named in the order of the operands.
Whatever has a sum is of one class with what it is added to, and stays as it was; the sum of two
lists is a new list, and neither of the two is changed by what is put behind the sum later on, nor
the sum by what is put behind one of the two. -/
theorem sums_may_be_regrouped_and_turned_round {h : Heap} (hh : h.Closed) :
    (∀ a b c g, h.Knows a → h.Knows b → h.Knows c → h.Extends g →
        (h.add a b).1 ≠ .error (.overflow "+") → (g.add b c).1 ≠ .error (.overflow "+") →
        (h.addAll a [b, c]).1 ≠ .error (.overflow "+") →
        (g.addNested a b c).1 ≠ .error (.overflow "+") →
        (∃ sum sum' h' g', h.addAll a [b, c] = (.ok sum, h') ∧
            g.addNested a b c = (.ok sum', g') ∧ h'.LooksLike g' sum sum') ∨
          ∃ x y x' y' h' g', h.addAll a [b, c] = (.error (.operands "+" x y), h') ∧
            g.addNested a b c = (.error (.operands "+" x' y'), g')) ∧
      (∀ a b : Value, a.summandClass? = some .number → b.summandClass? = some .number →
        (∃ n, h.add a b = (.ok (.int n), h) ∧ h.add b a = (.ok (.int n), h)) ∨
          h.add a b = (.error (.overflow "+"), h) ∧ h.add b a = (.error (.overflow "+"), h)) ∧
      (∀ a b : Value, ¬ (a.summandClass? = some .number ∧ b.summandClass? = some .number) →
        (∃ sum h' sum' g', h.add a b = (.ok sum, h') ∧ h.add b a = (.ok sum', g')) ∨
          h.add a b = (.error (.operands "+" a.typeName b.typeName), h) ∧
            h.add b a = (.error (.operands "+" b.typeName a.typeName), h)) ∧
      ∀ a b sum h', h.Knows a → h.Knows b → h.add a b = (.ok sum, h') → h.Added a b sum h' := by
  refine ⟨?grouped, ?numbers, ?others, ?added⟩
  case grouped =>
    intro a b c g ha hb hc hmore hab hbc hleft hright
    exact Heap.regrouped hh ha hb hc hmore hab hbc hleft hright
  case numbers => exact fun a b ha hb => Heap.add_swap_of_numbers ha hb h
  case others => exact fun a b hnot => Heap.add_swap_of_others hnot h
  case added => exact fun a b sum h' ha hb hadd => Heap.added_of_add hh ha hb hadd

/-- A list is the first and the last of three, and the groupings are worked out one after the other.
-/
theorem a_list_is_added_on_both_sides :
    let h : Heap := { lists := #[#[.int 1], #[.text "a"]] }
    let a : Value := .list ⟨0⟩
    let b : Value := .list ⟨1⟩
    let h' := (h.addAll a [b, a]).2
    (∃ sum sum' g', h.addAll a [b, a] = (.ok sum, h') ∧ h'.addNested a b a = (.ok sum', g') ∧
        h'.LooksLike g' sum sum') ∧
      (h.add (.bool true) (.int 9223372036854775807) = (.error (.overflow "+"), h)) ∧
      h.add (.text "b") a = (.error (.operands "+" "str" "list"), h) ∧
      h.Added a b (.list ⟨2⟩) (h.add a b).2 := by
  intro h a b h'
  have hh : h.Closed := by
    constructor
    · intro items hitems v hv
      rcases (by simpa [h] using hitems : items = #[.int 1] ∨ items = #[.text "a"]) with rfl | rfl
      · obtain rfl : v = .int 1 := by simpa using hv
        trivial
      · obtain rfl : v = .text "a" := by simpa using hv
        trivial
    · simp [h]
  have ha : h.Knows a := Nat.zero_lt_two
  have hb : h.Knows b := Nat.one_lt_two
  obtain ⟨hgrouped, hnumbers, hothers, hadded⟩ := sums_may_be_regrouped_and_turned_round hh
  refine ⟨?_, ?_, ?_, hadded a b _ _ ha hb rfl⟩
  · have hsums := hgrouped a b a h' ha hb ha (h.extends_addAll a [b, a]) nofun nofun nofun nofun
    rcases hsums with ⟨sum, sum', h₁, g', hleft, hright, hsame⟩ | ⟨x, y, x', y', h₁, g', hleft, -⟩
    · obtain rfl : h' = h₁ := congrArg Prod.snd hleft
      exact ⟨sum, sum', g', hleft, hright, hsame⟩
    · cases hleft
  · rcases hnumbers (.bool true) (.int 9223372036854775807) rfl rfl with ⟨n, hsum, -⟩ | ⟨hover, -⟩
    · cases hsum
    · exact hover
  · rcases hothers (.text "b") a (by decide) with ⟨sum, h₁, sum', g', hsum, -⟩ | ⟨hno, -⟩
    · cases hsum
    · exact hno

end Builtins
