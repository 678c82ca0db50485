-- Sequences as the items that they have. Their length, their truth, what is collected from them and what
-- is found at a place of a list all tell of the same items, and to add sequences is to put their items
-- one behind the other.
import Builtins.Proofs.Summing.Classes

namespace Builtins

open Builtins.Action

/-! ## Sequences -/

/-- What a list, a tuple or a text says of its items: the length is a word, which is the number of them
if that is a word at all. -/
structure World.Sized (host : Host) (w : World) (v : Value) (items : List Value) (length : Word) :
    Prop where
  collected : ∃ fuel, (Action.collect fuel v).Ends w (.ok items.toArray) w
  len : host.Ends w (.builtin .len) [v] (.ok (.int length)) w
  counts : Word.Fits items.length → length.toInt = items.length
  truthy : w.heap.truthy v = true ↔ items ≠ []
  truthy_iff_length : Word.Fits items.length → (w.heap.truthy v = true ↔ length ≠ 0)
  places : ∀ l, v = .list l → ∀ i : Nat, (w.heap.list l)[i]? = items[i]?

namespace Heap

variable {h h' g : Heap} {a b v total : Value} {items : List Value}

/-- A sequence is true if it has items. -/
theorem truthy_iff_contents_ne_nil (h : Heap) (hv : v.isSequence = true) :
    h.truthy v = true ↔ h.contents v ≠ [] := by
  cases v with
  | list l => simp [truthy, contents]
  | tuple items => simp [truthy, contents]
  | text s => simp [truthy, contents]
  | _ => cases hv

theorem length_of_sequence (h : Heap) (hv : v.isSequence = true) :
    Builtin.length h v = .ok (.int (Int64.ofNat (h.contents v).length)) := by
  cases v with
  | list l => simp [Builtin.length, contents]
  | tuple items => rfl
  | text s => simp [Builtin.length, contents, String.length_toList]
  | _ => cases hv

end Heap

theorem Word.toInt_ofNat_of_fits {n : Nat} (hn : Word.Fits n) : (Int64.ofNat n).toInt = n :=
  Word.toInt_ofInt_of_fits hn

theorem World.sized (host : Host) (w : World) {v : Value} (hv : v.isSequence = true) :
    w.Sized host v (w.heap.contents v) (Int64.ofNat (w.heap.contents v).length) where
  collected := by
    have hd := w.heap.drained_along hv 0
    rw [List.drop_zero] at hd
    exact ⟨_, hd.ends_collect (Source.of_sequence hv) (Nat.lt_succ_self _)⟩
  len := ⟨1, ends_ofExcept_iff.mpr ⟨(w.heap.length_of_sequence hv).symm, rfl⟩⟩
  counts := Word.toInt_ofNat_of_fits
  truthy := w.heap.truthy_iff_contents_ne_nil hv
  truthy_iff_length hfits := by
    rw [w.heap.truthy_iff_contents_ne_nil hv]
    refine not_congr ⟨fun hnil => by rw [hnil]; rfl, fun hzero => ?_⟩
    have hlength := Word.toInt_ofNat_of_fits hfits
    rw [hzero] at hlength
    exact List.length_eq_zero_iff.mp (Int.ofNat.inj hlength.symm)
  places := by
    rintro l rfl i
    simp [Heap.contents]

/-! ## Additions -/

namespace Value

variable {a b : Value}

theorem isSequence_of_class_eq (ha : a.isSequence = true)
    (hclass : b.summandClass? = a.summandClass?) : b.isSequence = true := by
  cases a with
  | text s | list l | tuple items => cases b <;> first | rfl | cases hclass
  | _ => cases ha

theorem fellow_of_sequence (ha : a.isSequence = true) (hclass : b.summandClass? = a.summandClass?) :
    a.Fellow b := by
  refine ⟨?_, hclass⟩
  cases a <;> first | rfl | cases ha

/-- A sequence adds nothing to a sum of numbers. -/
theorem worth_of_sequence (ha : a.isSequence = true) : a.worth = 0 := by
  cases a <;> first | rfl | cases ha

end Value

namespace Heap

variable {h h' g : Heap} {a b v total start : Value} {items : List Value}

/-- What an addition comes to is a sum of its two sides. -/
theorem isSum_of_add (hadd : h.add a b = (.ok total, h')) : a.Fellow b ∧ h.IsSum a b total h' := by
  by_cases hab : a.Fellow b
  · by_cases hfits : Word.Fits (a.worth + b.worth)
    · obtain ⟨sum, g, hsum, his⟩ := add_of_fellow hab hfits h
      cases hadd.symm.trans hsum
      exact ⟨hab, his⟩
    · cases hadd.symm.trans (add_of_misfit hab hfits h)
  · cases hadd.symm.trans (add_of_stranger hab h)

/-- A list that an addition comes to is there. -/
theorem known_of_add (hadd : h.add a b = (.ok total, h')) {l : ListId} (hl : total = .list l) :
    l.index < h'.lists.size := by
  subst hl
  unfold add at hadd
  split at hadd
  · cases hadd
  · cases hadd
    exact h.index_newList_lt _
  · cases hadd
  · exact absurd rfl (ne_list_of_addWords (congrArg Prod.fst hadd) l)

/-- New lists are not in the way of what has been there. -/
theorem Extends.contents_eq (hmore : h.Extends h')
    (hv : ∀ l, v = .list l → l.index < h.lists.size) : h'.contents v = h.contents v := by
  cases v with
  | list l => simp only [contents, hmore.list l (hv l rfl)]
  | _ => rfl

/-- What items come to has the items of the first summand, and behind them those of each item. -/
theorem contents_addAll (hadds : h.addAll start items = (.ok total, g))
    (hknown : ∀ l, .list l ∈ start :: items → l.index < h.lists.size) :
    g.contents total = h.contents start ++ items.flatMap h.contents := by
  induction items generalizing h start with
  | nil =>
    cases hadds
    rw [List.flatMap_nil, List.append_nil]
  | cons x items ih =>
    rw [addAll] at hadds
    rcases hadd : h.add start x with ⟨fault | sum, h'⟩ <;> rw [hadd] at hadds
    · cases hadds
    · have hmore := h.extends_add start x
      rw [hadd] at hmore
      have hsame : ∀ y ∈ items, h'.contents y = h.contents y := fun y hy =>
        hmore.contents_eq fun l hl =>
          hknown l (List.mem_cons_of_mem start (List.mem_cons_of_mem x (hl ▸ hy)))
      have hthere : ∀ l, .list l ∈ sum :: items → l.index < h'.lists.size := by
        intro l hl
        rcases List.mem_cons.mp hl with hsum | hl
        · exact known_of_add hadd hsum.symm
        · exact Nat.lt_of_lt_of_le
            (hknown l (List.mem_cons_of_mem start (List.mem_cons_of_mem x hl))) hmore.known
      rw [ih hadds hthere, (isSum_of_add hadd).2.contents, List.flatMap_cons, List.append_assoc,
        List.flatMap_congr hsame]

end Heap

/-- Where nothing is added to a number, all partial sums are words. -/
theorem sumsFit_of_sequences {start : Value} {items : List Value} (hstart : start.isSequence = true)
    (hitems : ∀ x ∈ items, x.isSequence = true) (n : Nat) :
    SumsFit start.worth (items.map Value.worth) n := by
  intro i _
  have hzeros : items.map Value.worth = List.replicate items.length 0 :=
    List.map_eq_replicate_iff.mpr fun x hx => Value.worth_of_sequence (hitems x hx)
  rw [partialSum, Value.worth_of_sequence hstart, hzeros, List.take_replicate]
  simp
  decide

/-! ## Sums of sequences -/

section Sums

variable {host : Host} {v start : Value} {source : Source} {w : World} {items : List Value}

/-- Sequences of one kind add up to a sequence of all their items. The sum changes none of them, and
no other list either. -/
theorem Host.exists_ends_sum_of_sequences (host : Host) (hof : Source.of v = .ok source)
    (hahead : w.heap.ahead (w.heap.cursorOf source) = items) (hstart : start.isSequence = true)
    (hitems : ∀ x ∈ items, x.summandClass? = start.summandClass?)
    (hknown : ∀ l, .list l ∈ start :: items → l.index < w.heap.lists.size) :
    ∃ total w', host.Ends w (.builtin .sum) [v, start] (.ok total) w' ∧
      total.summandClass? = start.summandClass? ∧
      w'.heap.contents total = w.heap.contents start ++ items.flatMap w.heap.contents ∧
      w.heap.Extends w'.heap ∧ w'.output = w.output := by
  have hargs : Builtin.sumArguments [v, start] = .ok (v, start) := rfl
  have hfits := sumsFit_of_sequences hstart
    (fun x hx => Value.isSequence_of_class_eq hstart (hitems x hx)) items.length
  obtain ⟨total, g, htotal, hends⟩ := host.exists_ends_sum_of_fellows hargs hof hahead
    (fun x hx => Value.fellow_of_sequence hstart (hitems x hx)) hfits
  have hadds := htotal.adds
  rw [List.take_length] at hadds
  have hmore := w.heap.extends_addAll start items
  rw [hadds] at hmore
  refine ⟨total, _, hends, htotal.class_eq, ?_, ⟨hmore.known, hmore.list⟩, rfl⟩
  rw [← Heap.contents_addAll hadds hknown]
  cases total <;> rfl

/-- A text is the text of its characters. -/
theorem Value.eq_text_of_contents {total : Value} {h h' : Heap} {s : String}
    (hclass : total.summandClass? = some .text)
    (hcontents : h.contents total = h'.contents (.text s)) : total = .text s := by
  cases total with
  | text t =>
    have hchars : t.toList = s.toList :=
      List.map_injective_iff.mpr (fun c d hcd => by
        simpa using congrArg String.toList (Value.text.inj hcd)) hcontents
    rw [String.toList_inj.mp hchars]
  | _ => cases hclass

/-- The characters of a text add up to the text. -/
theorem Host.exists_ends_sum_of_characters (host : Host) (w : World) (s : String) :
    ∃ w', host.Ends w (.builtin .sum) [.text s, .text ""] (.ok (.text s)) w' := by
  have hall : ∀ x ∈ w.heap.contents (.text s), ∃ c, x = .text (String.singleton c) := by
    intro x hx
    obtain ⟨c, -, rfl⟩ := List.mem_map.mp hx
    exact ⟨c, rfl⟩
  have hof : Source.of (.text s) = .ok (.own (.text s.toList)) := rfl
  have hahead : w.heap.ahead (w.heap.cursorOf (.own (.text s.toList))) =
      w.heap.contents (.text s) := rfl
  have hstart : (Value.text "").isSequence = true := rfl
  have hitems : ∀ x ∈ w.heap.contents (.text s),
      x.summandClass? = (Value.text "").summandClass? := by
    intro x hx
    obtain ⟨c, rfl⟩ := hall x hx
    rfl
  have hknown : ∀ l, .list l ∈ .text "" :: w.heap.contents (.text s) →
      l.index < w.heap.lists.size := by
    intro l hl
    rcases List.mem_cons.mp hl with hl | hl
    · cases hl
    · obtain ⟨c, hc⟩ := hall _ hl
      cases hc
  obtain ⟨total, w', hends, hclass, hcontents, -, -⟩ :=
    host.exists_ends_sum_of_sequences hof hahead hstart hitems hknown
  have hsame : w'.heap.contents total = w.heap.contents (.text s) := by
    have hone : ∀ x ∈ w.heap.contents (.text s), w.heap.contents x = [x] := by
      intro x hx
      obtain ⟨c, rfl⟩ := hall x hx
      simp [Heap.contents]
    rw [hcontents, List.flatMap_congr hone]
    simp [Heap.contents]
  exact ⟨w', Value.eq_text_of_contents hclass hsame ▸ hends⟩

end Sums

/-- A list, a tuple or a text has some items, and is collected, measured, judged and, if it is a list,
looked up by them. Two of one kind, which may be one and the same, add up to one that has the items of
the first and then those of the second, and its length is the sum of their lengths. The characters of a
text add up to the text, and whatever is iterated over, if its items are all of the kind of a first
summand, adds up to the items of that and those of each item in order; no list that there was is
another afterwards, however often it is among them. -/
theorem sequences_are_coherent (host : Host) (w : World) :
    (∀ a : Value, a.isSequence = true →
        w.Sized host a (w.heap.contents a) (Int64.ofNat (w.heap.contents a).length)) ∧
      (∀ a b : Value, a.isSequence = true → b.summandClass? = a.summandClass? →
        ∃ c h', w.heap.add a b = (.ok c, h') ∧ c.summandClass? = a.summandClass? ∧
          w.heap.Extends h' ∧
          World.Sized host ⟨h', w.output⟩ c (w.heap.contents a ++ w.heap.contents b)
            (Int64.ofNat (w.heap.contents a).length + Int64.ofNat (w.heap.contents b).length)) ∧
      (∀ s, ∃ w', host.Ends w (.builtin .sum) [.text s, .text ""] (.ok (.text s)) w') ∧
      ∀ v start source items, Source.of v = .ok source →
        w.heap.ahead (w.heap.cursorOf source) = items → start.isSequence = true →
        (∀ x ∈ items, x.summandClass? = start.summandClass?) →
        (∀ l, .list l ∈ start :: items → l.index < w.heap.lists.size) →
        ∃ total w', host.Ends w (.builtin .sum) [v, start] (.ok total) w' ∧
          total.summandClass? = start.summandClass? ∧
          w'.Sized host total (w.heap.contents start ++ items.flatMap w.heap.contents)
            (Int64.ofNat (w.heap.contents start ++ items.flatMap w.heap.contents).length) ∧
          w.heap.Extends w'.heap ∧ w'.output = w.output := by
  refine ⟨fun a ha => w.sized host ha, ?_, host.exists_ends_sum_of_characters w, ?_⟩
  · intro a b ha hclass
    have hworth : a.worth + b.worth = 0 := by
      rw [Value.worth_of_sequence ha,
        Value.worth_of_sequence (Value.isSequence_of_class_eq ha hclass), Int.add_zero]
    obtain ⟨c, h', hadd, hsum⟩ := Heap.add_of_fellow (Value.fellow_of_sequence ha hclass)
      (hworth ▸ by decide) w.heap
    have hmore := w.heap.extends_add a b
    rw [hadd] at hmore
    have hsized := World.sized host ⟨h', w.output⟩ (Value.isSequence_of_class_eq ha hsum.class_eq)
    rw [hsum.contents, List.length_append, Int64.ofNat_add] at hsized
    exact ⟨c, h', hadd, hsum.class_eq, hmore, hsized⟩
  · intro v start source items hof hahead hstart hitems hknown
    obtain ⟨total, w', hends, hclass, hcontents, hmore, houtput⟩ :=
      host.exists_ends_sum_of_sequences hof hahead hstart hitems hknown
    have hsized := w'.sized host (Value.isSequence_of_class_eq hstart hclass)
    rw [hcontents] at hsized
    exact ⟨total, w', hends, hclass, hsized, hmore, houtput⟩

/-- One list is the first summand and each of two items, and is not changed by the sum. -/
theorem a_list_adds_up_with_itself :
    let w : World := { heap := { lists := #[#[.int 7]] } }
    let v : Value := .list ⟨0⟩
    ∃ total w', ({} : Host).Ends w (.builtin .sum) [.tuple [v, v], v] (.ok total) w' ∧
      w'.Sized {} total [.int 7, .int 7, .int 7] 3 ∧ w'.heap.list ⟨0⟩ = #[.int 7] := by
  intro w v
  obtain ⟨-, -, -, hsums⟩ := sequences_are_coherent {} w
  have hitems : ∀ x ∈ [v, v], x.summandClass? = v.summandClass? := by simp
  have hknown : ∀ l, .list l ∈ [v, v, v] → l.index < w.heap.lists.size := by
    intro l hl
    obtain rfl : l = ⟨0⟩ := by simpa [v] using hl
    exact Nat.zero_lt_one
  obtain ⟨total, w', hends, -, hsized, hmore, -⟩ :=
    hsums (.tuple [v, v]) v (.own (.tuple [v, v])) [v, v] rfl rfl rfl hitems hknown
  exact ⟨total, w', hends, hsized, hmore.list ⟨0⟩ Nat.zero_lt_one⟩

end Builtins
