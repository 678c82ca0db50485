-- Sums of values of any kind. Values are added within a class: numbers, texts, lists or tuples. A sum
-- fails at the first item that is of another class than the summand that it began with, unless the
-- numbers before that item have left the words.
import Builtins.Proofs.Summing.Numbers
import Builtins.Proofs.Summing.Turns

namespace Builtins

open Builtins.Action

/-! ## Classes -/

/-- What can be added to each other. -/
inductive SummandClass where
  | number
  | text
  | list
  | tuple
deriving DecidableEq

/-- The type of the sums of a class. -/
def SummandClass.typeName : SummandClass → String
  | number => "int"
  | text => "str"
  | list => "list"
  | tuple => "tuple"

namespace Value

/-- The class that a value can be added in, if any. Truth values are numbers. -/
def summandClass? : Value → Option SummandClass
  | .int _ | .bool _ => some .number
  | .text _ => some .text
  | .list _ => some .list
  | .tuple _ => some .tuple
  | _ => none

/-- Whether an item is of the class of a first summand. Without a class there are no fellows. -/
def Fellow (start item : Value) : Prop :=
  start.summandClass?.isSome = true ∧ item.summandClass? = start.summandClass?

instance (start item : Value) : Decidable (start.Fellow item) := inferInstanceAs (Decidable (_ ∧ _))

/-- What a value adds to a sum of numbers. What is no number adds nothing. -/
def worth (v : Value) : Int := v.whole?.getD 0

/-- The type of what a sum has come to after some items: at first that of the first summand, and then
that of the sums of its class. -/
def totalTypeName (start : Value) : Nat → String
  | 0 => start.typeName
  | _ + 1 => (start.summandClass?.map SummandClass.typeName).getD start.typeName

variable {a b v : Value} {n : Int}

theorem Fellow.of_class_eq {c : Value} (hab : a.Fellow b)
    (hclass : c.summandClass? = a.summandClass?) : c.Fellow b :=
  ⟨hclass ▸ hab.1, hab.2.trans hclass.symm⟩

theorem worth_of_whole? (hv : v.whole? = some n) : v.worth = n := by
  unfold worth
  rw [hv]
  rfl

theorem exists_whole?_of_class (hv : v.summandClass? = some .number) : ∃ n, v.whole? = some n := by
  cases v with
  | int n => exact ⟨_, rfl⟩
  | bool b => exact ⟨_, rfl⟩
  | _ => cases hv

theorem worth_of_class_ne (hv : v.summandClass? ≠ some .number) : v.worth = 0 := by
  cases v with
  | int n => exact absurd rfl hv
  | bool b => exact absurd rfl hv
  | _ => rfl

end Value

namespace Heap

variable {h : Heap} {a b start : Value} {items : List Value} {n : Nat}

/-! ## One addition -/

/-- What a value has to be as the sum of two others. -/
structure IsSum (h : Heap) (a b sum : Value) (h' : Heap) : Prop where
  class_eq : sum.summandClass? = a.summandClass?
  typeName : a.summandClass?.map SummandClass.typeName = some sum.typeName
  worth : sum.worth = a.worth + b.worth
  contents : h'.contents sum = h.contents a ++ h.contents b

theorem add_of_numbers {m n : Int} (ha : a.whole? = some m) (hb : b.whole? = some n)
    (hfits : Word.Fits (m + n)) (h : Heap) : ∃ sum, h.add a b = (.ok sum, h) ∧ h.IsSum a b sum h := by
  have hclass : a.summandClass? = some .number ∧ h.contents a = [] := by
    cases a <;> first | exact ⟨rfl, rfl⟩ | cases ha
  have hempty : h.contents b = [] := by
    cases b <;> first | rfl | cases hb
  have hsum : (Value.int (Int64.ofInt (m + n))).whole? = some (m + n) :=
    congrArg some (Word.toInt_ofInt_of_fits hfits)
  refine ⟨.int (Int64.ofInt (m + n)), ?_, hclass.1.symm, by rw [hclass.1]; rfl, ?_, ?_⟩
  · rw [add_of_whole? ha hb]
    unfold Word.ofInt?
    rw [if_pos hfits]
    rfl
  · rw [Value.worth_of_whole? ha, Value.worth_of_whole? hb, Value.worth_of_whole? hsum]
  · rw [hclass.2, hempty]
    rfl

/-- Two values of one class have a sum, if it is a word where they are numbers. -/
theorem add_of_fellow (hab : a.Fellow b) (hfits : Word.Fits (a.worth + b.worth)) (h : Heap) :
    ∃ sum h', h.add a b = (.ok sum, h') ∧ h.IsSum a b sum h' := by
  obtain ⟨hsome, hclass⟩ := hab
  by_cases hnumber : a.summandClass? = some .number
  · obtain ⟨m, hm⟩ := Value.exists_whole?_of_class hnumber
    obtain ⟨n, hn⟩ := Value.exists_whole?_of_class (hclass.trans hnumber)
    rw [Value.worth_of_whole? hm, Value.worth_of_whole? hn] at hfits
    obtain ⟨sum, hadd, hsum⟩ := add_of_numbers hm hn hfits h
    exact ⟨sum, h, hadd, hsum⟩
  · cases a with
    | text s =>
      cases b with
      | text t => exact ⟨_, _, rfl, rfl, rfl, rfl, by simp [contents]⟩
      | _ => cases hclass
    | list l =>
      cases b with
      | list m =>
        refine ⟨.list (h.newList (h.list l ++ h.list m)).1,
          (h.newList (h.list l ++ h.list m)).2, rfl, rfl, rfl, rfl, ?_⟩
        simp only [contents, list_newList, Array.toList_append]
      | _ => cases hclass
    | tuple xs =>
      cases b with
      | tuple ys => exact ⟨_, _, rfl, rfl, rfl, rfl, rfl⟩
      | _ => cases hclass
    | int n => exact absurd rfl hnumber
    | bool b => exact absurd rfl hnumber
    | _ => cases hsome

/-- Numbers whose sum is no word cannot be added. -/
theorem add_of_misfit (hab : a.Fellow b) (hmisfit : ¬ Word.Fits (a.worth + b.worth)) (h : Heap) :
    h.add a b = (.error (.overflow "+"), h) := by
  obtain ⟨-, hclass⟩ := hab
  by_cases hnumber : a.summandClass? = some .number
  · obtain ⟨m, hm⟩ := Value.exists_whole?_of_class hnumber
    obtain ⟨n, hn⟩ := Value.exists_whole?_of_class (hclass.trans hnumber)
    rw [Value.worth_of_whole? hm, Value.worth_of_whole? hn] at hmisfit
    rw [add_of_whole? hm hn]
    unfold Word.ofInt?
    rw [if_neg hmisfit]
    rfl
  · rw [Value.worth_of_class_ne hnumber, Value.worth_of_class_ne (hclass ▸ hnumber)] at hmisfit
    exact absurd (by decide) hmisfit

/-- Values of two classes, or of none, cannot be added. -/
theorem add_of_stranger (hab : ¬ a.Fellow b) (h : Heap) :
    h.add a b = (.error (.operands "+" a.typeName b.typeName), h) := by
  cases a <;> cases b <;> first | rfl | exact absurd ⟨rfl, rfl⟩ hab

/-! ## Additions one after the other -/

/-- What the first `n` items come to, added to a first summand of their class. -/
structure Totals (h : Heap) (start : Value) (items : List Value) (n : Nat) (total : Value)
    (g : Heap) : Prop where
  adds : h.addAll start (items.take n) = (.ok total, g)
  class_eq : total.summandClass? = start.summandClass?
  typeName : total.typeName = start.totalTypeName n
  worth : total.worth = partialSum start.worth (items.map Value.worth) n

theorem partialSum_worth_succ (hn : n < items.length) :
    partialSum start.worth (items.map Value.worth) (n + 1) =
      partialSum start.worth (items.map Value.worth) n + items[n].worth := by
  rw [partialSum_succ _ (by simpa using hn), List.getElem_map]

/-- Items of the class of the first summand add up, as long as the partial sums of numbers are
words. -/
theorem exists_totals (hn : n ≤ items.length) (hfellows : ∀ x ∈ items.take n, start.Fellow x)
    (hfits : SumsFit start.worth (items.map Value.worth) n) (h : Heap) :
    ∃ total g, h.Totals start items n total g := by
  induction n with
  | zero => exact ⟨start, h, rfl, rfl, rfl, (partialSum_zero _ _).symm⟩
  | succ n ih =>
    have hlt : n < items.length := hn
    rw [List.take_succ_eq_append_getElem hlt] at hfellows
    obtain ⟨total, g, htotal⟩ := ih (Nat.le_of_lt hlt)
      (fun x hx => hfellows x (List.mem_append_left _ hx)) fun i hi => hfits i (by omega)
    have hfellow : start.Fellow items[n] :=
      hfellows _ (List.mem_append_right _ List.mem_cons_self)
    have hlast := hfits n (Nat.lt_succ_self n)
    rw [partialSum_worth_succ hlt, ← htotal.worth] at hlast
    obtain ⟨sum, g', hadd, hsum⟩ := add_of_fellow (hfellow.of_class_eq htotal.class_eq) hlast g
    have htype := hsum.typeName
    rw [htotal.class_eq] at htype
    refine ⟨sum, g', ?_, hsum.class_eq.trans htotal.class_eq, ?_, ?_⟩
    · rw [addAll_take_succ hlt, htotal.adds]
      exact hadd
    · simp only [Value.totalTypeName, htype]
      rfl
    · rw [hsum.worth, htotal.worth, partialSum_worth_succ hlt]

end Heap

/-! ## How a sum ends -/

/-- The first of some items that is not of the class of a first summand. -/
structure FirstStranger (start : Value) (items : List Value) (k : Nat) (x : Value) : Prop where
  here : items[k]? = some x
  stranger : ¬ start.Fellow x
  fellows : ∀ y ∈ items.take k, start.Fellow y

theorem exists_firstStranger {start : Value} {items : List Value}
    (hnot : ¬ ∀ x ∈ items, start.Fellow x) : ∃ k x, FirstStranger start items k x := by
  induction items with
  | nil => exact absurd (fun x hx => absurd hx List.not_mem_nil) hnot
  | cons y ys ih =>
    by_cases hy : start.Fellow y
    · obtain ⟨k, x, hx⟩ := ih fun hall => hnot (List.forall_mem_cons.mpr ⟨hy, hall⟩)
      exact ⟨k + 1, x, hx.here, hx.stranger, List.forall_mem_cons.mpr ⟨hy, hx.fellows⟩⟩
    · exact ⟨0, y, rfl, hy, fun _ hz => absurd hz List.not_mem_nil⟩

section Calls

variable {host : Host} {args : List Value} {v start : Value} {source : Source} {w : World}
  {items : List Value} {k n : Nat}

variable (hargs : Builtin.sumArguments args = .ok (v, start)) (hof : Source.of v = .ok source)
  (hahead : w.heap.ahead (w.heap.cursorOf source) = items)
include hargs hof hahead

/-- Items of one class with the first summand have a sum. -/
theorem Host.exists_ends_sum_of_fellows (host : Host) (hfellows : ∀ x ∈ items, start.Fellow x)
    (hfits : SumsFit start.worth (items.map Value.worth) items.length) :
    ∃ total g, w.heap.Totals start items items.length total g ∧
      host.Ends w (.builtin .sum) args (.ok total)
        ⟨(w.heap.taken source (items.length + 1)).2.withLists g, w.output⟩ := by
  obtain ⟨total, g, htotal⟩ := Heap.exists_totals (Nat.le_refl items.length)
    (by rwa [List.take_length]) hfits w.heap
  have hadds := htotal.adds
  rw [List.take_length] at hadds
  exact ⟨total, g, htotal, host.ends_sum_of_loop hargs hof (ends_addLoop_of_ok hahead hadds)⟩

/-- An item of another class is the end of a sum. -/
theorem Host.exists_ends_sum_of_stranger (host : Host) {x : Value}
    (hx : FirstStranger start items k x) (hfits : SumsFit start.worth (items.map Value.worth) k) :
    ∃ total g, w.heap.Totals start items k total g ∧
      host.Ends w (.builtin .sum) args
        (.error (.operands "+" (start.totalTypeName k) x.typeName))
        ⟨(w.heap.taken source (k + 1)).2.withLists g, w.output⟩ := by
  obtain ⟨hlt, rfl⟩ := List.getElem?_eq_some_iff.mp hx.here
  obtain ⟨total, g, htotal⟩ := Heap.exists_totals (Nat.le_of_lt hlt) hx.fellows hfits w.heap
  have hstranger : ¬ total.Fellow items[k] := fun hfellow =>
    hx.stranger (hfellow.of_class_eq htotal.class_eq.symm)
  have hfails := Heap.add_of_stranger hstranger g
  rw [htotal.typeName] at hfails
  exact ⟨total, g, htotal,
    host.ends_sum_of_loop hargs hof (ends_addLoop_of_error hahead hlt htotal.adds hfails)⟩

/-- So is a partial sum of numbers that is no word. -/
theorem Host.exists_ends_sum_of_misfit (host : Host) (hlt : k < items.length)
    (hfellows : ∀ x ∈ items.take (k + 1), start.Fellow x)
    (hfits : SumsFit start.worth (items.map Value.worth) k)
    (hmisfit : ¬ Word.Fits (partialSum start.worth (items.map Value.worth) (k + 1))) :
    ∃ w', host.Ends w (.builtin .sum) args (.error (.overflow "+")) w' := by
  rw [List.take_succ_eq_append_getElem hlt] at hfellows
  obtain ⟨total, g, htotal⟩ := Heap.exists_totals (Nat.le_of_lt hlt)
    (fun x hx => hfellows x (List.mem_append_left _ hx)) hfits w.heap
  have hfellow := (hfellows _ (List.mem_append_right _ List.mem_cons_self)).of_class_eq
    htotal.class_eq
  rw [Heap.partialSum_worth_succ hlt, ← htotal.worth] at hmisfit
  exact ⟨_, host.ends_sum_of_loop hargs hof
    (ends_addLoop_of_error hahead hlt htotal.adds (Heap.add_of_misfit hfellow hmisfit g))⟩

/-- A sum fails for the types of its operands only at a first item of another class. -/
theorem Host.exists_firstStranger_of_ends {operator left right : String} {w' : World}
    (hends : host.Ends w (.builtin .sum) args (.error (.operands operator left right)) w') :
    ∃ k x, FirstStranger start items k x ∧ SumsFit start.worth (items.map Value.worth) k := by
  -- Whatever else happened to be the end of the sum, it would not be this fault.
  have hno : ∀ m ≤ items.length, (∀ x ∈ items.take m, start.Fellow x) →
      SumsFit start.worth (items.map Value.worth) m := by
    intro m hm hfellows
    by_contra hnot
    obtain ⟨k, hk, hfits, hmisfit⟩ := exists_first_misfit hnot
    have hfirst : ∀ x ∈ items.take (k + 1), start.Fellow x := fun x hx =>
      hfellows x ((List.take_subset_take_left items (by omega)) hx)
    obtain ⟨w₁, hover⟩ := host.exists_ends_sum_of_misfit hargs hof hahead (by omega) hfirst hfits
      hmisfit
    cases (hends.unique hover).1
  by_cases hall : ∀ x ∈ items, start.Fellow x
  · have hfits := hno items.length (Nat.le_refl _) (by rwa [List.take_length])
    obtain ⟨total, g, -, hsum⟩ := host.exists_ends_sum_of_fellows hargs hof hahead hall hfits
    cases (hends.unique hsum).1
  · obtain ⟨k, x, hx⟩ := exists_firstStranger hall
    have hlt := (List.getElem?_eq_some_iff.mp hx.here).1
    exact ⟨k, x, hx, hno k (Nat.le_of_lt hlt) hx.fellows⟩

end Calls

/-- A sum of no items is its first summand itself. Else it fails for the types of its operands exactly
if some item is not of the class of the first summand, and no partial sum of numbers before that item
has left the words. The fault names the type of the first such item, and of what the sum has come to:
that is the type of the first summand if there is no item before, and else the one of the sums of its
class. What the sum goes by is where it is when the items up to that one have been taken, so the
others are still ahead; no list is changed, and no line is printed. -/
theorem a_sum_fails_at_the_first_item_of_another_class (host : Host) {args : List Value}
    {v start : Value} {source : Source} {w : World} {items : List Value}
    (hargs : Builtin.sumArguments args = .ok (v, start)) (hof : Source.of v = .ok source)
    (hahead : w.heap.ahead (w.heap.cursorOf source) = items) :
    (items = [] → ∃ w', host.Ends w (.builtin .sum) args (.ok start) w') ∧
      ((∃ operator left right w',
          host.Ends w (.builtin .sum) args (.error (.operands operator left right)) w') ↔
        ∃ k x, FirstStranger start items k x ∧
          SumsFit start.worth (items.map Value.worth) k) ∧
      ∀ k x, FirstStranger start items k x → SumsFit start.worth (items.map Value.worth) k →
        ∃ source' h' w', w.heap.taken source (k + 1) = (source', h') ∧
          host.Ends w (.builtin .sum) args
            (.error (.operands "+" (start.totalTypeName k) x.typeName)) w' ∧
          w'.heap = { h' with lists := w'.heap.lists } ∧ w.heap.Extends w'.heap ∧
          w'.output = w.output ∧ w'.heap.ahead (w'.heap.cursorOf source') = items.drop (k + 1) := by
  refine ⟨?_, ⟨?_, ?_⟩, ?_⟩
  · rintro rfl
    exact ⟨_, host.ends_sum_of_loop hargs hof (ends_addLoop_of_ok hahead rfl)⟩
  · rintro ⟨operator, left, right, w', hends⟩
    exact Host.exists_firstStranger_of_ends hargs hof hahead hends
  · rintro ⟨k, x, hx, hfits⟩
    obtain ⟨total, g, -, hends⟩ := host.exists_ends_sum_of_stranger hargs hof hahead hx hfits
    exact ⟨_, _, _, _, hends⟩
  · intro k x hx hfits
    have hlt := (List.getElem?_eq_some_iff.mp hx.here).1
    obtain ⟨total, g, htotal, hends⟩ := host.exists_ends_sum_of_stranger hargs hof hahead hx hfits
    have hmore := w.heap.extends_addAll start (items.take k)
    rw [htotal.adds] at hmore
    exact ⟨_, _, _, rfl, hends, rfl, ⟨hmore.known, hmore.list⟩, rfl,
      Heap.ahead_taken_withLists hahead hlt hmore⟩

/-- A sum that begins with a truth value has come to an integer when it fails at a text, and the
number behind the text stays ahead of the iterator. -/
theorem a_sum_of_numbers_fails_at_a_text :
    let start : Value := .bool true
    let items : List Value := [.bool true, .int 2, .text "a", .int 3]
    let w : World := { heap := { cursors := #[.tuple items] } }
    let args : List Value := [.iterator ⟨.tuple, ⟨0⟩⟩, start]
    FirstStranger start items 2 (.text "a") ∧ SumsFit start.worth (items.map Value.worth) 2 ∧
      ∃ w', ({} : Host).Ends w (.builtin .sum) args (.error (.operands "+" "int" "str")) w' ∧
        w'.heap.ahead (w'.heap.cursor ⟨0⟩) = [.int 3] := by
  intro start items w args
  have hfirst : FirstStranger start items 2 (.text "a") := by
    refine ⟨rfl, by decide, fun y hy => ?_⟩
    rcases (by simpa [items] using hy : y = .bool true ∨ y = .int 2) with rfl | rfl <;> decide
  have hfits : SumsFit start.worth (items.map Value.worth) 2 := by
    intro i hi
    rcases (by omega : i = 0 ∨ i = 1) with rfl | rfl <;> decide
  have hargs : Builtin.sumArguments args = .ok (.iterator ⟨.tuple, ⟨0⟩⟩, start) := rfl
  have hof : Source.of (.iterator ⟨.tuple, ⟨0⟩⟩) = .ok (.shared ⟨0⟩) := rfl
  have hahead : w.heap.ahead (w.heap.cursorOf (.shared ⟨0⟩)) = items := rfl
  obtain ⟨-, -, hfails⟩ := a_sum_fails_at_the_first_item_of_another_class {} hargs hof hahead
  obtain ⟨source', h', w', htaken, hends, -, -, -, hrest⟩ := hfails 2 _ hfirst hfits
  cases htaken
  exact ⟨hfirst, hfits, w', hends, hrest⟩

end Builtins
