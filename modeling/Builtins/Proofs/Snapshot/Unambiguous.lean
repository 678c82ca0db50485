-- The text of plain data says what the data is. Its first character tells the kind, and from there
-- the text is read off item by item, because a text ends where a comma or a bracket comes after it.
import Builtins.Proofs.Snapshot.Alike
import Builtins.Proofs.Snapshot.Chars
import Builtins.Proofs.Text.Quoted

namespace Builtins

namespace Snapshot

/-! ## Kinds -/

/-- What the texts of plain data of one kind have in common at their beginning. -/
def opening : Snapshot → Char
  | null => 'N'
  | bool _ => 'T'
  | int _ => '0'
  | text _ => '\''
  | list _ => '['
  | tuple _ => '('
  | _ => '<'

/-- The opening of a kind that a character belongs to. -/
def openingOf (c : Char) : Char :=
  if c.isDigit ∨ c = '-' then '0'
  else if c = '"' then '\''
  else if c = 'F' then 'T'
  else c

theorem openingOf_numeral {c : Char} (hc : IsNumeral c) : openingOf c = '0' := if_pos hc

/-- The text of plain data begins in the way of its kind. -/
theorem Plain.begins {s : Snapshot} (hs : s.Plain) :
    ∃ c rest, s.chars = c :: rest ∧ openingOf c = s.opening := by
  cases hs with
  | null => exact ⟨'N', "one".toList, by decide, rfl⟩
  | bool b =>
    cases b with
    | true => exact ⟨'T', "rue".toList, by decide, rfl⟩
    | false => exact ⟨'F', "alse".toList, by decide, rfl⟩
  | int n =>
    obtain ⟨c, rest, hchars⟩ := List.exists_cons_of_ne_nil (chars_int_ne_nil n)
    have hc : c ∈ (Snapshot.int n).chars := by
      rw [hchars]
      exact List.mem_cons_self
    exact ⟨c, rest, hchars, openingOf_numeral (isNumeral_of_mem_chars hc)⟩
  | text s =>
    refine ⟨_, _, chars_text s, ?_⟩
    rcases Text.Quoted.quoteOf_eq s.toList with hq | hq <;> rw [hq] <;> rfl
  | @list items _ =>
    cases items with
    | nil => exact ⟨_, _, chars_list_nil, rfl⟩
    | cons s ss => exact ⟨_, _, chars_list_cons s ss, rfl⟩
  | @tuple items _ =>
    rcases items with _ | ⟨s, _ | ⟨t, ss⟩⟩
    · exact ⟨_, _, chars_tuple_nil, rfl⟩
    · exact ⟨_, _, chars_tuple_one s, rfl⟩
    · exact ⟨_, _, chars_tuple_cons_cons s t ss, rfl⟩

/-- No text of plain data begins with the bracket that closes another. -/
theorem Plain.not_begins {s : Snapshot} (hs : s.Plain) {b : Char} (hb : b = ']' ∨ b = ')')
    (rest after : List Char) : s.chars ++ rest ≠ b :: after := by
  intro he
  obtain ⟨c, more, hc, hopening⟩ := hs.begins
  obtain rfl : c = b := by simpa [hc] using congrArg List.head? he
  have hself : openingOf c = c := by rcases hb with rfl | rfl <;> rfl
  rw [hself] at hopening
  cases hs <;> rcases hb with rfl | rfl <;> simp [opening] at hopening

/-! ## Reading off -/

/-- What may come after the text of an item: nothing, a comma or a closing bracket. -/
def Ends (rest : List Char) : Prop :=
  ∀ c ∈ rest.head?, c = ',' ∨ c = ']' ∨ c = ')'

/-- Whether the text of a snapshot determines it, and where the text ends. -/
def Readable (s : Snapshot) : Prop :=
  ∀ (t : Snapshot) (rest rest' : List Char), t.Plain → Ends rest → Ends rest' →
    s.chars ++ rest = t.chars ++ rest' → s = t ∧ rest = rest'

theorem ends_nil : Ends [] := by simp [Ends]

theorem ends_cons {c : Char} (hc : c = ',' ∨ c = ']' ∨ c = ')') (rest : List Char) :
    Ends (c :: rest) := by
  simpa [Ends] using hc

theorem ends_moreChars (ss : List Snapshot) {rest : List Char} (hrest : Ends rest) :
    Ends (moreChars ss ++ rest) := by
  cases ss with
  | nil => exact hrest
  | cons s ss =>
    rw [moreChars_cons]
    exact ends_cons (Or.inl rfl) _

theorem not_isNumeral_of_ends {c : Char} {rest : List Char} (h : Ends (c :: rest)) :
    ¬ IsNumeral c := by
  rcases h c rfl with rfl | rfl | rfl <;> simp [IsNumeral]

/-- A number ends where no numeral comes any more. -/
theorem numerals_inj {xs ys rest rest' : List Char} (hxs : ∀ c ∈ xs, IsNumeral c)
    (hys : ∀ c ∈ ys, IsNumeral c) (hrest : Ends rest) (hrest' : Ends rest')
    (h : xs ++ rest = ys ++ rest') : xs = ys ∧ rest = rest' := by
  induction xs generalizing ys with
  | nil =>
    cases ys with
    | nil => exact ⟨rfl, h⟩
    | cons y ys =>
      obtain rfl : rest = y :: (ys ++ rest') := h
      exact absurd (hys y List.mem_cons_self) (not_isNumeral_of_ends hrest)
  | cons x xs ih =>
    cases ys with
    | nil =>
      obtain rfl : x :: (xs ++ rest) = rest' := h
      exact absurd (hxs x List.mem_cons_self) (not_isNumeral_of_ends hrest')
    | cons y ys =>
      obtain ⟨rfl, htail⟩ := List.cons.inj h
      obtain ⟨rfl, hr⟩ := ih (fun c hc => hxs c (List.mem_cons_of_mem x hc))
        (fun c hc => hys c (List.mem_cons_of_mem x hc)) htail
      exact ⟨rfl, hr⟩

/-- Further items are read off one by one, up to a bracket. -/
theorem more_inj {b : Char} (hb : b = ']' ∨ b = ')') {ss ts : List Snapshot}
    {rest rest' : List Char} (hss : ∀ s ∈ ss, s.Readable) (hts : ∀ t ∈ ts, t.Plain)
    (h : moreChars ss ++ b :: rest = moreChars ts ++ b :: rest') : ss = ts ∧ rest = rest' := by
  have hcomma : b ≠ ',' := by rcases hb with rfl | rfl <;> decide
  have hend : ∀ rest, Ends (b :: rest) := fun rest => ends_cons (Or.inr hb) rest
  induction ss generalizing ts with
  | nil =>
    cases ts with
    | nil => exact ⟨rfl, (List.cons.inj h).2⟩
    | cons t ts =>
      rw [moreChars_cons] at h
      exact absurd (List.cons.inj h).1 hcomma
  | cons s ss ih =>
    cases ts with
    | nil =>
      rw [moreChars_cons] at h
      exact absurd (List.cons.inj h).1.symm hcomma
    | cons t ts =>
      simp only [moreChars_cons, List.cons_append, List.append_assoc, List.cons.injEq,
        true_and] at h
      obtain ⟨rfl, hmore⟩ := hss s List.mem_cons_self t _ _ (hts t List.mem_cons_self)
        (ends_moreChars ss (hend rest)) (ends_moreChars ts (hend rest')) h
      obtain ⟨rfl, hr⟩ := ih (fun s' hs' => hss s' (List.mem_cons_of_mem s hs'))
        (fun t' ht' => hts t' (List.mem_cons_of_mem s ht')) hmore
      exact ⟨rfl, hr⟩

theorem list_inj {ss ts : List Snapshot} (hss : ∀ s ∈ ss, s.Plain)
    (hread : ∀ s ∈ ss, s.Readable) (hts : ∀ t ∈ ts, t.Plain) {rest rest' : List Char}
    (h : (list ss).chars ++ rest = (list ts).chars ++ rest') : ss = ts ∧ rest = rest' := by
  have hb : ']' = ']' ∨ ']' = ')' := Or.inl rfl
  have hend : ∀ rest, Ends (']' :: rest) := fun rest => ends_cons (Or.inr hb) rest
  rcases ss with _ | ⟨s, ss⟩ <;> rcases ts with _ | ⟨t, ts⟩ <;>
    simp only [chars_list_nil, chars_list_cons, List.cons_append, List.append_assoc,
      List.nil_append, List.cons.injEq, true_and] at h
  · exact ⟨rfl, h⟩
  · exact absurd h.symm ((hts t List.mem_cons_self).not_begins hb _ _)
  · exact absurd h ((hss s List.mem_cons_self).not_begins hb _ _)
  · obtain ⟨rfl, hmore⟩ := hread s List.mem_cons_self t _ _ (hts t List.mem_cons_self)
      (ends_moreChars ss (hend rest)) (ends_moreChars ts (hend rest')) h
    obtain ⟨rfl, hr⟩ := more_inj hb (fun s' hs' => hread s' (List.mem_cons_of_mem s hs'))
      (fun t' ht' => hts t' (List.mem_cons_of_mem s ht')) hmore
    exact ⟨rfl, hr⟩

/-- What comes after the first item of a tuple: a comma alone, or the further items. -/
def afterFirst : List Snapshot → List Char
  | [] => [',', ')']
  | s :: ss => moreChars (s :: ss) ++ [')']

theorem chars_tuple_cons (s : Snapshot) (ss : List Snapshot) :
    (tuple (s :: ss)).chars = '(' :: (s.chars ++ afterFirst ss) := by
  cases ss with
  | nil => exact chars_tuple_one s
  | cons t ss => rw [chars_tuple_cons_cons, List.append_assoc, afterFirst]

theorem ends_afterFirst (ss : List Snapshot) (rest : List Char) : Ends (afterFirst ss ++ rest) := by
  cases ss with
  | nil => exact ends_cons (Or.inl rfl) _
  | cons s ss =>
    rw [afterFirst, moreChars_cons]
    exact ends_cons (Or.inl rfl) _

/-- A comma that is followed by a bracket and not by a blank tells that an item is the only one. -/
theorem afterFirst_inj {ss ts : List Snapshot} (hread : ∀ s ∈ ss, s.Readable)
    (hts : ∀ t ∈ ts, t.Plain) {rest rest' : List Char}
    (h : afterFirst ss ++ rest = afterFirst ts ++ rest') : ss = ts ∧ rest = rest' := by
  rcases ss with _ | ⟨s, ss⟩ <;> rcases ts with _ | ⟨t, ts⟩
  · simpa [afterFirst] using h
  · simp [afterFirst, moreChars_cons] at h
  · simp [afterFirst, moreChars_cons] at h
  · simp only [afterFirst, List.append_assoc, List.cons_append, List.nil_append] at h
    exact more_inj (Or.inr rfl) hread hts h

theorem tuple_inj {ss ts : List Snapshot} (hss : ∀ s ∈ ss, s.Plain)
    (hread : ∀ s ∈ ss, s.Readable) (hts : ∀ t ∈ ts, t.Plain) {rest rest' : List Char}
    (h : (tuple ss).chars ++ rest = (tuple ts).chars ++ rest') : ss = ts ∧ rest = rest' := by
  have hb : ')' = ']' ∨ ')' = ')' := Or.inr rfl
  rcases ss with _ | ⟨s, ss⟩ <;> rcases ts with _ | ⟨t, ts⟩ <;>
    simp only [chars_tuple_nil, chars_tuple_cons, List.cons_append, List.append_assoc,
      List.nil_append, List.cons.injEq, true_and] at h
  · exact ⟨rfl, h⟩
  · exact absurd h.symm ((hts t List.mem_cons_self).not_begins hb _ _)
  · exact absurd h ((hss s List.mem_cons_self).not_begins hb _ _)
  · obtain ⟨rfl, hmore⟩ := hread s List.mem_cons_self t _ _ (hts t List.mem_cons_self)
      (ends_afterFirst ss rest) (ends_afterFirst ts rest') h
    obtain ⟨rfl, hr⟩ := afterFirst_inj (fun s' hs' => hread s' (List.mem_cons_of_mem s hs'))
      (fun t' ht' => hts t' (List.mem_cons_of_mem s ht')) hmore
    exact ⟨rfl, hr⟩

theorem bool_inj {b c : Bool} {rest rest' : List Char}
    (h : (bool b).chars ++ rest = (bool c).chars ++ rest') : b = c ∧ rest = rest' := by
  have htrue : (bool true).chars = ['T', 'r', 'u', 'e'] := by decide
  have hfalse : (bool false).chars = ['F', 'a', 'l', 's', 'e'] := by decide
  cases b <;> cases c
  · exact ⟨rfl, List.append_cancel_left h⟩
  · simp [htrue, hfalse] at h
  · simp [htrue, hfalse] at h
  · exact ⟨rfl, List.append_cancel_left h⟩

/-- Data that is read in the same way is of one kind. -/
theorem Plain.opening_eq {s t : Snapshot} (hs : s.Plain) (ht : t.Plain) {rest rest' : List Char}
    (h : s.chars ++ rest = t.chars ++ rest') : s.opening = t.opening := by
  obtain ⟨c, more, hc, hopening⟩ := hs.begins
  obtain ⟨d, more', hd, hopening'⟩ := ht.begins
  obtain rfl : c = d := by simpa [hc, hd] using congrArg List.head? h
  rw [← hopening, ← hopening']

/-- The text of plain data determines the data, and where the text ends. -/
theorem Plain.readable {s : Snapshot} (hs : s.Plain) : s.Readable := by
  induction hs with
  | null =>
    intro t rest rest' ht _ _ h
    have hkind := Plain.null.opening_eq ht h
    cases ht with
    | null => exact ⟨rfl, List.append_cancel_left h⟩
    | _ => simp [opening] at hkind
  | bool b =>
    intro t rest rest' ht _ _ h
    have hkind := (Plain.bool b).opening_eq ht h
    cases ht with
    | bool c =>
      obtain ⟨rfl, hr⟩ := bool_inj h
      exact ⟨rfl, hr⟩
    | _ => simp [opening] at hkind
  | int n =>
    intro t rest rest' ht hrest hrest' h
    have hkind := (Plain.int n).opening_eq ht h
    cases ht with
    | int m =>
      obtain ⟨hchars, hr⟩ := numerals_inj (fun _ => isNumeral_of_mem_chars)
        (fun _ => isNumeral_of_mem_chars) hrest hrest' h
      exact ⟨congrArg Snapshot.int (int_eq_of_chars_eq hchars), hr⟩
    | _ => simp [opening] at hkind
  | text s =>
    intro t rest rest' ht _ _ h
    have hkind := (Plain.text s).opening_eq ht h
    cases ht with
    | text t =>
      rw [chars_text, chars_text] at h
      obtain ⟨hst, hr⟩ := Text.Quoted.encode_inj h
      exact ⟨congrArg Snapshot.text (String.toList_inj.mp hst), hr⟩
    | _ => simp [opening] at hkind
  | @list ss hss ih =>
    intro t rest rest' ht _ _ h
    have hkind := (Plain.list hss).opening_eq ht h
    cases ht with
    | list hts =>
      obtain ⟨rfl, hr⟩ := list_inj hss ih hts h
      exact ⟨rfl, hr⟩
    | _ => simp [opening] at hkind
  | @tuple ss hss ih =>
    intro t rest rest' ht _ _ h
    have hkind := (Plain.tuple hss).opening_eq ht h
    cases ht with
    | tuple hts =>
      obtain ⟨rfl, hr⟩ := tuple_inj hss ih hts h
      exact ⟨rfl, hr⟩
    | _ => simp [opening] at hkind

/-- Plain data with the same text is the same. -/
theorem Plain.eq_of_render_eq {s t : Snapshot} (hs : s.Plain) (ht : t.Plain)
    (h : s.render = t.render) : s = t := by
  have hchars : s.chars ++ [] = t.chars ++ [] := by rw [chars, chars, h]
  exact (hs.readable t [] [] ht ends_nil ends_nil hchars).1

end Snapshot

/-- Two values of plain data have the same text exactly if they are structurally equal, whatever
heaps their lists are in. -/
theorem plain_data_is_told_by_its_text {h h' : Heap} {v v' : Value} (hv : h.Plain v)
    (hv' : h'.Plain v') : h.repr v = h'.repr v' ↔ h.Alike h' v v' := by
  constructor
  · intro htext
    exact hv.alike hv' (hv.snapshot.eq_of_render_eq hv'.snapshot htext)
  · intro halike
    exact congrArg Snapshot.render (halike.snapshot_eq hv hv')

/-- A list is told from a tuple, and one from the truth. -/
theorem a_list_is_told_from_a_tuple :
    let h : Heap := { lists := #[#[.int 1, .text "it's"]] }
    h.Plain (.list ⟨0⟩) ∧ h.Plain (.tuple [.bool true, .text "it's"]) ∧
      h.repr (.list ⟨0⟩) ≠ h.repr (.tuple [.bool true, .text "it's"]) := by
  intro h
  have hlist : h.Plain (.list ⟨0⟩) := by
    refine .list (by decide) fun x hx => ?_
    obtain rfl | rfl : x = .int 1 ∨ x = .text "it's" := by simpa [h, Heap.list] using hx
    · exact .int 1
    · exact .text _
  have htuple : h.Plain (.tuple [.bool true, .text "it's"]) := by
    refine .tuple fun x hx => ?_
    obtain rfl | rfl : x = .bool true ∨ x = .text "it's" := by simpa using hx
    · exact .bool true
    · exact .text _
  refine ⟨hlist, htuple, fun he => ?_⟩
  have halike := (plain_data_is_told_by_its_text hlist htuple).mp he
  cases halike

end Builtins
