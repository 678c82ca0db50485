-- Texts without control characters. Such a text holds no line break, so where it is written on a
-- line it is the whole line, and what has been written before does not matter.
import Builtins.Proofs.Text.Quoted

namespace Builtins.Text

/-- Whether a character is no control character: those go up to U+001F, and from U+007F to U+009F.
-/
def IsClear (c : Char) : Prop := 0x20 ≤ c.toNat ∧ (c.toNat < 0x7f ∨ 0xa0 ≤ c.toNat)

instance (c : Char) : Decidable (IsClear c) := inferInstanceAs (Decidable (_ ∧ _))

/-- Whether there is no control character in a text. -/
def Clear (s : String) : Prop := ∀ c ∈ s.toList, IsClear c

instance (s : String) : Decidable (Clear s) := List.decidableBAll IsClear s.toList

theorem isClear_iff {c : Char} : IsClear c ↔ Quoted.isControl c = false := by
  unfold IsClear Quoted.isControl
  simp only [Bool.or_eq_false_iff, Bool.and_eq_false_iff, decide_eq_false_iff_not]
  omega

theorem isClear_of_isDigit {c : Char} (hc : c.isDigit = true) : IsClear c := by
  rw [Char.isDigit_iff_toNat] at hc
  unfold IsClear
  simp only [Char.reduceToNat] at hc
  omega

theorem isClear_digitChar : ∀ n < 16, IsClear (Nat.digitChar n) := by decide

/-! ## Texts made of others -/

variable {s t sep : String} {items : List String}

theorem Clear.append (hs : Clear s) (ht : Clear t) : Clear (s ++ t) := by
  intro c hc
  rw [String.toList_append, List.mem_append] at hc
  exact hc.elim (hs c) (ht c)

theorem clear_intercalate (hsep : Clear sep) (hitems : ∀ s ∈ items, Clear s) :
    Clear (sep.intercalate items) := by
  induction items with
  | nil =>
    rw [String.intercalate_nil]
    decide
  | cons s items ih =>
    rw [List.forall_mem_cons] at hitems
    cases items with
    | nil =>
      rw [String.intercalate_singleton]
      exact hitems.1
    | cons t items =>
      rw [String.intercalate_cons_cons]
      exact (hitems.1.append hsep).append (ih hitems.2)

theorem isClear_escaped {c : Char} (hc : IsClear c) : ∀ d ∈ ['\\', c], IsClear d := by
  rw [List.forall_mem_cons, List.forall_mem_singleton]
  exact ⟨by decide, hc⟩

/-- Whatever a character is, it is written between quotes without a control character. -/
theorem isClear_of_mem_escape {q : Char} (hq : IsClear q) (c : Char) :
    ∀ d ∈ Quoted.escape q c, IsClear d := by
  unfold Quoted.escape
  split
  · exact isClear_escaped (by decide)
  split
  · exact isClear_escaped (by decide)
  split
  · exact isClear_escaped (by decide)
  split
  · exact isClear_escaped (by decide)
  split
  · next hc => exact isClear_escaped (hc ▸ hq)
  split
  · next hcontrol =>
    have hlt := Quoted.toNat_lt_of_isControl hcontrol
    have hhigh := isClear_digitChar (c.toNat / 16) (by omega)
    have hlow := isClear_digitChar (c.toNat % 16) (by omega)
    simp only [Quoted.hexPair, List.forall_mem_cons, List.not_mem_nil, false_implies, implies_true]
    exact ⟨by decide, by decide, hhigh, hlow, trivial⟩
  · next hclear =>
    rw [List.forall_mem_singleton]
    exact isClear_iff.mpr (Bool.eq_false_iff.mpr hclear)

theorem clear_ofString (s : String) : Clear (Quoted.ofString s) := by
  have hq : IsClear (Quoted.quoteOf s.toList) := by
    rcases Quoted.quoteOf_eq s.toList with hq | hq <;> rw [hq] <;> decide
  intro c hc
  rw [Quoted.toList_ofString, Quoted.encode, List.mem_cons, List.mem_append,
    List.mem_singleton] at hc
  rcases hc with rfl | hc | rfl
  · exact hq
  · obtain ⟨d, -, hd⟩ := List.mem_flatMap.mp hc
    exact isClear_of_mem_escape hq d c hd
  · exact hq

/-! ## Lines -/

/-- What lines come to when they are written out: each of them, and a line break behind it. -/
def written (lines : List String) : List Char := lines.flatMap fun line => line.toList ++ ['\n']

/-- The lines that what is written consists of, each up to a line break. -/
def seen (lines : List String) : List String :=
  ((written lines).splitOn '\n').dropLast.map String.ofList

theorem seen_cons (line : String) (lines : List String) :
    seen (line :: lines) = (line.toList.splitOn '\n').map String.ofList ++ seen lines := by
  have hbreak : written (line :: lines) = line.toList ++ '\n' :: written lines := by
    simp [written]
  have hsplit := List.splitOn_ne_nil '\n' (written lines)
  rw [seen, hbreak, List.splitOn_append_cons_self, List.dropLast_append_of_ne_nil hsplit,
    List.map_append]
  rfl

theorem seen_append (lines lines' : List String) :
    seen (lines ++ lines') = seen lines ++ seen lines' := by
  induction lines with
  | nil => simp [seen, written]
  | cons line lines ih => rw [List.cons_append, seen_cons, seen_cons, ih, List.append_assoc]

/-- What is written without control characters is seen as it is written. -/
theorem seen_of_clear (hitems : ∀ s ∈ items, Clear s) : seen items = items := by
  induction items with
  | nil => simp [seen, written]
  | cons s items ih =>
    rw [List.forall_mem_cons] at hitems
    have hbreak : '\n' ∉ s.toList := fun hmem => absurd (hitems.1 _ hmem) (by decide)
    rw [seen_cons, List.splitOn_eq_singleton hbreak, List.map_singleton, String.ofList_toList,
      ih hitems.2, List.singleton_append]

end Builtins.Text
