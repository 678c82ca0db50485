-- The order of values. Numbers and texts are each ordered among themselves, and nothing else can be
-- compared. Below and above are the two sides of one order, in which of two values of a class one
-- is below the other unless they are one number or one text.
import Builtins.Proofs.Summing.Numbers
import Builtins.Proofs.Text.Octets

namespace Builtins

namespace Value

variable {a b c : Value}

/-- Whether two values can be compared: two texts, or two numbers. -/
def Comparable (a b : Value) : Prop :=
  (∃ s t, a = .text s ∧ b = .text t) ∨ ∃ m n, a.whole? = some m ∧ b.whole? = some n

/-- Whether two values are one text, or count as one number. -/
def Level (a b : Value) : Prop :=
  (∃ s, a = .text s ∧ b = .text s) ∨ ∃ n, a.whole? = some n ∧ b.whole? = some n

/-- Whether a value is the lower one of two texts or two numbers. -/
def Below (a b : Value) : Prop :=
  (∃ s t, a = .text s ∧ b = .text t ∧ s < t) ∨
    ∃ m n, a.whole? = some m ∧ b.whole? = some n ∧ m < n

/-! ## Below and level -/

theorem Comparable.symm (hab : a.Comparable b) : b.Comparable a := by
  rcases hab with ⟨s, t, ha, hb⟩ | ⟨m, n, ha, hb⟩
  · exact Or.inl ⟨t, s, hb, ha⟩
  · exact Or.inr ⟨n, m, hb, ha⟩

theorem below_texts {s t : String} : (text s).Below (text t) ↔ s < t := by
  simp [Below, whole?]

theorem level_texts {s t : String} : (text s).Level (text t) ↔ s = t := by
  simp [Level, whole?, eq_comm]

theorem ne_text_of_whole? {n : Int} (ha : a.whole? = some n) (s : String) : a ≠ text s := by
  rintro rfl
  cases ha

theorem below_wholes {m n : Int} (ha : a.whole? = some m) (hb : b.whole? = some n) :
    a.Below b ↔ m < n := by
  simp [Below, ne_text_of_whole? ha, ha, hb]

theorem level_wholes {m n : Int} (ha : a.whole? = some m) (hb : b.whole? = some n) :
    a.Level b ↔ m = n := by
  simp [Level, ne_text_of_whole? ha, ha, hb, eq_comm]

theorem not_below_self (a : Value) : ¬ a.Below a := by
  rintro (⟨s, t, hs, ht, hst⟩ | ⟨m, n, hm, hn, hmn⟩)
  · cases hs.symm.trans ht
    exact lt_irrefl s hst
  · cases hm.symm.trans hn
    omega

/-- What is between two values is of their class. -/
theorem Below.trans (hab : a.Below b) (hbc : b.Below c) : a.Below c := by
  rcases hab with ⟨s, t, ha, hb, hst⟩ | ⟨m, n, ha, hb, hmn⟩ <;>
    rcases hbc with ⟨t', u, hb', hc, htu⟩ | ⟨n', p, hb', hc, hnp⟩
  · cases hb.symm.trans hb'
    exact Or.inl ⟨s, u, ha, hc, lt_trans hst htu⟩
  · exact absurd hb (ne_text_of_whole? hb' t)
  · exact absurd hb' (ne_text_of_whole? hb t')
  · cases hb.symm.trans hb'
    exact Or.inr ⟨m, p, ha, hc, by omega⟩

/-! ## How two values compare -/

theorem order_of_wholes {m n : Int} (ha : a.whole? = some m) (hb : b.whole? = some n)
    (operator : String) : order operator a b = .ok (compare m n) := by
  obtain ⟨x, hx, rfl⟩ := exists_toWord?_of_whole? ha
  obtain ⟨y, hy, rfl⟩ := exists_toWord?_of_whole? hb
  unfold order
  split
  · cases hx
  · rw [hx, hy]

theorem order_of_not_comparable (hab : ¬ a.Comparable b) (operator : String) :
    order operator a b = .error (mismatch operator a b) := by
  cases a <;> cases b <;>
    first
    | rfl
    | exact absurd (Or.inl ⟨_, _, rfl, rfl⟩) hab
    | exact absurd (Or.inr ⟨_, _, rfl, rfl⟩) hab

/-- Two values that can be compared have one place to each other, whatever is asked: the first is
below, or the two are level, or the second is below. -/
theorem Comparable.exists_order (hab : a.Comparable b) :
    ∃ o : Ordering, (∀ operator, order operator a b = .ok o) ∧
      (o = .lt ↔ a.Below b) ∧ (o = .eq ↔ a.Level b) ∧ (o = .gt ↔ b.Below a) := by
  rcases hab with ⟨s, t, rfl, rfl⟩ | ⟨m, n, ha, hb⟩
  · refine ⟨compare s t, fun _ => rfl, ?_, ?_, ?_⟩
    · rw [compare_lt_iff_lt, below_texts]
    · rw [compare_eq_iff_eq, level_texts]
    · rw [compare_gt_iff_gt, below_texts]
  · refine ⟨compare m n, order_of_wholes ha hb, ?_, ?_, ?_⟩
    · rw [compare_lt_iff_lt, below_wholes ha hb]
    · rw [compare_eq_iff_eq, level_wholes ha hb]
    · rw [compare_gt_iff_gt, below_wholes hb ha]

theorem Below.comparable (hab : a.Below b) : a.Comparable b := by
  rcases hab with ⟨s, t, ha, hb, -⟩ | ⟨m, n, ha, hb, -⟩
  · exact Or.inl ⟨s, t, ha, hb⟩
  · exact Or.inr ⟨m, n, ha, hb⟩

theorem Comparable.lessThan_eq (hab : a.Comparable b) [Decidable (a.Below b)] :
    a.lessThan b = .ok (decide (a.Below b)) := by
  obtain ⟨o, horder, hlt, -⟩ := hab.exists_order
  simp only [lessThan, horder, Except.map, ← hlt]
  cases o <;> simp

theorem Comparable.greaterThan_eq (hab : a.Comparable b) [Decidable (b.Below a)] :
    a.greaterThan b = .ok (decide (b.Below a)) := by
  obtain ⟨o, horder, -, -, hgt⟩ := hab.exists_order
  simp only [greaterThan, horder, Except.map, ← hgt]
  cases o <;> simp

open Classical in
theorem lessThan_iff : a.lessThan b = .ok true ↔ a.Below b := by
  by_cases hab : a.Comparable b
  · simp [hab.lessThan_eq]
  · rw [lessThan, order_of_not_comparable hab]
    exact ⟨nofun, fun hbelow => absurd hbelow.comparable hab⟩

open Classical in
/-- Whether one value is below another is what is answered to whether the other is above it, and
either both questions have an answer or both are refused. -/
theorem answered_or_refused (a b : Value) :
    (a.Comparable b ∧ ∃ below above, a.lessThan b = .ok below ∧ b.greaterThan a = .ok below ∧
        a.greaterThan b = .ok above ∧ b.lessThan a = .ok above) ∨
      ¬ a.Comparable b ∧
        a.lessThan b = .error (.operands "<" a.typeName b.typeName) ∧
        b.greaterThan a = .error (.operands ">" b.typeName a.typeName) ∧
        a.greaterThan b = .error (.operands ">" a.typeName b.typeName) ∧
        b.lessThan a = .error (.operands "<" b.typeName a.typeName) := by
  by_cases hab : a.Comparable b
  · exact Or.inl ⟨hab, _, _, hab.lessThan_eq, hab.symm.greaterThan_eq, hab.greaterThan_eq,
      hab.symm.lessThan_eq⟩
  · have hba : ¬ b.Comparable a := mt Comparable.symm hab
    refine Or.inr ⟨hab, ?_, ?_, ?_, ?_⟩
    · rw [lessThan, order_of_not_comparable hab]
      rfl
    · rw [greaterThan, order_of_not_comparable hba]
      rfl
    · rw [greaterThan, order_of_not_comparable hab]
      rfl
    · rw [lessThan, order_of_not_comparable hba]
      rfl

/-- Of two values that can be compared, one is below the other, or they are level, and only one of
the three. -/
theorem Comparable.trichotomy (hab : a.Comparable b) :
    (a.Below b ∧ ¬ b.Below a ∧ ¬ a.Level b) ∨ (¬ a.Below b ∧ b.Below a ∧ ¬ a.Level b) ∨
      (¬ a.Below b ∧ ¬ b.Below a ∧ a.Level b) := by
  obtain ⟨o, -, hlt, heq, hgt⟩ := hab.exists_order
  rw [← hlt, ← heq, ← hgt]
  cases o <;> simp

theorem text_lessThan_iff {s t : String} :
    (text s).lessThan (text t) = .ok true ↔ s.toList < t.toList := by
  rw [lessThan_iff, below_texts, String.lt_iff_toList_lt]

/-- A text is below itself with more behind it. -/
theorem text_lessThan_append (s : String) {t : String} (ht : t ≠ "") :
    (text s).lessThan (text (s ++ t)) = .ok true := by
  rw [text_lessThan_iff, String.toList_append]
  obtain ⟨c, cs, hcs⟩ := List.exists_cons_of_ne_nil (mt String.toList_eq_nil_iff.mp ht)
  have hbehind : s.toList ++ [] < s.toList ++ t.toList := by
    rw [hcs]
    exact List.Lex.append_left _ List.Lex.nil _
  rwa [List.append_nil] at hbehind

end Value

/-- Whether the first of two values is below the second is what is answered to whether the second is
above the first, and the other way round. All four questions have an answer for two texts or two
numbers, and all four are refused for two other values, with the operator and the types in the order
in which they were given. A number is below another if it is so as an integer. A text is below
another if the codes of its characters are below those of the other, which they are if and only if
its octets are below those of the other, and it is below each text that it is a proper beginning of.
So nothing is below itself, what is below a value is below all that the value is below, and of two
values that can be compared the first is below or above the second, or they are one number or one
text, and only one of the three. -/
theorem values_of_a_class_are_strictly_ordered :
    (∀ a b : Value,
        (a.Comparable b ∧ ∃ below above, a.lessThan b = .ok below ∧ b.greaterThan a = .ok below ∧
            a.greaterThan b = .ok above ∧ b.lessThan a = .ok above) ∨
          ¬ a.Comparable b ∧
            a.lessThan b = .error (.operands "<" a.typeName b.typeName) ∧
            b.greaterThan a = .error (.operands ">" b.typeName a.typeName) ∧
            a.greaterThan b = .error (.operands ">" a.typeName b.typeName) ∧
            b.lessThan a = .error (.operands "<" b.typeName a.typeName)) ∧
      (∀ (a b : Value) (m n : Int), a.whole? = some m → b.whole? = some n →
        (a.lessThan b = .ok true ↔ m < n)) ∧
      (∀ s t : String,
        ((Value.text s).lessThan (.text t) = .ok true ↔
            s.toList.map Char.toNat < t.toList.map Char.toNat) ∧
          (s.toList.map Char.toNat < t.toList.map Char.toNat ↔ Text.octets s < Text.octets t)) ∧
      (∀ s t : String, t ≠ "" → (Value.text s).lessThan (.text (s ++ t)) = .ok true) ∧
      (∀ a : Value, a.lessThan a ≠ .ok true) ∧
      (∀ a b c : Value, a.lessThan b = .ok true → b.lessThan c = .ok true →
        a.lessThan c = .ok true) ∧
      ∀ a b : Value, a.Comparable b →
        (a.lessThan b = .ok true ∧ a.greaterThan b = .ok false ∧ ¬ a.Level b) ∨
          (a.lessThan b = .ok false ∧ a.greaterThan b = .ok true ∧ ¬ a.Level b) ∨
          (a.lessThan b = .ok false ∧ a.greaterThan b = .ok false ∧ a.Level b) := by
  refine ⟨Value.answered_or_refused, ?numbers, ?texts, fun s t => Value.text_lessThan_append s,
    ?irreflexive, ?transitive, ?one⟩
  case numbers =>
    intro a b m n ha hb
    rw [Value.lessThan_iff, Value.below_wholes ha hb]
  case texts =>
    intro s t
    rw [Value.text_lessThan_iff, Text.octets_lt_iff, Text.codes_lt_iff]
    exact ⟨Iff.rfl, Iff.rfl⟩
  case irreflexive =>
    intro a
    rw [Ne, Value.lessThan_iff]
    exact a.not_below_self
  case transitive =>
    intro a b c
    rw [Value.lessThan_iff, Value.lessThan_iff, Value.lessThan_iff]
    exact Value.Below.trans
  case one =>
    intro a b hab
    classical
    rw [hab.lessThan_eq, hab.greaterThan_eq]
    simpa using hab.trichotomy

/-- A truth value is between two integers, and of two characters the one outside the first plane is
above the one inside. -/
theorem a_truth_value_is_between_two_integers :
    (Value.int 0).lessThan (.int 2) = .ok true ∧
      (Value.bool true).greaterThan (.int 2) = .ok false ∧
      Text.octets "\uFFFD" < Text.octets "😀" ∧
      (Value.text "a").lessThan (.text ("a" ++ "\x00")) = .ok true ∧
      (Value.text "a").lessThan (.int 1) = .error (.operands "<" "str" "int") := by
  obtain ⟨hall, hnumbers, htexts, hextended, -, htransitive, hone⟩ :=
    values_of_a_class_are_strictly_ordered
  have hlow : (Value.int 0).lessThan (.bool true) = .ok true :=
    (hnumbers _ _ 0 1 rfl rfl).mpr (by decide)
  have hhigh : (Value.bool true).lessThan (.int 2) = .ok true :=
    (hnumbers _ _ 1 2 rfl rfl).mpr (by decide)
  refine ⟨htransitive _ _ _ hlow hhigh, ?_, ?_, hextended "a" "\x00" (by decide), ?_⟩
  · rcases hone (.bool true) (.int 2) (Or.inr ⟨1, 2, rfl, rfl⟩) with
      ⟨-, hnot, -⟩ | ⟨hnot, -⟩ | ⟨-, hnot, -⟩
    · exact hnot
    · cases hhigh.symm.trans hnot
    · exact hnot
  · rw [← (htexts _ _).2]
    decide
  · rcases hall (.text "a") (.int 1) with ⟨-, below, -, hbelow, -⟩ | ⟨-, hnot, -⟩
    · cases hbelow
    · exact hnot

end Builtins
