-- The order of texts. They are ordered by the codes of their characters, and that is the order of
-- their octets in UTF-8: of two characters the one with the lower code has the lower octet in the
-- first place where their octets differ, however many they have.
import Mathlib.Data.String.Basic

namespace Builtins.Text

/-- Whether a row is below another by what stands in the first place where they differ. -/
inductive Precedes {α : Type} [LT α] : List α → List α → Prop
  | head {x y : α} (hxy : x < y) (xs ys : List α) : Precedes (x :: xs) (y :: ys)
  | tail (x : α) {xs ys : List α} (h : Precedes xs ys) : Precedes (x :: xs) (x :: ys)

section

variable {α : Type} [LT α]

/-- Whatever comes behind them, such rows stay in order. -/
theorem Precedes.append_lt {xs ys : List α} (h : Precedes xs ys) (xs' ys' : List α) :
    xs ++ xs' < ys ++ ys' := by
  induction h with
  | head hxy _ _ => exact List.Lex.rel hxy
  | tail x _ ih => exact List.Lex.cons ih

variable {f : Char → List α} (hne : ∀ c, f c ≠ []) (hf : ∀ c d, c < d → Precedes (f c) (f d))
include hne hf

/-- What is written for a text is below what is written for a text above it. -/
theorem flatMap_lt_of_lt {s t : List Char} (hst : s < t) : s.flatMap f < t.flatMap f := by
  induction hst with
  | @nil d t =>
    rw [List.flatMap_nil, List.flatMap_cons]
    obtain ⟨x, xs, hx⟩ := List.exists_cons_of_ne_nil (hne d)
    rw [hx]
    exact List.Lex.nil
  | rel hcd =>
    rw [List.flatMap_cons, List.flatMap_cons]
    exact (hf _ _ hcd).append_lt _ _
  | cons _ ih =>
    rw [List.flatMap_cons, List.flatMap_cons]
    exact List.Lex.append_left _ ih _

/-- If the order of characters is that of what is written for them, so is the order of texts. -/
theorem flatMap_lt_iff [Std.Asymm fun x y : α => x < y] {s t : List Char} :
    s.flatMap f < t.flatMap f ↔ s < t := by
  refine ⟨fun hlt => ?_, flatMap_lt_of_lt hne hf⟩
  rcases lt_trichotomy s t with hst | rfl | hts
  · exact hst
  · exact absurd hlt (List.lt_asymm hlt)
  · exact absurd hlt (List.lt_asymm (flatMap_lt_of_lt hne hf hts))

end

/-! ## Codes -/

theorem codes_lt_iff {s t : List Char} : s.map Char.toNat < t.map Char.toNat ↔ s < t := by
  rw [List.map_eq_flatMap, List.map_eq_flatMap]
  refine flatMap_lt_iff (fun _ => List.cons_ne_nil _ _) fun c d hcd => ?_
  have hcode : c.toNat < d.toNat := hcd
  exact .head hcode [] []

/-! ## Octets -/

/-- The octets of a text in UTF-8. -/
def octets (s : String) : List UInt8 := s.toUTF8.data.toList

theorem octets_eq (s : String) : octets s = s.toList.flatMap String.utf8EncodeChar := by
  have hofList := String.toByteArray_ofList (l := s.toList)
  rw [String.ofList_toList] at hofList
  rw [octets, String.toUTF8, hofList, List.utf8Encode, List.data_toByteArray]

theorem utf8EncodeChar_ne_nil (c : Char) : String.utf8EncodeChar c ≠ [] := by
  unfold String.utf8EncodeChar
  dsimp only
  split_ifs <;> exact List.cons_ne_nil _ _

/-- A lower octet decides. -/
theorem Precedes.lower {m n : Nat} (hn : n < 256) (hmn : m < n) (xs ys : List UInt8) :
    Precedes (UInt8.ofNat m :: xs) (UInt8.ofNat n :: ys) :=
  .head ((UInt8.ofNat_lt_iff_lt (Nat.lt_trans hmn hn) hn).mpr hmn) xs ys

/-- An octet that is not higher decides, or leaves it to the next ones where it is the same. -/
theorem Precedes.octet {m n : Nat} {xs ys : List UInt8} (hn : n < 256) (hmn : m ≤ n)
    (hrest : m = n → Precedes xs ys) : Precedes (UInt8.ofNat m :: xs) (UInt8.ofNat n :: ys) := by
  rcases Nat.lt_or_eq_of_le hmn with hlt | rfl
  · exact .lower hn hlt xs ys
  · exact .tail _ (hrest rfl)

/-- The lower character has the lower octets. More octets begin with a higher one, and as many are
digits to base 64 behind the mark of their number. -/
theorem precedes_utf8EncodeChar {c d : Char} (hcd : c < d) :
    Precedes (String.utf8EncodeChar c) (String.utf8EncodeChar d) := by
  have hlt : c.val.toNat < d.val.toNat := hcd
  have hmax : d.val.toNat < 1114112 := by
    rcases d.valid with hd | hd <;> omega
  unfold String.utf8EncodeChar
  dsimp only
  generalize c.val.toNat = m at hlt ⊢
  generalize d.val.toNat = n at hlt hmax ⊢
  by_cases hm₁ : m ≤ 127
  · rw [if_pos hm₁]
    split_ifs <;> exact .lower (by omega) (by omega) _ _
  rw [if_neg hm₁, if_neg (by omega : ¬ n ≤ 127)]
  by_cases hm₂ : m ≤ 2047
  · rw [if_pos hm₂]
    by_cases hn₂ : n ≤ 2047
    · rw [if_pos hn₂]
      exact .octet (by omega) (by omega) fun _ => .lower (by omega) (by omega) _ _
    · rw [if_neg hn₂]
      split_ifs <;> exact .lower (by omega) (by omega) _ _
  rw [if_neg hm₂, if_neg (by omega : ¬ n ≤ 2047)]
  by_cases hm₃ : m ≤ 65535
  · rw [if_pos hm₃]
    by_cases hn₃ : n ≤ 65535
    · rw [if_pos hn₃]
      exact .octet (by omega) (by omega) fun _ => .octet (by omega) (by omega) fun _ =>
        .lower (by omega) (by omega) _ _
    · rw [if_neg hn₃]
      exact .lower (by omega) (by omega) _ _
  · rw [if_neg hm₃, if_neg (by omega : ¬ n ≤ 65535)]
    exact .octet (by omega) (by omega) fun _ => .octet (by omega) (by omega) fun _ =>
      .octet (by omega) (by omega) fun _ => .lower (by omega) (by omega) _ _

/-- Texts are ordered as their octets are. -/
theorem octets_lt_iff {s t : String} : octets s < octets t ↔ s.toList < t.toList := by
  rw [octets_eq, octets_eq]
  exact flatMap_lt_iff utf8EncodeChar_ne_nil fun _ _ => precedes_utf8EncodeChar

end Builtins.Text
