-- How values are spelled that can be literals as they are printed: truth values and integers as
-- words, texts between quotes, lists between brackets. That is the way in which data is written on
-- one line.
import Builtins.Proofs.Snapshot.Acyclic
import Builtins.Proofs.Snapshot.Chars
import Builtins.Proofs.Text.Quoted
import Builtins.Proofs.Yaml.OneLine

namespace Builtins

open Yaml

/-! ## Data that can be given back -/

/-- Whether a text is written between quotes as it stands, and is no reference. -/
structure Quotable (s : String) : Prop where
  printable : ∀ c ∈ s.toList, Printable c
  no_backslash : '\\' ∉ s.toList
  one_quote : ¬ ('\'' ∈ s.toList ∧ '"' ∈ s.toList)
  no_reference : s.toList.head? ≠ some '@'

/-- Truth values, integers and quotable texts, and lists of such data, nested at most `depth` deep,
that do not hold themselves. -/
inductive Heap.Literal (h : Heap) : Nat → Value → Prop
  | bool (depth : Nat) (b : Bool) : Literal h depth (.bool b)
  | int (depth : Nat) (n : Word) : Literal h depth (.int n)
  | text (depth : Nat) {s : String} (hs : Quotable s) : Literal h depth (.text s)
  | list {depth : Nat} {id : ListId} (known : id.index < h.lists.size)
    (items : ∀ x ∈ (h.list id).toList, Literal h depth x) : Literal h (depth + 1) (.list id)

theorem Heap.Literal.plain {h : Heap} {depth : Nat} {v : Value} (hv : h.Literal depth v) :
    h.Plain v := by
  induction hv with
  | bool _ b => exact .bool b
  | int _ n => exact .int n
  | text _ _ => exact .text _
  | list known _ ih => exact .list known ih

namespace Snapshot

/-- What such data looks like. -/
inductive Literal : Nat → Snapshot → Prop
  | bool (depth : Nat) (b : Bool) : Literal depth (.bool b)
  | int (depth : Nat) (n : Word) : Literal depth (.int n)
  | text (depth : Nat) {s : String} (hs : Quotable s) : Literal depth (.text s)
  | list {depth : Nat} {ss : List Snapshot} (items : ∀ s ∈ ss, Literal depth s) :
    Literal (depth + 1) (.list ss)

end Snapshot

theorem Heap.Literal.snapshot {h : Heap} {depth : Nat} {v : Value} (hv : h.Literal depth v) :
    (h.snapshot v).Literal depth := by
  induction hv with
  | bool depth b => exact .bool depth b
  | int depth n => exact .int depth n
  | text depth hs => exact .text depth hs
  | list known items ih =>
    rw [(Heap.Literal.list known items).plain.acyclic.snapshot_list]
    refine .list fun s hs => ?_
    obtain ⟨x, hx, rfl⟩ := List.mem_map.mp hs
    exact ih x hx

/-! ## Quoted texts -/

namespace Quotable

variable {s : String} (hs : Quotable s)
include hs

/-- A quotable text needs no escapes. -/
theorem flatMap_escape {q : Char} (hq : q ∉ s.toList) :
    s.toList.flatMap (Text.Quoted.escape q) = s.toList := by
  have hescape : ∀ c ∈ s.toList, Text.Quoted.escape q c = [c] := by
    intro c hc
    obtain ⟨hlow, hhigh⟩ := hs.printable c hc
    have hslash : c ≠ '\\' := fun h => hs.no_backslash (h ▸ hc)
    have hquote : c ≠ q := fun h => hq (h ▸ hc)
    have hfeed : c ≠ '\n' := by rintro rfl; simp at hlow
    have hreturn : c ≠ '\r' := by rintro rfl; simp at hlow
    have htab : c ≠ '\t' := by rintro rfl; simp at hlow
    have hcontrol : Text.Quoted.isControl c = false := by
      simp [Text.Quoted.isControl]
      omega
    simp [Text.Quoted.escape, hslash, hquote, hfeed, hreturn, htab, hcontrol]
  calc s.toList.flatMap (Text.Quoted.escape q)
      = s.toList.flatMap (fun c => [c]) := List.flatMap_congr hescape
    _ = s.toList := List.flatMap_singleton' s.toList

/-- The quote that a quotable text is written in does not come in it. -/
theorem quoteOf_notMem : Text.Quoted.quoteOf s.toList ∉ s.toList := by
  unfold Text.Quoted.quoteOf
  split
  · next h => exact h.2
  · next h =>
    intro hmem
    exact h ⟨hmem, fun hdouble => hs.one_quote ⟨hmem, hdouble⟩⟩

theorem chars_eq : (Snapshot.text s).chars =
    Text.Quoted.quoteOf s.toList :: (s.toList ++ [Text.Quoted.quoteOf s.toList]) := by
  rw [Snapshot.chars_text, Text.Quoted.encode, hs.flatMap_escape hs.quoteOf_notMem]

end Quotable

/-! ## Lines -/

namespace Snapshot

mutual

/-- The data that a snapshot stands for, tuples under their tag. -/
def tree : Snapshot → Tree
  | bool b => .bool b
  | int n => .int n.toInt
  | text s => .text s
  | list ss => .sequence (trees ss)
  | tuple ss => .tagged "tuple" (.sequence (trees ss))
  | _ => .null

def trees : List Snapshot → List Tree
  | [] => []
  | s :: ss => s.tree :: trees ss

end

/-- Whether the text of a snapshot is a line of the data that it stands for. -/
def IsWritten (s : Snapshot) (depth : Nat) : Prop :=
  ∃ f : Flow, f.Fits depth ∧ f.text = s.render ∧ f.tree = s.tree

/-- A quotable text is written between the quotes that YAML reads it between. -/
theorem isWritten_text {s : String} (hs : Quotable s) (depth : Nat) :
    (text s).IsWritten depth := by
  have hchars := hs.chars_eq
  have hnot := hs.quoteOf_notMem
  rcases Text.Quoted.quoteOf_eq s.toList with hq | hq
  · rw [hq] at hchars hnot
    refine ⟨.singleQuoted s, .singleQuoted depth hs.printable, ?_, rfl⟩
    apply String.toList_inj.mp
    rw [Flow.text, toList_singleQuote, quotesDoubled_eq_self hnot]
    exact hchars.symm
  · rw [hq] at hchars hnot
    refine ⟨.doubleQuoted s, .doubleQuoted depth hs.printable hnot hs.no_backslash, ?_, rfl⟩
    apply String.toList_inj.mp
    simpa [Flow.text, chars] using hchars.symm

theorem exists_lines {depth : Nat} {ss : List Snapshot} (hss : ∀ s ∈ ss, s.IsWritten depth) :
    ∃ fs : List Flow, (∀ f ∈ fs, f.Fits depth) ∧ Flow.texts fs = renderAll ss ∧
      Flow.trees fs = trees ss := by
  induction ss with
  | nil => exact ⟨[], by simp, rfl, rfl⟩
  | cons s ss ih =>
    obtain ⟨f, hfits, htext, htree⟩ := hss s List.mem_cons_self
    obtain ⟨fs, hfs, htexts, htrees⟩ := ih fun t ht => hss t (List.mem_cons_of_mem s ht)
    refine ⟨f :: fs, ?_, ?_, ?_⟩
    · intro d hd
      rcases List.mem_cons.mp hd with rfl | hd
      · exact hfits
      · exact hfs d hd
    · rw [Flow.texts, renderAll, htext, htexts]
    · rw [Flow.trees, trees, htree, htrees]

/-- The text of a literal is a line of the data that the literal stands for. -/
theorem Literal.isWritten {depth : Nat} {s : Snapshot} (hs : s.Literal depth) :
    s.IsWritten depth := by
  induction hs with
  | bool depth b =>
    refine ⟨.bool b true, .bool depth b true, ?_, rfl⟩
    cases b <;> rfl
  | int depth n => exact ⟨.int n, .int depth n, rfl, rfl⟩
  | text depth hs => exact isWritten_text hs depth
  | list _ ih =>
    obtain ⟨fs, hfs, htexts, htrees⟩ := exists_lines ih
    refine ⟨.sequence fs, .sequence hfs, ?_, ?_⟩
    · rw [Flow.text, render, listText, htexts]
    · rw [Flow.tree, tree, htrees]

end Snapshot

end Builtins
