-- The text of a value given back as a literal. For truth values, integers, lists and all texts that
-- need no escapes, what is printed is a line of YAML for the very same data, so any reader that reads
-- such lines as what they say gives the value back.
import Builtins.Proofs.Literal.Encoding
import Builtins.Proofs.Snapshot.Alike
import Builtins.Proofs.Yaml.FlowNodes

namespace Builtins

/-! ## The start of a source -/

theorem Text.isBlank_of_printable {c : Char} (hc : Yaml.Printable c) (hspace : c ≠ ' ') :
    Text.isBlank c = false := by
  have hcode : c.toNat ≠ 0x20 := fun h => hspace (Char.toNat_inj.mp h)
  obtain ⟨hlow, hhigh⟩ := hc
  simp [Text.isBlank]
  omega

/-- A text that begins with no blank still begins with the same character when it is trimmed. -/
theorem Text.trim_cons {c : Char} (hc : Text.isBlank c = false) (cs : List Char) :
    ∃ rest, Text.trim (c :: cs) = c :: rest := by
  have hstart : Text.trimStart (c :: cs) = c :: cs := by
    simp [Text.trimStart, hc]
  have hend : ∃ before, (cs.reverse ++ [c]).dropWhile Text.isBlank = before ++ [c] := by
    rw [List.dropWhile_append]
    split
    · exact ⟨[], by simp [hc]⟩
    · exact ⟨_, rfl⟩
  obtain ⟨before, hbefore⟩ := hend
  refine ⟨before.reverse, ?_⟩
  rw [Text.trim, hstart, List.reverse_cons, Text.trimStart, hbefore]
  simp

/-- A text that begins with neither a blank nor an `@` is no reference. -/
theorem Literal.reference?_trim_cons {c : Char} (hblank : Text.isBlank c = false) (hname : c ≠ '@')
    (cs : List Char) : reference? (Text.trim (c :: cs)) = none := by
  obtain ⟨rest, htrim⟩ := Text.trim_cons hblank cs
  rw [htrim]
  unfold reference?
  split
  · next h => exact absurd (List.cons.inj h).1 hname
  · rfl

namespace Yaml.Flow

/-- A line begins with no blank, and is no reference. -/
theorem Fits.begins {n : Nat} {f : Flow} (hf : f.Fits n) :
    ∃ c rest, f.text.toList = c :: rest ∧ Text.isBlank c = false ∧ c ≠ '@' := by
  have hbare : f.Bare → ∃ c rest, f.text.toList = c :: rest ∧ Text.isBlank c = false ∧ c ≠ '@' := by
    intro hf
    obtain ⟨c, cs, hchars, hword⟩ := hf.exists_word
    have hblank := Text.isBlank_of_printable (printable_of_isWordChar hword.head)
      (ne_of_isWordChar hword.head rfl)
    exact ⟨c, cs, hchars, hblank, ne_of_isWordChar hword.head rfl⟩
  cases hf with
  | bool _ b capital => exact hbare (.bool b capital)
  | int _ n => exact hbare (.int n)
  | singleQuoted _ _ => exact ⟨_, _, chars_singleQuoted _, by decide⟩
  | doubleQuoted _ _ _ _ => exact ⟨_, _, chars_doubleQuoted _, by decide⟩
  | @sequence _ fs _ =>
    cases fs with
    | nil => exact ⟨_, _, chars_sequence_nil, by decide⟩
    | cons f fs => exact ⟨_, _, chars_sequence_cons f fs, by decide⟩

end Yaml.Flow

namespace Literal

variable [reader : Yaml.Reader]

/-- A source that begins with another character than a blank and an `@` is read as data. -/
theorem ofSource_of_tree {g : Globals} {source : String} {c : Char} {cs : List Char} {t : Yaml.Tree}
    (hsource : source.toList = c :: cs) (hblank : Text.isBlank c = false) (hname : c ≠ '@')
    (ht : reader.tree? source = some t) : ofSource g source = ofTree g t := by
  unfold ofSource
  rw [hsource, reference?_trim_cons hblank hname, ht]

/-- A line means what is written there. -/
theorem ofSource_text (hreader : reader.ReadsFlow) (g : Globals) {f : Yaml.Flow}
    (hf : f.Fits Yaml.Tree.maxDepth) : ofSource g f.text = ofTree g f.tree := by
  obtain ⟨c, rest, hchars, hblank, hname⟩ := hf.begins
  exact ofSource_of_tree hchars hblank hname (hreader f hf)

end Literal

/-! ## The law -/

/-- The text of a value that can be given back is a literal with a value that is structurally equal,
whatever the global names are, and the lists that there are stay as they are. This holds for every
reader of YAML that reads lines as what is written there. -/
theorem a_printed_value_is_a_literal [reader : Yaml.Reader] (hreader : reader.ReadsFlow) (g : Globals)
    {h : Heap} {v : Value} (hv : h.Literal Yaml.Tree.maxDepth v) (before : Heap) :
    ∃ v' after, (Literal.ofSource g (h.repr v)).run.run before = (.ok v', after) ∧
      after.Alike h v' v ∧ after.Plain v' ∧ before.Extends after := by
  have hs := hv.snapshot
  obtain ⟨v', after, hrun, hmore, hplain, hsame⟩ := hs.encodable.isMade g before
  obtain ⟨f, hfits, htext, htree⟩ := hs.isWritten
  refine ⟨v', after, ?_, hplain.alike hv.plain hsame, hplain, hmore⟩
  have hmeans : Literal.ofSource g (h.repr v) = Literal.ofTree g (h.snapshot v).tree := by
    rw [← htree, ← Literal.ofSource_text hreader g hfits, htext]
    rfl
  rw [hmeans]
  exact hrun

/-- A list with a list and a text in it that is full of marks of its own. -/
theorem a_text_full_of_marks_is_given_back :
    let h : Heap := { lists := #[#[.int (-5), .text "it's, [ok]: #", .list ⟨1⟩], #[.bool true]] }
    h.Literal Yaml.Tree.maxDepth (.list ⟨0⟩) ∧
      h.repr (.list ⟨0⟩) = "[-5, \"it's, [ok]: #\", [True]]" ∧
      ∃ v' after, (Literal.ofSource ∅ (h.repr (.list ⟨0⟩))).run.run {} = (.ok v', after) ∧
        after.Alike h v' (.list ⟨0⟩) := by
  intro h
  have hinner : h.Literal 127 (.list ⟨1⟩) := by
    refine .list (by decide) fun x hx => ?_
    obtain rfl : x = .bool true := by simpa [h, Heap.list] using hx
    exact .bool _ _
  have hlist : h.Literal Yaml.Tree.maxDepth (.list ⟨0⟩) := by
    refine .list (by decide) fun x hx => ?_
    obtain rfl | rfl | rfl : x = .int (-5) ∨ x = .text "it's, [ok]: #" ∨ x = .list ⟨1⟩ := by
      simpa [h, Heap.list] using hx
    · exact .int _ _
    · exact .text _ ⟨by simp [Yaml.Printable], by decide, by decide, by decide⟩
    · exact hinner
  obtain ⟨v', after, hrun, halike, -⟩ :=
    a_printed_value_is_a_literal Yaml.nodeReader_readsFlow ∅ hlist {}
  exact ⟨hlist, by decide, v', after, hrun, halike⟩

end Builtins
