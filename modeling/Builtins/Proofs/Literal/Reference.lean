-- References to global names. A source that is an `@` and a name is the same literal as that text
-- between single quotes, alone or as the one item of a sequence.
import Builtins.Proofs.Literal.Offences
import Builtins.Proofs.Literal.ReadBack

namespace Builtins

/-! ## A source between blanks -/

/-- Blanks on both sides of a text that has none at its own ends are trimmed off. -/
theorem Text.trim_between {s before after : List Char} (hs : s ≠ [])
    (hfirst : ∀ c ∈ s.head?, isBlank c = false) (hlast : ∀ c ∈ s.getLast?, isBlank c = false)
    (hbefore : ∀ c ∈ before, isBlank c = true) (hafter : ∀ c ∈ after, isBlank c = true) :
    trim (before ++ s ++ after) = s := by
  have hstart : ∀ {t : List Char} (rest : List Char), t ≠ [] →
      (∀ c ∈ t.head?, isBlank c = false) → trimStart (t ++ rest) = t ++ rest := by
    intro t rest ht hhead
    obtain ⟨c, cs, rfl⟩ := List.exists_cons_of_ne_nil ht
    rw [trimStart, List.cons_append, List.dropWhile_cons_of_neg (by simp [hhead c rfl])]
  have hfront : trimStart (before ++ s ++ after) = s ++ after := by
    rw [trimStart, List.append_assoc, List.dropWhile_append_of_pos hbefore]
    exact hstart after hs hfirst
  have hback : trimStart (s ++ after).reverse = s.reverse := by
    rw [trimStart, List.reverse_append,
      List.dropWhile_append_of_pos fun c hc => hafter c (List.mem_reverse.mp hc)]
    have hwhole := hstart [] (List.reverse_ne_nil_iff.mpr hs) (by simpa using hlast)
    simpa [trimStart] using hwhole
  rw [trim, hfront, hback, List.reverse_reverse]

/-! ## What a source refers to -/

namespace Literal

theorem ofText_reference (g : Globals) (name : String) :
    ofText g ("@" ++ name) = ofGlobal g name := by
  have hname : reference? ("@" ++ name).toList = some name :=
    reference?_eq_some_iff.mpr (by simp)
  rw [ofText, hname]

/-- The name in a bare reference may be printed, and no blank ends it. -/
structure Nameable (name : String) : Prop where
  printable : ∀ c ∈ name.toList, Yaml.Printable c
  ends : name.toList.getLast? ≠ some ' '

namespace Nameable

variable {g : Globals} {name : String} (hname : Nameable name)
include hname

theorem ofSource_bare [Yaml.Reader] {before after : String}
    (hbefore : ∀ c ∈ before.toList, Text.isBlank c = true)
    (hafter : ∀ c ∈ after.toList, Text.isBlank c = true) :
    ofSource g (before ++ "@" ++ name ++ after) = answer (ofGlobal g name) := by
  have hlast : ∀ c ∈ ('@' :: name.toList).getLast?, Text.isBlank c = false := by
    intro c hc
    rw [List.getLast?_cons, Option.mem_some_iff] at hc
    cases hend : name.toList.getLast? with
    | none =>
      rw [hend] at hc
      rw [← hc]
      rfl
    | some d =>
      rw [hend] at hc
      obtain rfl : d = c := hc
      refine Text.isBlank_of_printable (hname.printable d (List.mem_of_getLast? hend)) ?_
      rintro rfl
      exact hname.ends hend
  have htrim : Text.trim (before ++ "@" ++ name ++ after).toList = '@' :: name.toList := by
    have hbetween := Text.trim_between (List.cons_ne_nil _ _)
      (by rintro c ⟨⟩; decide) hlast hbefore hafter
    simpa [String.toList_append] using hbetween
  have hreference : reference? (Text.trim (before ++ "@" ++ name ++ after).toList) = some name :=
    reference?_eq_some_iff.mpr htrim
  unfold ofSource
  rw [hreference]

/-- A source that is a reference and nothing else. -/
theorem ofSource_alone [Yaml.Reader] : ofSource g ("@" ++ name) = answer (ofGlobal g name) := by
  have hnone : ∀ c ∈ "".toList, Text.isBlank c = true := by simp
  simpa using hname.ofSource_bare hnone hnone

theorem printable_reference : ∀ c ∈ ("@" ++ name).toList, Yaml.Printable c := by
  intro c hc
  simp only [String.toList_append, List.mem_append] at hc
  rcases hc with hc | hc
  · obtain rfl : c = '@' := by simpa using hc
    decide
  · exact hname.printable c hc

theorem ofSource_quoted [reader : Yaml.Reader] (hreader : reader.ReadsQuoted) :
    ofSource g (Yaml.singleQuote ("@" ++ name)) = answer (ofGlobal g name) := by
  rw [ofSource_of_tree (Yaml.toList_singleQuote _) (by decide) (by decide)
    (hreader.alone _ hname.printable_reference), ofTree, ofText_reference]

theorem ofSource_bracketed [reader : Yaml.Reader] (hreader : reader.ReadsQuoted) :
    ofSource g ("[" ++ Yaml.singleQuote ("@" ++ name) ++ "]") =
      ofTree g (.sequence [.text ("@" ++ name)]) := by
  have hsource : ("[" ++ Yaml.singleQuote ("@" ++ name) ++ "]").toList =
      '[' :: ((Yaml.singleQuote ("@" ++ name)).toList ++ [']']) := by
    simp [String.toList_append]
  exact ofSource_of_tree hsource (by decide) (by decide)
    (hreader.only _ hname.printable_reference)

end Nameable

/-- A sequence of one reference is a new list of what that refers to. -/
theorem run_ofTree_reference (g : Globals) (name : String) (h : Heap) :
    (ofTree g (.sequence [.text ("@" ++ name)])).run.run h =
      match ofGlobal g name with
      | .ok v => (.ok (.list (h.newList #[v]).1), (h.newList #[v]).2)
      | .error e => (.error e, h) := by
  rw [ofTree, ofTrees, ofTree, ofText_reference]
  cases ofGlobal g name <;> rfl

/-! ## The law -/

/-- A name after an `@`, between blanks or not, is the same literal as that text between single quotes:
the global that has the name, or an unknown one. Between brackets the quoted text is a new list of
that global, and as unknown. This holds for every reader of YAML that reads texts between single
quotes. -/
theorem a_reference_may_be_quoted [reader : Yaml.Reader] (hreader : reader.ReadsQuoted) (g : Globals)
    {name : String} (hname : Nameable name) :
    (∀ before after : String, (∀ c ∈ before.toList, Text.isBlank c = true) →
      (∀ c ∈ after.toList, Text.isBlank c = true) →
        ofSource g (before ++ "@" ++ name ++ after) =
          ofSource g (Yaml.singleQuote ("@" ++ name))) ∧
    ∀ h : Heap,
      match g[name]? with
      | some v =>
        (ofSource g (Yaml.singleQuote ("@" ++ name))).run.run h = (.ok v, h) ∧
          (ofSource g ("[" ++ Yaml.singleQuote ("@" ++ name) ++ "]")).run.run h =
            (.ok (.list (h.newList #[v]).1), (h.newList #[v]).2)
      | none =>
        (ofSource g (Yaml.singleQuote ("@" ++ name))).run.run h =
            (.error (.unknownGlobal name), h) ∧
          (ofSource g ("[" ++ Yaml.singleQuote ("@" ++ name) ++ "]")).run.run h =
            (.error (.unknownGlobal name), h) := by
  constructor
  · intro before after hbefore hafter
    rw [hname.ofSource_bare hbefore hafter, hname.ofSource_quoted hreader]
  · intro h
    rw [hname.ofSource_quoted hreader, hname.ofSource_bracketed hreader, run_ofTree_reference]
    cases hv : g[name]? with
    | some v =>
      simp only [ofGlobal, hv]
      exact ⟨rfl, trivial⟩
    | none =>
      simp only [ofGlobal, hv]
      exact ⟨rfl, trivial⟩

/-- A name that has an `@`, a blank, a quote and a comment sign of its own. -/
theorem a_name_full_of_marks_may_be_quoted :
    let g : Globals := Globals.initial.insert "@ it's #1" (.int 7)
    Nameable "@ it's #1" ∧ Yaml.singleQuote ("@" ++ "@ it's #1") = "'@@ it''s #1'" ∧
      ofSource g "\t@@ it's #1 \n" = ofSource g "'@@ it''s #1'" ∧
      (ofSource g "['@@ it''s #1']").run.run {} =
        (.ok (.list ⟨0⟩), { lists := #[#[.int 7]] }) := by
  intro g
  have hname : Nameable "@ it's #1" := ⟨by simp [Yaml.Printable], by simp⟩
  have hquote : Yaml.singleQuote ("@" ++ "@ it's #1") = "'@@ it''s #1'" := by decide
  obtain ⟨hbare, hmeans⟩ :=
    a_reference_may_be_quoted Yaml.nodeReader_readsFlow.readsQuoted g hname
  refine ⟨hname, hquote, ?_, ?_⟩
  · rw [← hquote]
    exact hbare "\t" " \n" (by simp [Text.isBlank]) (by simp [Text.isBlank])
  · have hv : g["@ it's #1"]? = some (.int 7) := Std.TreeMap.getElem?_insert_self
    have hlist := hmeans {}
    rw [hv, hquote] at hlist
    exact hlist.2

end Literal

end Builtins
