-- Which data is a literal. A literal goes into sequences and tuples, item by item, and each node that
-- it comes to is one that it may have, or the first one that it may not have is its error. What it
-- does not go into makes no difference.
import Builtins.Proofs.Literal.Outcome

namespace Builtins

open Literal (tupleTag)

/-! ## The nodes that a literal comes to -/

namespace Yaml.Tree

/-- Whether a literal comes to a node of a tree: to the tree itself, and to what it comes to in the
items of a sequence, which may be under the tag of tuples. -/
inductive Visits : Tree → Tree → Prop
  | self (t : Tree) : Visits t t
  | item {items : List Tree} {t u : Tree} (ht : t ∈ items) (hu : Visits t u) :
    Visits (.sequence items) u
  | tupleItem {tag : String} {items : List Tree} {t u : Tree} (htag : bareTag tag = tupleTag)
    (ht : t ∈ items) (hu : Visits t u) : Visits (.tagged tag (.sequence items)) u

mutual

/-- The nodes that a literal comes to, from the left, each before those that are under it. -/
def visited : Tree → List Tree
  | .sequence items => .sequence items :: visitedAll items
  | .tagged tag (.sequence items) =>
    .tagged tag (.sequence items) :: if bareTag tag = tupleTag then visitedAll items else []
  | t => [t]

def visitedAll : List Tree → List Tree
  | [] => []
  | t :: ts => t.visited ++ visitedAll ts

end

theorem visitedAll_eq_flatMap (ts : List Tree) : visitedAll ts = ts.flatMap visited := by
  induction ts with
  | nil => rfl
  | cons t ts ih => rw [visitedAll, ih, List.flatMap_cons]

/-- Under another tag than that of tuples no literal goes into anything. -/
theorem visited_tagged_of_ne {tag : String} (htag : bareTag tag ≠ tupleTag) (content : Tree) :
    (tagged tag content).visited = [.tagged tag content] := by
  cases content with
  | sequence items => rw [visited, if_neg htag]
  | _ => rfl

theorem self_mem_visited (t : Tree) : t ∈ t.visited := by
  unfold visited
  split <;> exact List.mem_cons_self

mutual

theorem visits_of_mem_visited : ∀ {t u : Tree}, u ∈ t.visited → t.Visits u
  | .sequence items, u, hu => by
    rcases List.mem_cons.mp hu with rfl | hu
    · exact .self _
    · obtain ⟨t, ht, hvisits⟩ := exists_of_mem_visitedAll hu
      exact .item ht hvisits
  | .tagged tag (.sequence items), u, hu => by
    rcases List.mem_cons.mp hu with rfl | hu
    · exact .self _
    · split at hu
      · next htag =>
        obtain ⟨t, ht, hvisits⟩ := exists_of_mem_visitedAll hu
        exact .tupleItem htag ht hvisits
      · exact absurd hu List.not_mem_nil
  | .null, _, hu | .bool _, _, hu | .int _, _, hu | .float _, _, hu | .text _, _, hu
  | .mapping _, _, hu | .tagged _ .null, _, hu | .tagged _ (.bool _), _, hu
  | .tagged _ (.int _), _, hu | .tagged _ (.float _), _, hu | .tagged _ (.text _), _, hu
  | .tagged _ (.mapping _), _, hu | .tagged _ (.tagged _ _), _, hu => by
    rw [List.mem_singleton.mp hu]
    exact .self _

theorem exists_of_mem_visitedAll : ∀ {ts : List Tree} {u : Tree}, u ∈ visitedAll ts →
    ∃ t ∈ ts, t.Visits u
  | t :: ts, u, hu => by
    rcases List.mem_append.mp hu with hu | hu
    · exact ⟨t, List.mem_cons_self, visits_of_mem_visited hu⟩
    · obtain ⟨s, hs, hvisits⟩ := exists_of_mem_visitedAll hu
      exact ⟨s, List.mem_cons_of_mem t hs, hvisits⟩

end

theorem mem_visited_iff {t u : Tree} : u ∈ t.visited ↔ t.Visits u := by
  constructor
  · exact visits_of_mem_visited
  · intro hvisits
    induction hvisits with
    | self t => exact self_mem_visited t
    | item ht _ ih =>
      rw [visited, visitedAll_eq_flatMap]
      exact List.mem_cons_of_mem _ (List.mem_flatMap_of_mem ht ih)
    | tupleItem htag ht _ ih =>
      rw [visited, if_pos htag, visitedAll_eq_flatMap]
      exact List.mem_cons_of_mem _ (List.mem_flatMap_of_mem ht ih)

/-! ## What a literal does not go into -/

mutual

/-- A tree without what a literal does not go into: the entries of mappings, and what is under a
tag, unless it is a sequence under the tag of tuples. -/
def outline : Tree → Tree
  | .sequence items => .sequence (outlines items)
  | .mapping _ => .mapping []
  | .tagged tag (.sequence items) =>
    if bareTag tag = tupleTag then .tagged tag (.sequence (outlines items)) else .tagged tag .null
  | .tagged tag _ => .tagged tag .null
  | t => t

def outlines : List Tree → List Tree
  | [] => []
  | t :: ts => t.outline :: outlines ts

end

end Yaml.Tree

/-! ## Offending nodes -/

namespace Literal

/-- The error of a node that no literal may have, whatever is under it. -/
inductive Offence (g : Globals) : Yaml.Tree → LiteralError → Prop
  | mapping (entries : List (Yaml.Tree × Yaml.Tree)) :
    Offence g (.mapping entries) (.unsupported "mapping")
  | float (x : Decimal.Binary64) : Offence g (.float x) (.unsupported ("number " ++ x.render))
  | int {n : Int} (hn : ¬ Word.Fits n) : Offence g (.int n) (.unsupported ("number " ++ toString n))
  | tag {tag : String} (htag : Yaml.bareTag tag ≠ tupleTag) (content : Yaml.Tree) :
    Offence g (.tagged tag content) (.unsupported ("tag !" ++ Yaml.bareTag tag))
  | tuple {tag : String} (htag : Yaml.bareTag tag = tupleTag) {content : Yaml.Tree}
    (hcontent : ∀ items, content ≠ .sequence items) :
    Offence g (.tagged tag content) (.unsupported "!tuple without a sequence")
  | name {s name : String} (hs : s.toList = '@' :: name.toList) (hname : g[name]? = none) :
    Offence g (.text s) (.unknownGlobal name)

/-- Whether a node is one that no literal may have. -/
def Offends (g : Globals) (t : Yaml.Tree) : Prop := ∃ e, Offence g t e

/-- The error of a result, if it is one. -/
def error? {α : Type} : Except LiteralError α → Option LiteralError
  | .ok _ => none
  | .error e => some e

/-- The error of a node by itself. -/
def offence? (g : Globals) : Yaml.Tree → Option LiteralError
  | .int n => error? (ofInt n)
  | .float x => some (.unsupported ("number " ++ x.render))
  | .text s => error? (ofText g s)
  | .mapping _ => some (.unsupported "mapping")
  | .tagged tag (.sequence _) => if Yaml.bareTag tag = tupleTag then none else some (tagError tag)
  | .tagged tag _ => some (tagError tag)
  | _ => none

variable {g : Globals}

theorem reference?_eq_some_iff {cs : List Char} {name : String} :
    reference? cs = some name ↔ cs = '@' :: name.toList := by
  unfold reference?
  split
  · next rest =>
    rw [Option.some.injEq]
    constructor
    · rintro rfl
      rw [String.toList_ofList]
    · intro h
      rw [(List.cons.inj h).2, String.ofList_toList]
  · next hnot => exact ⟨by simp, fun h => absurd h (hnot _)⟩

theorem error?_ofInt_eq_some_iff {n : Int} {e : LiteralError} :
    error? (ofInt n) = some e ↔ ¬ Word.Fits n ∧ e = .unsupported ("number " ++ toString n) := by
  unfold ofInt
  cases hn : Word.ofInt? n with
  | none => simp [error?, Word.ofInt?_eq_none_iff.mp hn, eq_comm]
  | some w =>
    have hfits : Word.Fits n := by
      rw [← Word.ofInt?_eq_some_iff.mp hn]
      exact Word.fits_toInt w
    simp [error?, hfits]

theorem error?_ofText_eq_some_iff {s : String} {e : LiteralError} :
    error? (ofText g s) = some e ↔
      ∃ name : String, s.toList = '@' :: name.toList ∧ g[name]? = none ∧ e = .unknownGlobal name := by
  unfold ofText
  cases hs : reference? s.toList with
  | none =>
    have hnot : ∀ name : String, s.toList ≠ '@' :: name.toList := by
      intro name h
      rw [reference?_eq_some_iff.mpr h] at hs
      cases hs
    simp [error?, hnot]
  | some name =>
    have hname : ∀ other : String, s.toList = '@' :: other.toList ↔ name = other := by
      intro other
      rw [← reference?_eq_some_iff, hs, Option.some.injEq]
    cases hg : g[name]? with
    | none =>
      simp only [ofGlobal, hg, error?, hname]
      constructor
      · rintro ⟨⟩
        exact ⟨name, rfl, hg, rfl⟩
      · rintro ⟨_, rfl, -, rfl⟩
        rfl
    | some v =>
      simp only [ofGlobal, hg, error?, hname]
      constructor
      · rintro ⟨⟩
      · rintro ⟨_, rfl, hnone, -⟩
        rw [hg] at hnone
        cases hnone

theorem tagError_of_eq {tag : String} (htag : Yaml.bareTag tag = tupleTag) :
    tagError tag = .unsupported "!tuple without a sequence" := by
  simp [tagError, htag]

theorem tagError_of_ne {tag : String} (htag : Yaml.bareTag tag ≠ tupleTag) :
    tagError tag = .unsupported ("tag !" ++ Yaml.bareTag tag) := by
  simp [tagError, htag]

/-- Content that is no sequence is an offence under any tag. -/
theorem offence_tagged_iff {tag : String} {content : Yaml.Tree}
    (hcontent : ∀ items, content ≠ .sequence items) {e : LiteralError} :
    Offence g (.tagged tag content) e ↔ e = tagError tag := by
  constructor
  · rintro (_ | _ | _ | ⟨htag, _⟩ | ⟨htag, _⟩ | _)
    · exact (tagError_of_ne htag).symm
    · exact (tagError_of_eq htag).symm
  · rintro rfl
    by_cases htag : Yaml.bareTag tag = tupleTag
    · rw [tagError_of_eq htag]
      exact .tuple htag hcontent
    · rw [tagError_of_ne htag]
      exact .tag htag content

theorem offence_tagged_sequence_iff {tag : String} {items : List Yaml.Tree} {e : LiteralError} :
    Offence g (.tagged tag (.sequence items)) e ↔
      Yaml.bareTag tag ≠ tupleTag ∧ e = tagError tag := by
  constructor
  · rintro (_ | _ | _ | ⟨htag, _⟩ | ⟨_, hcontent⟩ | _)
    · exact ⟨htag, (tagError_of_ne htag).symm⟩
    · exact absurd rfl (hcontent items)
  · rintro ⟨htag, rfl⟩
    rw [tagError_of_ne htag]
    exact .tag htag _

theorem offence?_eq_some_iff {t : Yaml.Tree} {e : LiteralError} :
    offence? g t = some e ↔ Offence g t e := by
  have htagged : ∀ (tag : String) {content : Yaml.Tree},
      (∀ items, content ≠ .sequence items) →
        (some (tagError tag) = some e ↔ Offence g (.tagged tag content) e) := by
    intro tag content hcontent
    rw [offence_tagged_iff hcontent, Option.some.injEq, eq_comm]
  cases t with
  | null => exact ⟨by rintro ⟨⟩, by rintro ⟨⟩⟩
  | bool b => exact ⟨by rintro ⟨⟩, by rintro ⟨⟩⟩
  | sequence items => exact ⟨by rintro ⟨⟩, by rintro ⟨⟩⟩
  | int n =>
    rw [offence?, error?_ofInt_eq_some_iff]
    constructor
    · rintro ⟨hn, rfl⟩
      exact .int hn
    · rintro ⟨⟩
      exact ⟨‹_›, rfl⟩
  | float x => exact ⟨by rintro ⟨⟩; exact .float x, by rintro ⟨⟩; rfl⟩
  | text s =>
    rw [offence?, error?_ofText_eq_some_iff]
    constructor
    · rintro ⟨name, hs, hname, rfl⟩
      exact .name hs hname
    · rintro ⟨⟩
      exact ⟨_, ‹_›, ‹_›, rfl⟩
  | mapping entries => exact ⟨by rintro ⟨⟩; exact .mapping entries, by rintro ⟨⟩; rfl⟩
  | tagged tag content =>
    cases content with
    | sequence items =>
      rw [offence?, offence_tagged_sequence_iff]
      split
      · next htag => simp [htag]
      · next htag => simp [htag, eq_comm]
    | _ => exact htagged tag (by simp)

/-! ## The first error -/

/-- Whether a step fails with the error of the first node that offends, and answers if none does. -/
def Reports {α : Type} (g : Globals) (nodes : List Yaml.Tree) (a : Step α) : Prop :=
  ∀ h, error? (a.run.run h).1 = nodes.findSome? (offence? g)

variable {α β : Type} {nodes more : List Yaml.Tree}

theorem reports_pure (g : Globals) (x : α) : Reports g [] (pure x : Step α) := fun _ => rfl

theorem reports_answer {t : Yaml.Tree} {result : Except LiteralError α}
    (hresult : offence? g t = error? result) : Reports g [t] (answer result) := by
  intro h
  rw [List.findSome?_singleton, hresult]
  rfl

theorem reports_throw {t : Yaml.Tree} {e : LiteralError} (he : offence? g t = some e) :
    Reports g [t] (throw e : Step α) := reports_answer he

/-- What comes after an error is not reported. -/
theorem Reports.bind {a : Step α} {f : α → Step β} (ha : Reports g nodes a)
    (hf : ∀ x, Reports g more (f x)) : Reports g (nodes ++ more) (a >>= f) := by
  intro h
  rw [List.findSome?_append, ← ha h]
  rcases hx : a.run.run h with ⟨e | x, h'⟩
  · rw [run_bind_error hx]
    rfl
  · rw [run_bind hx]
    exact hf x h'

/-- What cannot fail has nothing to report. -/
theorem Reports.andThen {a : Step α} {f : α → Step β} (ha : Reports g nodes a)
    (hf : ∀ x, Reports g [] (f x)) : Reports g nodes (a >>= f) := by
  have hboth := ha.bind hf
  rwa [List.append_nil] at hboth

/-- A node that does not offend leaves the report to the nodes under it. -/
theorem Reports.under {t : Yaml.Tree} {a : Step α} (ht : offence? g t = none)
    (ha : Reports g nodes a) : Reports g (t :: nodes) a := by
  intro h
  rw [ha h, List.findSome?_cons_of_isNone (by simp [ht])]

theorem reports_newList (g : Globals) (vs : List Value) : Reports g [] (newList vs) :=
  fun _ => rfl

theorem offends_iff {t : Yaml.Tree} : Offends g t ↔ offence? g t ≠ none := by
  rw [Option.ne_none_iff_exists']
  exact exists_congr fun _ => offence?_eq_some_iff.symm

theorem exists_ok_iff {a : Step α} {h : Heap} :
    (∃ x h', a.run.run h = (.ok x, h')) ↔ error? (a.run.run h).1 = none := by
  rcases a.run.run h with ⟨e | x, h'⟩
  · exact ⟨by rintro ⟨x, h', ⟨⟩⟩, by rintro ⟨⟩⟩
  · exact ⟨fun _ => rfl, fun _ => ⟨x, h', rfl⟩⟩

theorem exists_error_iff {a : Step α} {h : Heap} {e : LiteralError} :
    (∃ h', a.run.run h = (.error e, h')) ↔ error? (a.run.run h).1 = some e := by
  rcases a.run.run h with ⟨e' | x, h'⟩
  · exact ⟨by rintro ⟨h', ⟨⟩⟩; rfl, by rintro ⟨⟩; exact ⟨h', rfl⟩⟩
  · exact ⟨by rintro ⟨h', ⟨⟩⟩, by rintro ⟨⟩⟩

mutual

/-- A piece of data reports the first offence among the nodes that a literal comes to. -/
theorem reports_ofTree (g : Globals) : ∀ t : Yaml.Tree, Reports g t.visited (ofTree g t)
  | .null => (reports_pure g _).under rfl
  | .bool _ => (reports_pure g _).under rfl
  | .int _ => reports_answer rfl
  | .float _ => reports_throw rfl
  | .text _ => reports_answer rfl
  | .sequence items => ((reports_ofTrees g items).andThen (reports_newList g)).under rfl
  | .mapping _ => reports_throw rfl
  | .tagged tag (.sequence items) => by
    rw [ofTree, Yaml.Tree.visited]
    by_cases htag : Yaml.bareTag tag = tupleTag
    · rw [if_pos htag, if_pos (beq_iff_eq.mpr htag)]
      have hitems := (reports_ofTrees g items).andThen fun vs => reports_pure g (Value.tuple vs)
      exact hitems.under (by rw [offence?, if_pos htag])
    · rw [if_neg htag, if_neg (by simpa using htag)]
      exact reports_throw (by rw [offence?, if_neg htag])
  | .tagged _ .null | .tagged _ (.bool _) | .tagged _ (.int _) | .tagged _ (.float _)
  | .tagged _ (.text _) | .tagged _ (.mapping _) | .tagged _ (.tagged _ _) => reports_throw rfl

theorem reports_ofTrees (g : Globals) : ∀ ts : List Yaml.Tree,
    Reports g (Yaml.Tree.visitedAll ts) (ofTrees g ts)
  | [] => reports_pure g _
  | t :: ts => (reports_ofTree g t).bind fun _ =>
    (reports_ofTrees g ts).andThen fun _ => reports_pure g _

end

/-! ## What makes no difference -/

mutual

theorem ofTree_outline (g : Globals) : ∀ t : Yaml.Tree, ofTree g t.outline = ofTree g t
  | .sequence items => by
    rw [Yaml.Tree.outline, ofTree, ofTree, ofTrees_outlines g items]
  | .tagged tag (.sequence items) => by
    rw [Yaml.Tree.outline]
    split
    · rw [ofTree, ofTree, ofTrees_outlines g items]
    · next htag => rw [ofTree, ofTree, if_neg (by simpa using htag)]; simp
  | .null | .bool _ | .int _ | .float _ | .text _ | .mapping _ | .tagged _ .null
  | .tagged _ (.bool _) | .tagged _ (.int _) | .tagged _ (.float _) | .tagged _ (.text _)
  | .tagged _ (.mapping _) | .tagged _ (.tagged _ _) => rfl

theorem ofTrees_outlines (g : Globals) : ∀ ts : List Yaml.Tree,
    ofTrees g (Yaml.Tree.outlines ts) = ofTrees g ts
  | [] => rfl
  | t :: ts => by
    rw [Yaml.Tree.outlines, ofTrees, ofTrees, ofTree_outline g t, ofTrees_outlines g ts]

end

/-! ## The law -/

/-- A piece of data is a literal if and only if no node offends that a literal comes to. Its error is
that of the first such node, in depth and from the left, and what a literal does not go into makes
no difference. -/
theorem a_literal_fails_at_its_first_offending_node (g : Globals) (t : Yaml.Tree) (h : Heap) :
    ((∃ v h', (ofTree g t).run.run h = (.ok v, h')) ↔ ∀ u, t.Visits u → ¬ Offends g u) ∧
      (∀ e, (∃ h', (ofTree g t).run.run h = (.error e, h')) ↔
        ∃ before u after, t.visited = before ++ u :: after ∧ (∀ w ∈ before, ¬ Offends g w) ∧
          Offence g u e) ∧
      (∀ u, u ∈ t.visited ↔ t.Visits u) ∧
      ∀ t' : Yaml.Tree, t'.outline = t.outline → ofTree g t' = ofTree g t := by
  refine ⟨?answers, ?fails, fun u => Yaml.Tree.mem_visited_iff, ?same⟩
  case answers =>
    rw [exists_ok_iff, reports_ofTree g t h, List.findSome?_eq_none_iff]
    simp only [Yaml.Tree.mem_visited_iff, offends_iff, not_not]
  case fails =>
    intro e
    rw [exists_error_iff, reports_ofTree g t h, List.findSome?_eq_some_iff]
    simp only [offends_iff, not_not, offence?_eq_some_iff]
    constructor
    · rintro ⟨before, u, after, hvisited, hu, hbefore⟩
      exact ⟨before, u, after, hvisited, hbefore, hu⟩
    · rintro ⟨before, u, after, hvisited, hbefore, hu⟩
      exact ⟨before, u, after, hvisited, hu, hbefore⟩
  case same =>
    intro t' houtline
    rw [← ofTree_outline g t', houtline, ofTree_outline g t]

/-- A tag that no literal has comes before a name that is not known, and what is under the tag does
not matter. -/
theorem an_unknown_tag_hides_what_is_under_it :
    let t (content : Yaml.Tree) : Yaml.Tree :=
      .sequence [.int 1, .tagged "set" content, .text "@nobody"]
    (∀ content, ∃ h', (ofTree ∅ (t content)).run.run {} = (.error (.unsupported "tag !set"), h')) ∧
      ofTree ∅ (t (.mapping [])) = ofTree ∅ (t (.sequence [.text "@nobody"])) := by
  intro t
  have htag : Yaml.bareTag "set" ≠ tupleTag := by decide
  refine ⟨fun content => ?_, ?_⟩
  · obtain ⟨-, hfails, -⟩ := a_literal_fails_at_its_first_offending_node ∅ (t content) {}
    have hvisited : (t content).visited =
        t content :: .int 1 :: ((Yaml.Tree.tagged "set" content).visited ++ [.text "@nobody"]) := rfl
    rw [Yaml.Tree.visited_tagged_of_ne htag] at hvisited
    refine (hfails _).mpr ⟨[t content, .int 1], _, _, hvisited, ?_, .tag htag content⟩
    intro w hw
    obtain rfl | rfl : w = t content ∨ w = .int 1 := by simpa using hw
    · rintro ⟨_, ⟨⟩⟩
    · rintro ⟨_, ⟨⟩⟩
      exact absurd (show Word.Fits 1 by decide) ‹_›
  · obtain ⟨-, -, -, hsame⟩ := a_literal_fails_at_its_first_offending_node ∅
      (t (.sequence [.text "@nobody"])) {}
    exact hsame (t (.mapping [])) rfl

end Literal

end Builtins
