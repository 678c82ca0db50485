-- What the tokens of data on one line are read as: a scalar for each word and each quoted text, and
-- between brackets the sequence of the items. So the reader by nodes reads lines as what they say.
import Builtins.Proofs.Yaml.FlowTokens
import Builtins.Proofs.Yaml.Scalar

namespace Builtins.Yaml

/-! ## Items between brackets -/

namespace Node

/-- Tokens that begin with a scalar or with an opening bracket. -/
inductive Starts : List Token → Prop
  | scalar (style : Style) (s : String) (ts : List Token) : Starts (.scalar style s :: ts)
  | bracket (ts : List Token) : Starts (.flowSequenceStart :: ts)

/-- An item and the items after it. -/
def readItems (fuel : Nat) (ts : List Token) : Option (List Node × List Token) := do
  let (item, ts) ← readFlowItem fuel ts
  let (items, ts) ← readFlowSequence fuel false ts
  return (item :: items, ts)

namespace Starts

variable {ts : List Token} (hstarts : Starts ts) (fuel : Nat)
include hstarts

theorem readFlowSequence_first :
    readFlowSequence (fuel + 1) true ts = readItems fuel ts := by
  cases hstarts <;> simp [readFlowSequence, takeComma, readItems]

theorem readFlowSequence_next :
    readFlowSequence (fuel + 1) false (.flowEntry :: ts) = readItems fuel ts := by
  cases hstarts <;> simp [readFlowSequence, takeComma, readItems]

theorem readFlowItem_eq : readFlowItem (fuel + 1) ts = read fuel false false ts := by
  cases hstarts <;> simp [readFlowItem]

end Starts

end Node

namespace Flow

mutual

/-- The node of a line. -/
def node : Flow → Node
  | singleQuoted s | doubleQuoted s => .scalar none .quoted s
  | sequence items => .sequence none (nodes items)
  | f => .scalar none .plain f.text

def nodes : List Flow → List Node
  | [] => []
  | f :: fs => f.node :: nodes fs

end

/-! ## Nodes -/

theorem starts (f : Flow) (ts : List Token) : Node.Starts (f.tokens ++ ts) := by
  cases f with
  | bool b capital => exact .scalar _ _ _
  | int n => exact .scalar _ _ _
  | singleQuoted s => exact .scalar _ _ _
  | doubleQuoted s => exact .scalar _ _ _
  | sequence fs =>
    cases fs with
    | nil => exact .bracket _
    | cons f fs => exact .bracket _

theorem tokens_pos (f : Flow) : 0 < f.tokens.length := by
  have hstarts := f.starts []
  rw [List.append_nil] at hstarts
  generalize f.tokens = ts at hstarts
  cases hstarts <;> simp

/-- Whether the tokens of a line are read as its node, with fuel enough. -/
def ReadsBack (f : Flow) : Prop :=
  ∀ (fuel : Nat) (inBlock inMapping : Bool) (rest : List Token), 2 * f.tokens.length ≤ fuel →
    Node.read fuel inBlock inMapping (f.tokens ++ rest) = some (f.node, rest)

/-- A scalar is read back from its one token. -/
theorem ReadsBack.scalar {f : Flow} {style : Style} {word : String}
    (htokens : f.tokens = [.scalar style word]) (hnode : f.node = .scalar none style word) :
    f.ReadsBack := by
  intro fuel inBlock inMapping rest hfuel
  rw [htokens] at hfuel
  obtain ⟨fuel, rfl⟩ : ∃ k, fuel = k + 1 := ⟨fuel - 1, by simp at hfuel; omega⟩
  rw [htokens, hnode]
  simp [Node.read, Node.takeTag]

/-- An item that is read back comes before the items after it. -/
theorem ReadsBack.readItems {f : Flow} (hread : f.ReadsBack) {fuel : Nat} (ts : List Token)
    (hfuel : 2 * f.tokens.length ≤ fuel) :
    Node.readItems (fuel + 1) (f.tokens ++ ts) =
      (Node.readFlowSequence (fuel + 1) false ts).map fun p => (f.node :: p.1, p.2) := by
  unfold Node.readItems
  rw [(f.starts ts).readFlowItem_eq, hread fuel false false ts hfuel]
  simp only [Option.bind_eq_bind, Option.bind_some]
  cases Node.readFlowSequence (fuel + 1) false ts <;> rfl

/-- Items are read back one after the other, up to the closing bracket. -/
theorem readItems_eq {f : Flow} {fs : List Flow} (hread : ∀ d ∈ f :: fs, d.ReadsBack) {fuel : Nat}
    (hfuel : 2 * f.tokens.length + 2 * (moreTokens fs).length < fuel) (rest : List Token) :
    Node.readItems fuel (f.tokens ++ (moreTokens fs ++ .flowSequenceEnd :: rest)) =
      some (f.node :: nodes fs, rest) := by
  induction fs generalizing f fuel with
  | nil =>
    obtain ⟨fuel, rfl⟩ : ∃ k, fuel = k + 1 := ⟨fuel - 1, by omega⟩
    rw [(hread f List.mem_cons_self).readItems _ (by omega)]
    simp [moreTokens, nodes, Node.readFlowSequence]
  | cons d fs ih =>
    have hpos := f.tokens_pos
    have hlength :
        (moreTokens (d :: fs)).length = 1 + d.tokens.length + (moreTokens fs).length := by
      simp [moreTokens]
      omega
    obtain ⟨fuel, rfl⟩ : ∃ k, fuel = k + 1 := ⟨fuel - 1, by omega⟩
    have hmore := ih (fun e he => hread e (List.mem_cons_of_mem f he)) (show _ < fuel by omega)
    have hstarts := d.starts (moreTokens fs ++ .flowSequenceEnd :: rest)
    have hnext := (hstarts.readFlowSequence_next fuel).trans hmore
    rw [(hread f List.mem_cons_self).readItems _ (by omega)]
    simp [moreTokens, nodes, hnext]

theorem readsBack_sequence {fs : List Flow} (hread : ∀ f ∈ fs, f.ReadsBack) :
    (sequence fs).ReadsBack := by
  intro fuel inBlock inMapping rest hfuel
  cases fs with
  | nil =>
    obtain ⟨fuel, rfl⟩ : ∃ k, fuel = k + 2 := ⟨fuel - 2, by simp [tokens] at hfuel; omega⟩
    simp [tokens, node, nodes, Node.read, Node.takeTag, Node.readFlowSequence]
  | cons f fs =>
    simp [tokens] at hfuel
    obtain ⟨fuel, rfl⟩ : ∃ k, fuel = k + 2 := ⟨fuel - 2, by omega⟩
    have hitems := readItems_eq hread (show _ < fuel by omega) rest
    have hstarts := f.starts (moreTokens fs ++ .flowSequenceEnd :: rest)
    have hfirst := (hstarts.readFlowSequence_first fuel).trans hitems
    simp [tokens, node, nodes, Node.read, Node.takeTag, hfirst]

namespace Fits

variable {n : Nat} {f : Flow}

/-- The tokens of a line are read as its node. -/
theorem readsBack (hf : f.Fits n) : f.ReadsBack := by
  induction hf with
  | bool _ b capital => exact .scalar rfl rfl
  | int _ n => exact .scalar rfl rfl
  | singleQuoted _ _ => exact .scalar rfl rfl
  | doubleQuoted _ _ _ _ => exact .scalar rfl rfl
  | sequence _ ih => exact readsBack_sequence ih

/-- A line is a source of its node. -/
theorem ofSource?_text (hf : f.Fits n) : Node.ofSource? f.text = some f.node := by
  have hread := hf.readsBack (4 * f.tokens.length + 4) true false [] (by omega)
  have hdocument : Node.readDocument (4 * f.tokens.length + 4) f.tokens = some (f.node, []) := by
    have hstarts := f.starts []
    rw [List.append_nil] at hread hstarts
    rw [← hread]
    generalize f.tokens = ts at hstarts
    cases hstarts <;> rfl
  have htokens : Yaml.tokens f.text.toList = some f.tokens := hf.tokens_chars
  unfold Node.ofSource?
  rw [htokens]
  change Node.ofTokens? f.tokens = _
  unfold Node.ofTokens?
  rw [hdocument]
  rfl

end Fits

/-! ## Data -/

theorem ofPlain?_boolText (b capital : Bool) :
    Scalar.ofPlain? (boolText b capital) = some (.bool b) := by
  cases b <;> cases capital <;> rfl

/-- A word means the scalar that it is read as. -/
theorem ofNode?_word {depth : Nat} {word : String} {x : Scalar}
    (hword : Scalar.ofPlain? word = some x) :
    Tree.ofNode? depth (.scalar none .plain word) = some x.toTree := by
  simp [Tree.ofNode?, Tree.ofScalar?, Tree.ofText?, hword, Tree.withTag]

theorem ofItems?_nodes {depth : Nat} {fs : List Flow}
    (hfs : ∀ f ∈ fs, Tree.ofNode? depth f.node = some f.tree) :
    Tree.ofItems? depth (nodes fs) = some (trees fs) := by
  induction fs with
  | nil => rfl
  | cons f fs ih =>
    rw [nodes, Tree.ofItems?, hfs f List.mem_cons_self,
      ih fun d hd => hfs d (List.mem_cons_of_mem f hd)]
    rfl

/-- The node of a line means what is written there. -/
theorem Fits.ofNode?_node {depth : Nat} {f : Flow} (hf : f.Fits depth) :
    Tree.ofNode? depth f.node = some f.tree := by
  induction hf with
  | bool _ b capital => exact ofNode?_word (ofPlain?_boolText b capital)
  | int _ n => exact ofNode?_word (Scalar.ofPlain?_int n)
  | singleQuoted _ _ => rfl
  | doubleQuoted _ _ _ _ => rfl
  | sequence _ ih =>
    rw [node, Tree.ofNode?, ofItems?_nodes ih]
    rfl

end Flow

/-- The reader by nodes can be relied on for lines. -/
theorem nodeReader_readsFlow : nodeReader.ReadsFlow := by
  intro f hf
  change Tree.ofSource? f.text = some f.tree
  unfold Tree.ofSource?
  rw [hf.ofSource?_text]
  exact hf.ofNode?_node

end Builtins.Yaml
