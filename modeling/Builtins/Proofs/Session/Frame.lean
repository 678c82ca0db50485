-- What a call leaves alone, whatever is called and however it ends. The settings, the functions of
-- the host and the global names stay, lines and items are only added behind those that there are,
-- and only by whom the journal of the call names.
import Builtins.Host.Stock
import Builtins.Proofs.Call.Telling
import Builtins.Proofs.Snapshot.Acyclic
import Builtins.Session

namespace Builtins

namespace Session

/-- What of a session is as it was in a later one, but for what a journal notes. -/
structure Framed (s : Session) (journal : Journal) (s' : Session) : Prop where
  host : s'.host = s.host
  globals : s'.globals = s.globals
  output : s'.world.output = s.world.output ++ journal.lines.toArray
  known : s.world.heap.lists.size ≤ s'.world.heap.lists.size
  list : ∀ id : ListId, id.index < s.world.heap.lists.size →
    s'.world.heap.list id = s.world.heap.list id ++ (journal.appended id).toArray
  untouched : ∀ id : ListId, id.index < s.world.heap.lists.size →
    (∀ item, .deed (.append id item) ∉ journal) → s'.world.heap.list id = s.world.heap.list id
  fixed : ∀ v, (∀ id, v ≠ .list id) →
    s'.world.heap.contents v = s.world.heap.contents v ∧
      s'.world.heap.parts v = s.world.heap.parts v
  iterators : ∀ (id : IteratorId) c, s.world.heap.cursors[id.index]? = some c →
    ∃ c', s'.world.heap.cursors[id.index]? = some c' ∧ c.Reaches c'
  generators : ∀ (id : GeneratorId) g, s.world.heap.generators[id.index]? = some g →
    ∃ g', s'.world.heap.generators[id.index]? = some g' ∧ g.Reaches g'

/-- The journal of the call of a global name. -/
def globalJournal (s : Session) (fuel : Nat) (name : String) (args : List Value) : Journal :=
  match s.global? name with
  | some f => s.host.journal fuel f args s.world
  | none => []

/-- A journal that tells how one world came to be another, by steps, is a frame of the session. -/
theorem framed_of_tells {s : Session} {journal : Journal} {w' : World}
    (htells : s.world.Tells journal w') (hleads : s.world.Leads w') :
    s.Framed journal { s with world := w' } := by
  obtain ⟨steps, hsteps⟩ := hleads.heap
  constructor
  case host => rfl
  case globals => rfl
  case output => exact htells.output
  case known => exact htells.size
  case list => exact htells.list
  case untouched =>
    intro id hid hnone
    change w'.heap.list id = _
    rw [htells.list id hid, Journal.appended_eq_nil hnone]
    simp
  case fixed =>
    intro v hv
    exact ⟨Heap.contents_eq_of_not_list hv _ _, Heap.parts_eq_of_not_list hv _ _⟩
  case iterators =>
    intro id c hc
    change ∃ c', w'.heap.cursors[id.index]? = some c' ∧ c.Reaches c'
    rw [hsteps]
    exact Heap.cursor_reaches_after hc steps
  case generators =>
    intro id g hg
    change ∃ g', w'.heap.generators[id.index]? = some g' ∧ g.Reaches g'
    rw [hsteps]
    exact Heap.generator_reaches_after hg steps

theorem perform_eq_some_iff {α : Type} {s s' : Session} {action : Action α}
    {answer : Except Fault α} :
    s.perform action = some (answer, s') ↔
      ∃ w', action.Ends s.world answer w' ∧ s' = { s with world := w' } := by
  unfold perform Action.Ends
  change (action.run s.world).bind (fun y => some (y.1, Session.mk s.host s.globals y.2)) = _ ↔ _
  cases hrun : action.run s.world with
  | none => simp
  | some y => simp [Prod.ext_iff, eq_comm]

variable {s s' : Session} {fuel : Nat} {args : List Value} {answer : Except Fault Value}

theorem framed_call {f : Value} (h : s.call fuel f args = some (answer, s')) :
    s.Framed (s.host.journal fuel f args s.world) s' := by
  obtain ⟨w', hends, rfl⟩ := perform_eq_some_iff.mp h
  exact framed_of_tells (s.host.tells_call fuel f args s.world answer w' hends)
    (s.host.stepwise_call fuel f args s.world answer w' hends)

theorem framed_callGlobal {name : String} (h : s.callGlobal fuel name args = some (answer, s')) :
    s.Framed (s.globalJournal fuel name args) s' := by
  unfold callGlobal at h
  unfold globalJournal
  cases hf : s.global? name with
  | some f =>
    simp only [hf] at h
    exact framed_call h
  | none =>
    simp only [hf] at h
    obtain ⟨-, rfl⟩ : _ ∧ s = s' := by simpa using h
    exact framed_of_tells s.world.tells_nil s.world.leads_refl

/-- Whatever is called, as a value, as a built-in function or by a global name, a call that ends
changes nothing but by what its journal notes. Only host functions append, and the lines that are
not theirs come from `print`, one for each call, and from `range` where there is nothing to go over.
-/
theorem calls_only_add (s : Session) :
    (∀ fuel f args answer s', s.call fuel f args = some (answer, s') →
      s.Framed (s.host.journal fuel f args s.world) s') ∧
    (∀ fuel (b : Builtin) args answer s',
      s.perform (b.run s.host.config (s.host.call fuel) fuel args) = some (answer, s') →
        s.Framed (s.host.journal (fuel + 1) (.builtin b) args s.world) s') ∧
    (∀ fuel name args answer s', s.callGlobal fuel name args = some (answer, s') →
      s.Framed (s.globalJournal fuel name args) s') ∧
    (∀ fuel f args, Journal.Sound (s.host.journal fuel f args s.world)) ∧
    (∀ fuel name args, Journal.Sound (s.globalJournal fuel name args)) ∧
    ∀ fuel (b : Builtin) args, b ≠ .map → b ≠ .filter →
      s.host.journal (fuel + 1) (.builtin b) args s.world =
        [.builtin b args (b.line? s.host.config s.world.heap args)] := by
  refine ⟨?value, ?builtin, ?global, ?sound, ?soundGlobal, ?alone⟩
  case value =>
    intro fuel f args answer s' h
    exact framed_call h
  case builtin =>
    intro fuel b args answer s' h
    have hcall : s.call (fuel + 1) (.builtin b) args = some (answer, s') := h
    exact framed_call hcall
  case global =>
    intro fuel name args answer s' h
    exact framed_callGlobal h
  case sound => exact fun fuel f args => s.host.sound_journal fuel f args s.world
  case soundGlobal =>
    intro fuel name args
    unfold globalJournal
    split
    · exact s.host.sound_journal fuel _ args s.world
    · exact Journal.sound_nil
  case alone =>
    intro fuel b args hmap hfilter
    cases b with
    | map => exact absurd rfl hmap
    | filter => exact absurd rfl hfilter
    | _ => rfl

/-- A function of the host that counts and prints, called for each of two items, adds two items to
its tally and two lines to the output. -/
theorem a_tally_grows_by_each_call :
    let tally : ListId := ⟨0⟩
    let functions := #[Stock.counter tally, Stock.shout,
      Stock.compose [.function ⟨1⟩ "count", .function ⟨2⟩ "shout"]]
    let s : Session := { host := { functions }, world := { heap := { lists := #[#[.null]] } } }
    let args : List Value := [.function ⟨3⟩ "both", .tuple [.int 7, .int 7]]
    let journal := s.host.journal 4 (.builtin .map) args s.world
    ∃ s', s.call 4 (.builtin .map) args = some (.ok (.list ⟨1⟩), s') ∧
      s.Framed journal s' ∧ journal.lines = ["2!", "3!"] ∧
      journal.appended tally = [.null, .null] := by
  intro tally functions s args journal
  obtain ⟨hcall, -⟩ := calls_only_add s
  obtain ⟨s', hs'⟩ : ∃ s', s.call 4 (.builtin .map) args = some (.ok (.list ⟨1⟩), s') := ⟨_, rfl⟩
  exact ⟨s', hs', hcall 4 _ args _ s' hs', by decide, rfl⟩

end Session

end Builtins
