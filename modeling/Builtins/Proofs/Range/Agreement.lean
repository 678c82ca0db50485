-- `range` and `xrange` side by side. One makes a list of a progression at once, the other a
-- generator over it, and both refuse the same arguments for the same reasons.
import Builtins.Proofs.Heap.Visits
import Builtins.Proofs.Heap.Cursors
import Builtins.Proofs.Loop.Turns
import Builtins.Proofs.Progression.Arguments

namespace Builtins

/-! ## What the two functions make -/

/-- The list of a progression is a new one, and only one without values is worth a line. -/
theorem Builtin.ends_rangeList (config : Config) (p : Progression) (w : World) :
    (rangeList config p).Ends w
      (.ok (.list (w.heap.newList (p.values.map Value.int).toArray).1))
      { heap := (w.heap.newList (p.values.map Value.int).toArray).2
        output := if p.values = [] then w.output.push config.rangeDiagnostic else w.output } := by
  unfold rangeList
  cases hi : p.iterates with
  | true =>
    have hne : p.values ≠ [] := by
      rw [Ne, p.values_eq_nil_iff, hi]
      simp
    rw [if_neg hne]
    exact Action.ends_newList_iff.mpr ⟨rfl, rfl⟩
  | false =>
    rw [if_pos (p.values_eq_nil_iff.mpr hi)]
    apply Action.ends_bind_iff.mpr
    refine Or.inr ⟨(), _, Action.ends_write_iff.mpr ⟨rfl, rfl⟩, ?_⟩
    exact Action.ends_newList_iff.mpr ⟨rfl, rfl⟩

section Calls

variable (host : Host) (fuel : Nat) {args : List Value} (w : World)

/-- Both functions check their arguments first, and a fault of the check is their answer. -/
theorem Host.ends_of_ofArgs_error {fault : String → Fault}
    (h : ∀ function, Progression.ofArgs function args = .error (fault function)) :
    (host.call (fuel + 1) (.builtin .range) args).Ends w (.error (fault "range")) w ∧
      (host.call (fuel + 1) (.builtin .xrange) args).Ends w (.error (fault "xrange")) w := by
  constructor
  · exact (Action.ends_ofExcept_bind_of_error (h "range")).mpr ⟨rfl, rfl⟩
  · exact (Action.ends_ofExcept_bind_of_error (h "xrange")).mpr ⟨rfl, rfl⟩

theorem Host.ends_range {p : Progression} (h : Progression.ofArgs "range" args = .ok p) :
    (host.call (fuel + 1) (.builtin .range) args).Ends w
      (.ok (.list (w.heap.newList (p.values.map Value.int).toArray).1))
      { heap := (w.heap.newList (p.values.map Value.int).toArray).2
        output := if p.values = [] then w.output.push host.config.rangeDiagnostic
          else w.output } := by
  apply (Action.ends_ofExcept_bind_of_ok h).mpr
  exact Builtin.ends_rangeList host.config p w

theorem Host.ends_xrange {p : Progression} (h : Progression.ofArgs "xrange" args = .ok p) :
    (host.call (fuel + 1) (.builtin .xrange) args).Ends w
      (.ok (.generator (w.heap.newGenerator p).1))
      { w with heap := (w.heap.newGenerator p).2 } := by
  apply (Action.ends_ofExcept_bind_of_ok h).mpr
  apply Action.ends_onHeap_bind_iff.mpr
  exact Action.ends_pure_iff.mpr ⟨rfl, rfl⟩

end Calls

/-! ## Draining a generator -/

/-- What comes out of a new generator over a progression, whichever way it is drained. -/
structure Heap.Drains (host : Host) (h : Heap) (g : GeneratorId) (p : Progression) : Prop where
  yields : ∀ k x, ((h.after (List.replicate k (.deed (.resume g)))).resume g).1 = .yielded x ↔
    p.values[k]? = some x
  raises : ∀ k, ((h.after (List.replicate k (.deed (.resume g)))).resume g).1 = .raised ↔
    p.values = [] ∧ k = 0
  returns : ∀ k, ((h.after (List.replicate k (.deed (.resume g)))).resume g).1 = .returned ↔
    p.values.length ≤ k ∧ 0 < k
  /-- Asked once more, `next` answers with the next value or raises a new signal. -/
  nexts : ∀ k fuel output,
    let h' := h.after (List.replicate k (.deed (.next (.generator g))))
    (host.call (fuel + 1) (.builtin .next) [.generator g]).Ends ⟨h', output⟩
      (h'.surfaced g p k).1
      ⟨h.after (List.replicate (k + 1) (.deed (.next (.generator g)))), output⟩
  taken : ∀ n, ((h.generator g).take n).1 = p.values.take n
  collected : ∀ fuel output, p.values.length < fuel → ∃ h',
    (Action.collect fuel (.generator g)).Ends ⟨h, output⟩ (.ok (p.values.map .int).toArray)
      ⟨h', output⟩

section Drains

variable {h : Heap} {g : GeneratorId} {p : Progression} {k : Nat}

/-- A loop that collects takes the values that are left, given a turn for each and one more. -/
theorem Action.ends_loop_collect {source : Source} (output : Array String) {fuel : Nat}
    (hg : h.generators[g.index]? = some (p.after k))
    (hs : ∀ h : Heap, (Step.turn source).generator? h = some g)
    (hfuel : p.values.length - k < fuel) (items : Array Value) :
    ∃ h', Ends (Run.loop (fun items item => return items.push item) source fuel items)
      ⟨h, output⟩ (.ok (items ++ ((p.values.drop k).map Value.int).toArray)) ⟨h', output⟩ := by
  induction fuel generalizing h k items with
  | zero => omega
  | succ fuel ih =>
    have htake := Heap.takeFrom_of_getElem? hg (hs h)
    cases hk : p.values[k]? with
    | none =>
      have hlen : p.values.length ≤ k := List.getElem?_eq_none_iff.mp hk
      rw [hk] at htake
      refine ⟨h.setGenerator g (p.after (k + 1)), ends_loop_succ_iff.mpr ?_⟩
      simp [htake, List.drop_eq_nil_of_le hlen]
    | some x =>
      obtain ⟨hlt, hx⟩ := List.getElem?_eq_some_iff.mp hk
      rw [hk] at htake
      obtain ⟨h', hrest⟩ := ih (Heap.getElem?_setGenerator (p.after (k + 1)) hg) (by omega)
        (items.push (.int x))
      refine ⟨h', ends_loop_succ_iff.mpr ?_⟩
      simp only [htake, Option.map_some]
      apply ends_bind_iff.mpr
      refine Or.inr ⟨_, _, ends_pure_iff.mpr ⟨rfl, rfl⟩, ?_⟩
      rw [List.drop_eq_getElem_cons hlt, hx]
      simpa using hrest

theorem drains_of_getElem? (host : Host) (hnew : h.generators[g.index]? = some (p.after 0)) :
    h.Drains host g p := by
  have hvisited : ∀ s : Step, (∀ h : Heap, s.generator? h = some g) → ∀ k,
      (h.after (List.replicate k s)).generators[g.index]? = some (p.after k) := by
    intro s hs k
    rw [Heap.getElem?_generators_after hnew, Heap.visits_replicate h hs, Nat.zero_add]
  have hresumed : ∀ k, ((h.after (List.replicate k (.deed (.resume g)))).resume g).1 =
      p.resumption k := by
    intro k
    rw [Heap.resume_of_getElem? (hvisited _ (fun _ => rfl) k)]
  constructor
  · intro k x
    rw [hresumed, Progression.resumption_eq_yielded_iff]
  · intro k
    rw [hresumed, Progression.resumption_eq_raised_iff]
  · intro k
    rw [hresumed, Progression.resumption_eq_returned_iff]
  · intro k fuel output h'
    have hnext : h'.next (.generator g) = h'.surfaced g p k :=
      Heap.resumeValue_of_getElem? (hvisited _ (fun _ => rfl) k)
    have hafter : h.after (List.replicate (k + 1) (.deed (.next (.generator g)))) =
        (h'.next (.generator g)).2 := by
      rw [List.replicate_succ', Heap.after_append]
      rfl
    apply (Action.ends_ofExcept_bind_of_ok rfl).mpr
    apply Action.ends_attempt_iff.mpr
    rw [hnext, hafter, hnext]
    exact ⟨rfl, rfl⟩
  · intro n
    rw [Heap.generator_eq_of_getElem? hnew, Progression.take_after, List.drop_zero]
  · intro fuel output hfuel
    have hs : ∀ h : Heap, (Step.turn (.own (.generator g))).generator? h = some g := fun _ => rfl
    obtain ⟨h', hloop⟩ := Action.ends_loop_collect output hnew hs hfuel #[]
    refine ⟨h', (Action.ends_ofExcept_bind_of_ok rfl).mpr ?_⟩
    simpa using hloop

end Drains

/-! ## The law of `range` and `xrange` -/

/-- For all arguments, `range` and `xrange` fail with the same fault but for their names, and
leave the world as it is; or a list and a generator are made, and however the generator is
drained, out of it come the elements of the list. -/
theorem range_and_xrange_agree (host : Host) (fuel : Nat) (args : List Value) (w : World) :
    match Progression.rejection? args with
    | some fault =>
      (host.call (fuel + 1) (.builtin .range) args).Ends w (.error (fault "range")) w ∧
        (host.call (fuel + 1) (.builtin .xrange) args).Ends w (.error (fault "xrange")) w
    | none =>
      ∃ words p l g listed made, args.mapM Value.toWord? = some words ∧
        p = Progression.ofWords words ∧
        (host.call (fuel + 1) (.builtin .range) args).Ends w (.ok (.list l)) listed ∧
        (l, listed.heap) = w.heap.newList (p.values.map Value.int).toArray ∧
        listed.heap.list l = (p.values.map Value.int).toArray ∧
        listed.output =
          (if p.values = [] then w.output.push host.config.rangeDiagnostic else w.output) ∧
        (host.call (fuel + 1) (.builtin .xrange) args).Ends w (.ok (.generator g)) made ∧
        (g, made.heap) = w.heap.newGenerator p ∧ made.output = w.output ∧
        made.heap.Drains host g p := by
  have hargs := fun function => Progression.ofArgs_eq function args
  cases hr : Progression.rejection? args with
  | some fault =>
    simp only [hr] at hargs
    exact Host.ends_of_ofArgs_error host fuel w hargs
  | none =>
    simp only [hr] at hargs
    obtain ⟨words, hwords, hrange⟩ := hargs "range"
    obtain ⟨words', hwords', hxrange⟩ := hargs "xrange"
    have heq : words' = words := by
      rw [hwords] at hwords'
      exact (Option.some.inj hwords').symm
    subst heq
    refine ⟨words', Progression.ofWords words', _, _, _, _, hwords, rfl,
      Host.ends_range host fuel w hrange, rfl, Heap.list_newList _ _, rfl,
      Host.ends_xrange host fuel w hxrange, rfl, rfl, ?_⟩
    apply drains_of_getElem?
    simp [Heap.newGenerator, Progression.after_zero]

end Builtins
