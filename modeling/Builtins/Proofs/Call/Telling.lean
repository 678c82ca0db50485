-- What the journal of a call tells. The output and every list are in the end what they were and,
-- behind that, what the journal notes, however deep the calls go and however they end.
import Builtins.Proofs.Call.Journal
import Builtins.Proofs.Filtering.Kept
import Builtins.Proofs.Heap.Progress

namespace Builtins

/-! ## What a journal tells -/

/-- A journal tells how the output and the lists of a world came to be those of another: each is
what it was, and behind that what the journal notes. -/
structure World.Tells (w : World) (journal : Journal) (w' : World) : Prop where
  output : w'.output = w.output ++ journal.lines.toArray
  size : w.heap.lists.size ≤ w'.heap.lists.size
  list : ∀ id : ListId, id.index < w.heap.lists.size →
    w'.heap.list id = w.heap.list id ++ (journal.appended id).toArray

namespace World

theorem tells_nil (w : World) : w.Tells [] w where
  output := by simp [Journal.lines]
  size := Nat.le_refl _
  list id _ := by simp [Journal.appended]

theorem Tells.append {w w₁ w' : World} {j k : Journal} (h₁ : w.Tells j w₁)
    (h₂ : w₁.Tells k w') : w.Tells (j ++ k) w' where
  output := by rw [h₂.output, h₁.output, Journal.lines_append, Array.append_assoc]; simp
  size := Nat.le_trans h₁.size h₂.size
  list id hid := by
    rw [h₂.list id (Nat.lt_of_lt_of_le hid h₁.size), h₁.list id hid, Journal.appended_append,
      Array.append_assoc]
    simp

/-- Worlds between which nothing is noted are quiet. -/
theorem chains_quiet : Chains (Tells · [] ·) := ⟨tells_nil, Tells.append⟩

/-- A step that appends nothing is quiet. -/
theorem tells_step (w : World) {s : Step} (hs : ∀ l item, s ≠ .deed (.append l item)) :
    w.Tells [] ⟨(s.perform w.heap).2, w.output⟩ where
  output := by simp [Journal.lines]
  size := (Heap.list_perform hs).1
  list id hid := by simpa [Journal.appended] using (Heap.list_perform hs).2 id hid

theorem tells_deed (w : World) (d : Deed) :
    w.Tells [.deed d] ⟨(d.perform w.heap).2, w.output⟩ := by
  by_cases hd : ∃ l item, d = .append l item
  · obtain ⟨l, item, rfl⟩ := hd
    refine ⟨by simp [Journal.lines, Entry.line?], by simp [Deed.perform, Heap.append], ?_⟩
    intro id hid
    change (w.heap.append l item).list id = _
    by_cases hl : l = id
    · subst hl
      simp [w.heap.list_append_self item hid, Journal.appended, Entry.appended?]
    · simp [w.heap.list_append_of_ne item hl, Journal.appended, Entry.appended?, hl]
  · have hs : ∀ l item, Step.deed d ≠ .deed (.append l item) := by
      intro l item h
      cases h
      exact hd ⟨l, item, rfl⟩
    have hquiet := w.tells_step hs
    have happended : ∀ id, Journal.appended id [.deed d] = [] := by
      refine fun id => Journal.appended_eq_nil fun item hmem => ?_
      exact hs id item (by simpa [eq_comm] using hmem)
    refine ⟨by simp [Journal.lines, Entry.line?], hquiet.size, fun id hid => ?_⟩
    rw [happended id]
    exact hquiet.list id hid

theorem tells_wrote (w : World) (line : String) :
    w.Tells [.wrote line] ⟨w.heap, w.output.push line⟩ :=
  ⟨by simp [Journal.lines, Entry.line?], Nat.le_refl _, by simp [Journal.appended, Entry.appended?]⟩

/-- A built-in function that prints notes the line. -/
theorem tells_printed (w : World) (b : Builtin) (args : List Value) (line : String) :
    w.Tells [.builtin b args (some line)] ⟨w.heap, w.output.push line⟩ :=
  ⟨by simp [Journal.lines, Entry.line?], Nat.le_refl _, by simp [Journal.appended, Entry.appended?]⟩

theorem tells_silent (w : World) (b : Builtin) (args : List Value) :
    w.Tells [.builtin b args none] w :=
  ⟨by simp [Journal.lines, Entry.line?], Nat.le_refl _, by simp [Journal.appended, Entry.appended?]⟩

end World

open Builtins.Action Builtins.World

/-- A log tells of every call that ends. -/
def Log.Tells (invoke : Caller) (log : Log) : Prop :=
  ∀ f args w answer w', (invoke f args).Ends w answer w' → w.Tells (log f args w) w'

/-! ## Built-in functions -/

section Builtins

variable {invoke : Caller} {log : Log}

/-- The journal of a loop tells of the loop, if it notes the calls. -/
theorem tells_loop {β : Type} {f : Value} {put : Heap → β → Value → Value → β}
    {body : β → Value → Action β} (hlog : Log.Tells invoke log)
    (hbody : CallsItem invoke f put body) {fuel : Nat} {source : Source} {acc : β} {w w' : World}
    {answer : Except Fault β}
    (h : Ends (Run.loop body source fuel acc) w answer w') :
    w.Tells (loopJournal invoke log f source fuel w) w' := by
  induction fuel generalizing source acc w with
  | zero => exact absurd h not_ends_loop_zero
  | succ fuel ih =>
    have hturn : w.Tells [] ⟨(w.heap.takeFrom source).2, w.output⟩ :=
      w.tells_step (s := .turn source) (by simp)
    rw [ends_loop_succ_iff] at h
    rw [loopJournal]
    rcases ht : w.heap.takeFrom source with ⟨⟨_ | item, source'⟩, heap⟩
    · simp only [ht] at h hturn ⊢
      obtain ⟨-, rfl⟩ := h
      exact hturn
    · simp only [ht] at h hturn ⊢
      rcases ends_bind_iff.mp h with ⟨fault, hb, -⟩ | ⟨acc', w₁, hb, hl⟩
      · obtain ⟨y, hcall, hy⟩ := (hbody _ _ _ _ _).mp hb
        cases y with
        | ok y => cases hy
        | error fault =>
          rw [show (invoke f [item]).run _ = some _ from hcall]
          exact hturn.append ((hlog _ _ _ _ _ hcall).append w'.tells_nil)
      · obtain ⟨y, hcall, hy⟩ := (hbody _ _ _ _ _).mp hb
        cases y with
        | error fault => cases hy
        | ok y =>
          rw [show (invoke f [item]).run _ = some _ from hcall]
          exact hturn.append ((hlog _ _ _ _ _ hcall).append (ih hl))

theorem tells_newList {items : Array Value} {w w' : World} {answer : Except Fault Value}
    (h : (newList items).Ends w answer w') : w.Tells [] w' := by
  obtain ⟨-, rfl⟩ := ends_newList_iff.mp h
  exact w.tells_step (s := .deed (.newList items.toList)) (by simp)

/-- A built-in function that loops over its second argument and calls its first notes the calls. -/
theorem tells_listed {f v : Value} {fuel : Nat}
    {put : Heap → Array Value → Value → Value → Array Value}
    {body : Array Value → Value → Action (Array Value)} (hlog : Log.Tells invoke log)
    (hbody : CallsItem invoke f put body) {w w' : World} {answer : Except Fault Value}
    (h : (foldItems fuel v #[] body >>= newList).Ends w answer w') :
    w.Tells (itemsJournal invoke log fuel f v w) w' := by
  have hfold : ∀ {result : Except Fault (Array Value)} {w₁ : World},
      (foldItems fuel v #[] body).Ends w result w₁ →
        w.Tells (itemsJournal invoke log fuel f v w) w₁ := by
    intro result w₁ hends
    unfold foldItems at hends
    unfold itemsJournal
    cases hof : Source.of v with
    | error fault =>
      obtain ⟨-, rfl⟩ := (ends_ofExcept_bind_of_error hof).mp hends
      exact w₁.tells_nil
    | ok source =>
      rw [ends_ofExcept_bind_of_ok hof] at hends
      exact tells_loop hlog hbody hends
  rcases ends_bind_iff.mp h with ⟨fault, hf, -⟩ | ⟨items, w₁, hf, hlist⟩
  · exact hfold hf
  · simpa using (hfold hf).append (tells_newList hlist)

namespace Builtin

/-- Without a predicate `filter` makes no calls, so it is quiet. -/
theorem quiet_filter_null (fuel : Nat) (v : Value) :
    (filterItems invoke fuel .null v).Keeps (World.Tells · [] ·) := by
  have hbody : ∀ kept item, (filterItem invoke .null kept item).Keeps (World.Tells · [] ·) := by
    intro kept item w answer w' h
    obtain ⟨-, rfl⟩ := h.unique (ends_filterItem_null kept item w)
    exact w'.tells_nil
  have hturn : ∀ (w : World) (source : Source),
      w.Tells [] ⟨(w.heap.takeFrom source).2, w.output⟩ :=
    fun w source => w.tells_step (s := .turn source) (by simp)
  exact keeps_bind chains_quiet (keeps_foldItems chains_quiet hturn hbody fuel v #[])
    fun _ _ _ _ => tells_newList

/-- A built-in function that neither prints nor makes calls is quiet. -/
theorem quiet_run (config : Config) (fuel : Nat) {b : Builtin} (args : List Value)
    (hprint : ¬ (b = .print ∨ b = .range)) (hcalls : ¬ (b = .map ∨ b = .filter)) :
    (b.run config invoke fuel args).Keeps (World.Tells · [] ·) :=
  keeps_run chains_quiet (fun w _ hs => w.tells_step hs) config fuel b args
    (fun hb => absurd hb hprint) (fun hb => absurd hb hcalls)

theorem tells_print {config : Config} {fuel : Nat} {args : List Value} {w w' : World}
    {answer : Except Fault Value}
    (h : (Builtin.print.run config invoke fuel args).Ends w answer w') :
    w.Tells [.builtin .print args (some (w.heap.displayAll args))] w' := by
  rcases ends_bind_iff.mp h with ⟨fault, hheap, -⟩ | ⟨heap, w₁, hheap, h₁⟩
  · simp at hheap
  · obtain ⟨hok, rfl⟩ := ends_heap_iff.mp hheap
    cases hok
    rcases ends_bind_iff.mp h₁ with ⟨fault, hwrite, -⟩ | ⟨_, w₂, hwrite, h₂⟩
    · simp at hwrite
    · obtain ⟨-, rfl⟩ := ends_write_iff.mp hwrite
      obtain ⟨-, rfl⟩ := ends_pure_iff.mp h₂
      exact w₁.tells_printed .print args _

theorem tells_range {config : Config} {fuel : Nat} {args : List Value} {w w' : World}
    {answer : Except Fault Value}
    (h : (Builtin.range.run config invoke fuel args).Ends w answer w') :
    w.Tells [.builtin .range args (Builtin.range.line? config w.heap args)] w' := by
  have hrun : Builtin.range.run config invoke fuel args =
      ofExcept (Progression.ofArgs "range" args) >>= rangeList config := rfl
  rw [hrun] at h
  unfold line?
  cases hp : Progression.ofArgs "range" args with
  | error fault =>
    obtain ⟨-, rfl⟩ := (ends_ofExcept_bind_of_error hp).mp h
    exact w'.tells_silent .range args
  | ok p =>
    rw [ends_ofExcept_bind_of_ok hp] at h
    cases hi : p.iterates with
    | true =>
      have hlist : rangeList config p = newList (p.values.map Value.int).toArray := by
        simp [rangeList, hi]
      rw [hlist] at h
      simpa [hi] using (w.tells_silent .range args).append (tells_newList h)
    | false =>
      have hlist : rangeList config p = (write config.rangeDiagnostic >>= fun _ =>
          newList (p.values.map Value.int).toArray) := by
        simp [rangeList, hi]
      rw [hlist] at h
      rcases ends_bind_iff.mp h with ⟨fault, hwrite, -⟩ | ⟨_, w₁, hwrite, h₁⟩
      · simp at hwrite
      · obtain ⟨-, rfl⟩ := ends_write_iff.mp hwrite
        simpa [hi] using (w.tells_printed .range args _).append (tells_newList h₁)

/-- What a built-in function notes tells what it does. -/
theorem tells_run (hlog : Log.Tells invoke log) (config : Config) (fuel : Nat) (b : Builtin)
    (args : List Value) {w w' : World} {answer : Except Fault Value}
    (h : (b.run config invoke fuel args).Ends w answer w') :
    w.Tells (.builtin b args (b.line? config w.heap args) ::
      b.callsJournal invoke log fuel args w) w' := by
  have hsilent : ∀ {journal : Journal}, w.Tells journal w' →
      w.Tells (.builtin b args none :: journal) w' :=
    fun hrest => (w.tells_silent b args).append hrest
  -- Where the number of arguments is wrong, nothing is done at all.
  have hrefused : ∀ {α : Type} {fault : Fault} {f : α → Action Value},
      (ofExcept (.error fault) >>= f).Ends w answer w' → w.Tells [] w' := by
    intro α fault f h
    obtain ⟨-, rfl⟩ := (ends_ofExcept_bind_of_error rfl).mp h
    exact w'.tells_nil
  cases b with
  | print => exact tells_print h
  | range => exact tells_range h
  | map =>
    rcases args with _ | ⟨f, _ | ⟨v, _ | ⟨_, _⟩⟩⟩
    · exact hsilent (hrefused h)
    · exact hsilent (hrefused h)
    · exact hsilent (tells_listed hlog (callsItem_mapItem invoke f) h)
    · exact hsilent (hrefused h)
  | filter =>
    rcases args with _ | ⟨f, _ | ⟨v, _ | ⟨_, _⟩⟩⟩
    · exact hsilent (hrefused h)
    · exact hsilent (hrefused h)
    · by_cases hf : f = .null
      · subst hf
        exact hsilent (quiet_filter_null fuel v w answer w' h)
      · have hcalls := tells_listed hlog (callsItem_filterItem hf) h
        cases f <;> first | exact absurd rfl hf | exact hsilent hcalls
    · exact hsilent (hrefused h)
  | _ => exact hsilent (quiet_run config fuel args (by simp) (by simp) w answer w' h)

end Builtin

end Builtins

/-! ## Calls of any depth -/

/-- The journal of a script tells what the script does, if the calls in it are noted. -/
theorem Script.tells_run {α : Type} {invoke : Caller} {log : Log} (hlog : Log.Tells invoke log)
    (settings : Config) (script : Script α) {w w' : World} {answer : Except Fault α}
    (h : (script.run settings invoke).Ends w answer w') :
    w.Tells (script.journal settings invoke log w) w' := by
  induction script generalizing w with
  | done result =>
    obtain ⟨-, rfl⟩ := ends_pure_iff.mp h
    exact w'.tells_nil
  | fail fault =>
    obtain ⟨-, rfl⟩ := ends_throw_iff.mp h
    exact w'.tells_nil
  | call callee args rest ih =>
    rw [Script.run] at h
    rw [Script.journal]
    rcases ends_bind_iff.mp h with ⟨fault, hlift, -⟩ | ⟨y, w₁, hlift, hrest⟩
    · obtain ⟨_, -, hy⟩ := ends_lift_run_iff.mp hlift
      cases hy
    · obtain ⟨_, hcall, hy⟩ := ends_lift_run_iff.mp hlift
      cases hy
      rw [show (invoke callee args).run w = some (y, w₁) from hcall]
      exact (hlog callee args w y w₁ hcall).append (ih y hrest)
  | write line rest ih =>
    rw [Script.run] at h
    rcases ends_bind_iff.mp h with ⟨fault, hwrite, -⟩ | ⟨_, w₁, hwrite, hrest⟩
    · simp at hwrite
    · obtain ⟨-, rfl⟩ := ends_write_iff.mp hwrite
      exact (w.tells_wrote line).append (ih hrest)
  | config rest ih => exact ih settings h
  | look rest ih =>
    rw [Script.run] at h
    rcases ends_bind_iff.mp h with ⟨fault, hheap, -⟩ | ⟨heap, w₁, hheap, hrest⟩
    · simp at hheap
    · obtain ⟨hok, rfl⟩ := ends_heap_iff.mp hheap
      cases hok
      exact ih _ hrest
  | act d rest ih =>
    rw [Script.run, ends_onHeap_bind_iff] at h
    exact (w.tells_deed d).append (ih _ h)

/-- The journal of a call tells what the call does. -/
theorem Host.tells_call (host : Host) (fuel : Nat) :
    Log.Tells (host.call fuel) (host.journal fuel) := by
  induction fuel with
  | zero =>
    intro f args w answer w' h
    exact absurd h not_ends_outOfFuel
  | succ fuel ih =>
    intro f args w answer w' h
    cases f with
    | builtin b => exact b.tells_run ih host.config fuel args h
    | function id name =>
      unfold Host.journal
      unfold Host.call at h
      cases hf : host.function? id with
      | none =>
        simp only [hf] at h ⊢
        obtain ⟨-, rfl⟩ := ends_throw_iff.mp h
        exact w'.tells_nil
      | some f =>
        simp only [hf] at h ⊢
        exact (f args).tells_run ih host.config h
    | exceptionType kind =>
      have hmake :
          (onHeap (·.newException kind args) >>= fun e => pure e.toValue).Ends w answer w' := h
      rw [ends_onHeap_bind_iff] at hmake
      obtain ⟨-, rfl⟩ := ends_pure_iff.mp hmake
      exact w.tells_step (s := .deed (.newException kind args)) (by simp)
    | _ =>
      obtain ⟨-, rfl⟩ := ends_throw_iff.mp h
      exact w'.tells_nil

end Builtins
