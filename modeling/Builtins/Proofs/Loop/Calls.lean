-- The calls that a loop makes of its body. What lies ahead of a loop gets shorter with each item
-- that it takes, and nothing that its body does makes it longer, unless the loop goes over a list;
-- there its place moves on. That bounds the number of calls, and a loop whose calls are bounded and
-- end comes to an end itself.
import Builtins.Proofs.Loop.Ahead

namespace Builtins

open Builtins.Action

/-- The body of a loop, for any fuel. It goes step by step, and more fuel changes no answer. -/
structure LoopBody (β : Type) where
  run : Nat → β → Value → Action β
  steady : ∀ {n m : Nat}, n ≤ m → ∀ acc item, Run.Within (run n acc item).run (run m acc item).run
  stepwise : ∀ fuel acc item, (run fuel acc item).Stepwise

/-- A call of a body that a loop comes to make. -/
structure BodyCall (β : Type) where
  acc : β
  item : Value
  start : World

namespace LoopBody

variable {β : Type} {body : LoopBody β}

/-- With fuel enough, a call of the body ends with an answer and leaves the world `w'`. -/
def Ends (body : LoopBody β) (call : BodyCall β) (answer : Except Fault β) (w' : World) : Prop :=
  ∃ fuel, (body.run fuel call.acc call.item).Ends call.start answer w'

/-- With fuel enough, a loop over a value ends with an answer and leaves the world `w'`. -/
def LoopEnds (body : LoopBody β) (v : Value) (start : β) (w : World) (answer : Except Fault β)
    (w' : World) : Prop :=
  ∃ fuel, (foldItems fuel v start (body.run fuel)).Ends w answer w'

/-- The calls that a loop makes of its body, each with the number of those before it. -/
inductive Calls (body : LoopBody β) : Source → β → World → Nat → BodyCall β → Prop
  | first {source source' : Source} {acc : β} {w : World} {h : Heap} {item : Value}
    (hsome : w.heap.takeFrom source = ((some item, source'), h)) :
    Calls body source acc w 0 ⟨acc, item, { w with heap := h }⟩
  | later {source source' : Source} {acc acc' : β} {w w₁ : World} {h : Heap} {item : Value}
    {n : Nat} {call : BodyCall β}
    (hsome : w.heap.takeFrom source = ((some item, source'), h))
    (hends : body.Ends ⟨acc, item, { w with heap := h }⟩ (.ok acc') w₁)
    (hrest : Calls body source' acc' w₁ n call) : Calls body source acc w (n + 1) call

/-- No call that a loop makes leaves a list with more than a number of items. -/
def LeavesAtMost (body : LoopBody β) (source : Source) (acc : β) (w : World) (l : ListId)
    (most : Nat) : Prop :=
  ∀ n call answer w', body.Calls source acc w n call → body.Ends call answer w' →
    (w'.heap.list l).size ≤ most

theorem Ends.leads {call : BodyCall β} {answer : Except Fault β} {w' : World}
    (h : body.Ends call answer w') : call.start.Leads w' := by
  obtain ⟨fuel, h⟩ := h
  exact body.stepwise fuel _ _ _ _ _ h

/-- What a list has, a call of the body leaves it. -/
theorem Ends.size_list_le {call : BodyCall β} {answer : Except Fault β} {w' : World}
    (h : body.Ends call answer w') (l : ListId) :
    (call.start.heap.list l).size ≤ (w'.heap.list l).size := by
  obtain ⟨steps, hsteps⟩ := h.leads.heap
  have hprefix := call.start.heap.contents_prefix_after steps (.list l)
  rw [← hsteps] at hprefix
  simpa [Heap.contents] using hprefix.length_le

/-! ## The bodies of the runtime -/

/-- The body of `map` with a function. -/
def mapping (host : Host) (f : Value) : LoopBody (Array Value) where
  run fuel := Builtin.mapItem (host.call fuel) f
  steady hnm results item := Builtin.mapItem_within (host.call_within hnm) f results item
  stepwise fuel := Builtin.stepwise_mapItem (host.stepwise_call fuel) f

/-- The body of `filter` with a predicate, or with none. -/
def filtering (host : Host) (f : Value) : LoopBody (Array Value) where
  run fuel := Builtin.filterItem (host.call fuel) f
  steady hnm _ item := Run.within_bindExcept (Builtin.keeps_within (host.call_within hnm) f item)
    fun _ => Run.within_refl _
  stepwise fuel := Builtin.stepwise_filterItem (host.stepwise_call fuel) f

/-- The body of `sum`. -/
def adding : LoopBody Value where
  run _ := Builtin.addItem
  steady _ _ _ := Run.within_refl _
  stepwise _ := Builtin.stepwise_addItem

/-! ## How often the body is called -/

/-- There are no more calls than there are items ahead, if the loop goes over no list. -/
theorem Calls.lt_length_ahead {source : Source} {acc : β} {w : World} {n : Nat}
    {call : BodyCall β} (hcalls : body.Calls source acc w n call)
    (hkind : (w.heap.cursorOf source).kind ≠ .list) :
    n < (w.heap.ahead (w.heap.cursorOf source)).length := by
  induction hcalls with
  | first hsome => simp [Heap.ahead_of_takeFrom_some hsome]
  | @later source source' _ _ w w₁ h item n _ hsome hends _ ih =>
    have hhas : h.Has source' := Heap.has_of_takeFrom_some hsome
    have hkind' : (h.cursorOf source').kind ≠ .list := by
      rwa [Heap.kind_of_takeFrom_some hsome]
    obtain ⟨steps, hsteps⟩ := hends.leads.heap
    have hsuffix := hhas.ahead_suffix_after hkind' steps
    have hreaches := (hhas.reaches_after steps).2
    rw [← hsteps] at hsuffix hreaches
    have hlater := ih (by rwa [hreaches.kind_eq])
    have hle := hsuffix.length_le
    rw [Heap.ahead_of_takeFrom_some hsome, List.length_cons]
    omega

/-- When the body is called, the place of a loop in a list has come past one item for each call. -/
theorem Calls.add_lt_size {source : Source} {acc : β} {w : World} {n i : Nat} {l : ListId}
    {call : BodyCall β} (hcalls : body.Calls source acc w n call)
    (hlist : w.heap.cursorOf source = .list l i) : i + n < (call.start.heap.list l).size := by
  induction hcalls generalizing i with
  | @first source source' _ w h item hsome =>
    have hlists := w.heap.lists_takeFrom source
    rw [hsome] at hlists
    have hlt := (Heap.takeFrom_some_of_list hsome hlist).1
    rwa [Heap.list_eq_of_lists_eq hlists]
  | @later source source' _ _ w w₁ h item n _ hsome hends _ ih =>
    have hhas : h.Has source' := Heap.has_of_takeFrom_some hsome
    have hmoved := (Heap.takeFrom_some_of_list hsome hlist).2
    obtain ⟨steps, hsteps⟩ := hends.leads.heap
    have hreaches := (hhas.reaches_after steps).2
    rw [← hsteps, hmoved] at hreaches
    cases hcursor : w₁.heap.cursorOf source' with
    | list l' j =>
      rw [hcursor] at hreaches
      obtain ⟨rfl, hle⟩ := hreaches
      have hlater := ih hcursor
      omega
    | _ => rw [hcursor] at hreaches; exact hreaches.elim

/-- There are no more calls than there are places left in a list, up to the longest that the calls
leave. -/
theorem Calls.lt_sub {source : Source} {acc : β} {w : World} {l : ListId} {i most n : Nat}
    {call : BodyCall β} (hcalls : body.Calls source acc w n call)
    (hends : ∃ answer w', body.Ends call answer w') (hlist : w.heap.cursorOf source = .list l i)
    (hmost : body.LeavesAtMost source acc w l most) : n < most - i := by
  obtain ⟨answer, w', hends⟩ := hends
  have hpast := hcalls.add_lt_size hlist
  have hgrows := hends.size_list_le l
  have hsize := hmost n call answer w' hcalls hends
  omega

/-- What the body keeps at each call, and each turn of a loop, is kept up to each call. -/
theorem Calls.keeps {R : World → World → Prop} (hR : World.Chains R)
    (hturn : ∀ (w : World) (source : Source), R w ⟨(w.heap.takeFrom source).2, w.output⟩)
    (hbody : ∀ fuel acc item, (body.run fuel acc item).Keeps R) {source : Source} {acc : β}
    {w : World} {n : Nat} {call : BodyCall β} (hcalls : body.Calls source acc w n call) :
    R w call.start := by
  have htaken : ∀ {w : World} {source source' : Source} {item : Value} {h : Heap},
      w.heap.takeFrom source = ((some item, source'), h) → R w { w with heap := h } := by
    intro w source source' item h hsome
    have hstep := hturn w source
    rwa [hsome] at hstep
  induction hcalls with
  | first hsome => exact htaken hsome
  | later hsome hends _ ih =>
    obtain ⟨fuel, hends⟩ := hends
    exact hR.trans (htaken hsome) (hR.trans (hbody fuel _ _ _ _ _ hends) ih)

/-! ## How a loop ends -/

/-- A loop ends with the fault of its first call. -/
theorem exists_ends_of_first_error {source source' : Source} {acc : β} {w w' : World} {h : Heap}
    {item : Value} {fault : Fault} (hsome : w.heap.takeFrom source = ((some item, source'), h))
    (hfails : body.Ends ⟨acc, item, { w with heap := h }⟩ (.error fault) w') :
    ∃ fuel, Action.Ends (Run.loop (body.run fuel) source fuel acc) w (.error fault) w' := by
  obtain ⟨n, hcall⟩ := hfails
  have hmore : (body.run (n + 1) acc item).Ends { w with heap := h } (.error fault) w' :=
    body.steady (Nat.le_succ n) acc item _ _ hcall
  refine ⟨n + 1, ends_loop_succ_iff.mpr ?_⟩
  simp only [hsome]
  exact ends_bind_iff.mpr (Or.inl ⟨fault, hmore, rfl⟩)

/-- After a first call that has not failed, a loop ends as what is left of it. -/
theorem exists_ends_of_first_ok {source source' : Source} {acc acc' : β} {w w₁ w' : World} {h : Heap}
    {item : Value} {answer : Except Fault β}
    (hsome : w.heap.takeFrom source = ((some item, source'), h))
    (hends : body.Ends ⟨acc, item, { w with heap := h }⟩ (.ok acc') w₁)
    (hrest : ∃ fuel, Action.Ends (Run.loop (body.run fuel) source' fuel acc') w₁ answer w') :
    ∃ fuel, Action.Ends (Run.loop (body.run fuel) source fuel acc) w answer w' := by
  obtain ⟨n, hcall⟩ := hends
  obtain ⟨m, hloop⟩ := hrest
  -- One fuel serves this call and the rest of the loop.
  have hfirst : (body.run (max n m + 1) acc item).Ends { w with heap := h } (.ok acc') w₁ :=
    body.steady (by omega) acc item _ _ hcall
  have hlater : Action.Ends (Run.loop (body.run (max n m + 1)) source' (max n m) acc') w₁ answer w' :=
    Run.loop_within (body.steady (by omega)) source' (Nat.le_max_right n m) acc' _ _ hloop
  refine ⟨max n m + 1, ends_loop_succ_iff.mpr ?_⟩
  simp only [hsome]
  exact ends_bind_iff.mpr (Or.inr ⟨acc', w₁, hfirst, hlater⟩)

/-- A loop ends if its calls do and there are fewer than some number of them. -/
theorem exists_ends_of_lt {most : Nat} {source : Source} {acc : β} {w : World}
    (hends : ∀ n call, body.Calls source acc w n call → ∃ answer w', body.Ends call answer w')
    (hlt : ∀ n call, body.Calls source acc w n call → n < most) :
    ∃ fuel answer w', Action.Ends (Run.loop (body.run fuel) source fuel acc) w answer w' := by
  induction most generalizing source acc w with
  | zero =>
    rcases ht : w.heap.takeFrom source with ⟨⟨_ | item, source'⟩, h⟩
    · refine ⟨1, .ok acc, { w with heap := h }, ends_loop_succ_iff.mpr ?_⟩
      simp [ht]
    · exact absurd (hlt 0 _ (.first ht)) (Nat.not_lt_zero 0)
  | succ most ih =>
    rcases ht : w.heap.takeFrom source with ⟨⟨_ | item, source'⟩, h⟩
    · refine ⟨1, .ok acc, { w with heap := h }, ends_loop_succ_iff.mpr ?_⟩
      simp [ht]
    · obtain ⟨fault | acc', w₁, hcall⟩ := hends 0 _ (.first ht)
      · obtain ⟨fuel, hloop⟩ := exists_ends_of_first_error ht hcall
        exact ⟨fuel, _, _, hloop⟩
      · obtain ⟨m, answer, w', hrest⟩ := ih
          (fun k call hk => hends (k + 1) call (.later ht hcall hk))
          (fun k call hk => Nat.lt_of_succ_lt_succ (hlt (k + 1) call (.later ht hcall hk)))
        obtain ⟨fuel, hloop⟩ := exists_ends_of_first_ok ht hcall ⟨m, hrest⟩
        exact ⟨fuel, _, _, hloop⟩

/-- If a loop fails, a call of its body has failed. -/
theorem exists_call_of_turns {fuel : Nat} {source : Source} {acc : β} {w w' : World}
    {turns : List Turn} {answer : Except Fault β} {fault : Fault}
    (hturns : Turns (body.run fuel) source acc w turns answer w') (hfailed : answer = .error fault) :
    ∃ n call, body.Calls source acc w n call ∧ body.Ends call (.error fault) w' := by
  induction hturns with
  | ended => cases hfailed
  | failed hsome hbody =>
    cases hfailed
    exact ⟨0, _, .first hsome, fuel, hbody⟩
  | turn hsome hbody _ ih =>
    obtain ⟨n, call, hcall, hends⟩ := ih hfailed
    exact ⟨n + 1, call, .later hsome ⟨fuel, hbody⟩ hcall, hends⟩

/-- A loop over a value ends if its calls do, unless it goes over a list that they leave with more and
more items. -/
theorem exists_loopEnds {v : Value} {source : Source} {start : β} {w : World}
    (hof : Source.of v = .ok source)
    (hends : ∀ n call, body.Calls source start w n call → ∃ answer w', body.Ends call answer w')
    (hmost : ∀ l i, w.heap.cursorOf source = .list l i →
      ∃ most, body.LeavesAtMost source start w l most) :
    ∃ answer w', body.LoopEnds v start w answer w' := by
  have hlt : ∃ most, ∀ n call, body.Calls source start w n call → n < most := by
    by_cases hkind : (w.heap.cursorOf source).kind = .list
    · obtain ⟨l, i, hlist⟩ := Cursor.eq_list hkind
      obtain ⟨most, hmost⟩ := hmost l i hlist
      exact ⟨_, fun n call hcall => hcall.lt_sub (hends n call hcall) hlist hmost⟩
    · exact ⟨_, fun n call hcall => hcall.lt_length_ahead hkind⟩
  obtain ⟨most, hlt⟩ := hlt
  obtain ⟨fuel, answer, w', hloop⟩ := exists_ends_of_lt hends hlt
  exact ⟨answer, w', fuel, (ends_ofExcept_bind_of_ok hof).mpr hloop⟩

end LoopBody

end Builtins
