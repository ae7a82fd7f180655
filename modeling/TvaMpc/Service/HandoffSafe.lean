import TvaMpc.Service.HandoffProgress

/-!
# Service/HandoffSafe — the hand-off of tasks is safe

What holds whenever an event happens is read off the invariant.  With the progress of the threads
that is all of `handoff_safe`.
-/

namespace Tva.Service.Handoff

open Machinery Function

section History

variable {s s' : State} {e : Option Event} {threadsNum calls i n : ℕ} {h : List Event}

theorem mem_cycles_finish {i c n : ℕ} (hc : 4 * c + 3 < n) : .finish i c ∈ cycles i n := by
  rw [cycles, List.mem_map]
  exact ⟨4 * c + 3, List.mem_range.mpr hc, cycle_finish⟩

/-- **A call returns** only when every worker has finished its task. -/
theorem finished_of_returned (hr : (runtime threadsNum calls).Reaches s h) {c : ℕ}
    (hs : (runtime threadsNum calls).Step s (some (.returned c)) s') (hi : i < threadsNum) :
    .finish i c ∈ h := by
  have hinv := inv_reaches (hr.step hs)
  cases hs with
  | @worker _ _ j hj h =>
    obtain ⟨⟨slot', e'⟩, hslot, heq⟩ := Option.map_eq_some_iff.mp h
    obtain ⟨-, rfl⟩ : _ ∧ e' = some (.returned c) := by simpa using heq
    exact absurd (worker?_slotStep hslot _ rfl) (by simp [Event.worker?])
  | caller h =>
    rcases (control_callerStep h).returned with ⟨hother, -⟩ | ⟨hcall, hnext, hidle⟩
    · exact absurd rfl (hother c)
    · obtain rfl : c = s.call := by simpa using hcall
      obtain ⟨n, hfits, hevents⟩ := hinv.fits i hi
      rw [hidle, hnext] at hfits
      have hn : n = 4 * (s.call + 1) := by
        generalize s'.slots i = slot at hfits
        cases hfits <;> rfl
      have hmem : Event.finish i s.call ∈ eventsOf i _ :=
        hevents ▸ mem_cycles_finish (by omega)
      simpa using (List.mem_filter.mp hmem).1

theorem work_of_executing {p : Phase} {slot : Slot} (hfits : Fits p slot n)
    (hpc : slot.pc = .execute ∨ ∃ t, slot.pc = .executing t) : ∃ c, p = .work c := by
  cases hfits with
  | execute => exact ⟨_, rfl⟩
  | executing => exact ⟨_, rfl⟩
  | unborn h => simp [h] at hpc
  | _ => simp at hpc

theorem executing_of_event {slot slot' : Slot} {keepRunning : Bool} {x : Event}
    (h : slot.step i keepRunning = some (slot', some x)) :
    slot.pc = .execute ∨ ∃ t, slot.pc = .executing t := by
  cases hpc : slot.pc with
  | execute => exact .inl rfl
  | executing t => exact .inr ⟨t, rfl⟩
  | _ => simp [Slot.step, hpc] at h

/-- **A worker executes** only while the runtime is running. -/
theorem running_of_executing (hinv : Inv threadsNum calls s h) (hi : i < threadsNum)
    (hpc : (s.slots i).pc = .execute ∨ ∃ t, (s.slots i).pc = .executing t) :
    s.caller.running = true := by
  obtain ⟨n, hfits, -⟩ := hinv.fits i hi
  obtain ⟨c, hwork⟩ := work_of_executing hfits hpc
  exact running_of_work hwork

/-- Nothing is done to a task once the workers are stopped. -/
theorem not_stopped_of_event (hr : (runtime threadsNum calls).Reaches s h) {x : Event}
    (hs : (runtime threadsNum calls).Step s (some x) s') : .stopped ∉ h := by
  have hinv := inv_reaches hr
  suffices hrunning : s.caller.running = true by rw [hinv.stopped, hrunning]; exact Bool.noConfusion
  cases hs with
  | @worker _ _ i hi h =>
    obtain ⟨⟨slot', e'⟩, hslot, heq⟩ := Option.map_eq_some_iff.mp h
    obtain ⟨-, rfl⟩ : _ ∧ e' = some x := by simpa using heq
    exact running_of_executing hinv hi (executing_of_event hslot)
  | caller h =>
    cases callerStep_cases h with
    | handles hhandles => exact hhandles.running_of_event
    | returns hc | stops hc => rw [hc]; rfl

end History

/-- **The hand-off of tasks is safe**, in every reachable state with `h` the events so far.  The
events of a worker are the reset, the installation, the start and the finish of its task in call
`0`, in call `1` and so on: every task is executed once, before it is replaced.  No worker executes
while its task is replaced.  A call returns when all its tasks are finished; nothing happens to a
task after the destructor has stopped the workers.  Somebody has a step until the destructor is
done; then all calls have returned and all workers have exited; and no run goes on for ever. -/
theorem handoff_safe {threadsNum calls : ℕ} {s : State} {h : List Event}
    (hr : (runtime threadsNum calls).Reaches s h) :
    (∀ i < threadsNum, ∃ n, eventsOf i h = cycles i n) ∧
      (∀ i < threadsNum, ∀ task, (s.slots i).pc = .executing task →
        s.caller ≠ .reset i ∧ s.caller ≠ .install i ∧ s.caller ≠ .unlockExecute i) ∧
      (∀ h₁ h₂ c, h = h₁ ++ .returned c :: h₂ → ∀ i < threadsNum, .finish i c ∈ h₁) ∧
      (∀ h₁ h₂ x, h = h₁ ++ x :: h₂ → .stopped ∉ h₁) ∧
      (s.caller ≠ .done → ¬(runtime threadsNum calls).Stuck s) ∧
      (s.caller = .done → (∀ c < calls, .returned c ∈ h) ∧ .stopped ∈ h ∧
        ∀ i < threadsNum, (s.slots i).pc = .exited ∧ eventsOf i h = cycles i (4 * calls)) ∧
      ∀ m s', (runtime threadsNum calls).Run m s s' → m ≤ s.rank threadsNum calls := by
  have hinv := inv_reaches hr
  refine ⟨fun i hi => ?_, fun i hi task hpc => ?_, fun h₁ h₂ c heq => ?_, fun h₁ h₂ x heq => ?_,
    hinv.not_stuck, fun hdone => ⟨fun c hc => ?_, ?_, fun i hi => ?_⟩, fun m s' hrun => ?_⟩
  · obtain ⟨n, -, hevents⟩ := hinv.fits i hi
    exact ⟨n, hevents⟩
  · obtain ⟨n, hfits, -⟩ := hinv.fits i hi
    obtain ⟨c, hwork⟩ := work_of_executing hfits (.inr ⟨task, hpc⟩)
    refine ⟨?_, ?_, ?_⟩ <;>
    · intro hc
      simp [hc, phase] at hwork
  · exact hr.at_event (Q := fun h x => ∀ c, x = .returned c → ∀ i < threadsNum, .finish i c ∈ h)
      (fun hr hs c hx i hi => finished_of_returned hr (hx ▸ hs) hi) heq c rfl
  · exact hr.at_event (fun hr hs => not_stopped_of_event hr hs) heq
  · have hcall := hinv.callOk
    rw [hdone] at hcall
    exact (hinv.returned c).mpr (hc.trans_eq hcall.symm)
  · exact hinv.stopped.mpr (by rw [hdone]; rfl)
  · have hcall := hinv.callOk
    rw [hdone] at hcall
    obtain ⟨n, hfits, hevents⟩ := hinv.fits i hi
    rw [hdone, show s.call = calls from hcall] at hfits
    generalize s.slots i = slot at hfits ⊢
    cases hfits with
    | gone => exact ⟨rfl, hevents⟩
  · exact (Nat.le_add_right _ _).trans (System.length_le_of_measure rank_step hrun)

/-! ## A run -/

/-- A run by a schedule, in which `none` is the caller. -/
def replay (threadsNum calls : ℕ) :
    List (Option ℕ) → State × List Event → Option (State × List Event)
  | [], x => some x
  | who :: schedule, (s, h) =>
      let step := match who with
        | none => callerStep threadsNum calls s
        | some i => if i < threadsNum then workerStep i s else none
      step.bind fun (s', e) => replay threadsNum calls schedule (s', h ++ e.toList)

theorem reaches_replay {threadsNum calls : ℕ} {schedule : List (Option ℕ)} {s s' : State}
    {h h' : List Event} (hr : (runtime threadsNum calls).Reaches s h)
    (hreplay : replay threadsNum calls schedule (s, h) = some (s', h')) :
    (runtime threadsNum calls).Reaches s' h' := by
  induction schedule generalizing s h with
  | nil =>
    obtain ⟨rfl, rfl⟩ : s = s' ∧ h = h' := by simpa [replay] using hreplay
    exact hr
  | cons who schedule ih =>
    simp only [replay, Option.bind_eq_some_iff] at hreplay
    obtain ⟨⟨t, e⟩, hstep, hrest⟩ := hreplay
    refine ih (hr.step ?_) hrest
    cases who with
    | none => exact .caller hstep
    | some i =>
      rw [Option.ite_none_right_eq_some] at hstep
      exact .worker hstep.1 hstep.2

/-- One worker and one call, in which the worker says that a task may be set after the destructor
has woken it. -/
def oneCall : List (Option ℕ) :=
  [none, none, some 0, some 0, some 0, none, none, none, none, none, none, none, some 0, some 0,
    some 0, some 0, some 0, none, none, none, none, none, some 0, some 0, some 0, none, none]

theorem handoff_safe_one : ∃ s h, (runtime 1 1).Reaches s h ∧ s.caller = .done ∧
    .returned 0 ∈ h ∧ (s.slots 0).pc = .exited ∧ eventsOf 0 h = cycles 0 4 := by
  have hsome : (replay 1 1 oneCall ((runtime 1 1).init, [])).isSome := by decide
  obtain ⟨⟨s, h⟩, hreplay⟩ := Option.isSome_iff_exists.mp hsome
  have hr : (runtime 1 1).Reaches s h := reaches_replay .init hreplay
  have hdone : s.caller = .done := by
    have hcaller : (replay 1 1 oneCall ((runtime 1 1).init, [])).map (·.1.caller) = some .done := by
      decide
    rw [hreplay] at hcaller
    exact Option.some_inj.mp hcaller
  obtain ⟨-, -, -, -, -, hend, -⟩ := handoff_safe hr
  obtain ⟨hreturned, -, hworkers⟩ := hend hdone
  exact ⟨s, h, hr, hdone, hreturned 0 one_pos, hworkers 0 one_pos⟩

end Tva.Service.Handoff
