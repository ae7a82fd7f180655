import TvaMpc.Service.HandoffSteps
import Mathlib.Data.Finset.Card

/-!
# Service/HandoffInvariant — the invariant of the hand-off

In every reachable state each worker fits its phase and has had the events that it should
(`inv_reaches`): the steps of the workers keep it (`inv_worker`), and so do those of the caller
(`inv_caller`).
-/

namespace Tva.Service.Handoff

open Machinery Function

section Steps

variable {s s' : State} {e : Option Event} {threadsNum calls i n : ℕ}

/-- The workers that have yet to be counted by `setup_threads`. -/
def WorkerPc.counting : WorkerPc → Bool
  | unborn | lockFinished | lockExecute | countDown => true
  | _ => false

/-- How many calls there have been, given where the caller is. -/
def CallerPc.CallOk (calls call : ℕ) : CallerPc → Prop
  | create _ | awaitSetup => call = 0
  | idle => call ≤ calls
  | lockSet _ | reset _ | install _ | unlockExecute _ | lockFinished _ => call < calls
  | stop | release _ | join _ | done => call = calls

/-- **The invariant**: every worker fits its phase and has had the events that it should. -/
structure Inv (threadsNum calls : ℕ) (s : State) (h : List Event) : Prop where
  fits : ∀ i < threadsNum,
    ∃ n, Fits (phase s.caller s.call i) (s.slots i) n ∧ eventsOf i h = cycles i n
  counter : s.counter
    = ((Finset.range threadsNum).filter fun i => (s.slots i).pc.counting = true).card
  keepRunning : s.keepRunning = s.caller.running
  callOk : s.caller.CallOk calls s.call
  join : ∀ k, s.caller = .join k → k < threadsNum
  returned : ∀ c, .returned c ∈ h ↔ c < s.call
  stopped : .stopped ∈ h ↔ s.caller.running = false

/-- When the counter is `0`, every worker waits for its first task. -/
theorem Inv.ready {h : List Event} (hinv : Inv threadsNum calls s h) (hi : i < threadsNum)
    (hc : s.caller = .awaitSetup) (hzero : s.counter = 0) :
    s.call = 0 ∧ s.slots i = ⟨.awaitTask, false, true, true, none⟩ := by
  have hcall := hinv.callOk
  rw [hc] at hcall
  refine ⟨hcall, ?_⟩
  have hcounted : ¬(s.slots i).pc.counting = true := by
    have hempty := hinv.counter
    rw [hzero, eq_comm, Finset.card_eq_zero, Finset.filter_eq_empty_iff] at hempty
    exact hempty (Finset.mem_range.mpr hi)
  obtain ⟨n, hfits, -⟩ := hinv.fits i hi
  rw [hc] at hfits
  change Fits .setup _ _ at hfits
  generalize s.slots i = slot at hfits hcounted ⊢
  cases hfits with
  | ready => rfl
  | _ => exact absurd rfl hcounted

theorem counting_slotStep {slot slot' : Slot} {keepRunning : Bool}
    (h : slot.step i keepRunning = some (slot', e)) :
    slot'.pc.counting = (slot.pc.counting && !decide (slot.pc = .countDown)) := by
  cases hpc : slot.pc with
  | unborn | exited => simp [Slot.step, hpc] at h
  | lockFinished | lockExecute | awaitTask =>
    simp only [Slot.step, hpc] at h
    split at h
    · exact absurd h (by simp)
    · obtain ⟨rfl, -⟩ : _ = slot' ∧ _ = e := by simpa using h
      rfl
  | countDown | executing | unlockFinished | unlockSet =>
    obtain ⟨rfl, -⟩ : _ = slot' ∧ _ = e := by simpa [Slot.step, hpc] using h
    rfl
  | test =>
    obtain ⟨rfl, -⟩ : _ = slot' ∧ _ = e := by simpa [Slot.step, hpc] using h
    cases keepRunning <;> rfl
  | execute =>
    simp only [Slot.step, hpc, Option.map_eq_some_iff] at h
    obtain ⟨task, -, heq⟩ := h
    obtain ⟨rfl, -⟩ : _ = slot' ∧ _ = e := by simpa using heq
    rfl

theorem worker?_slotStep {slot slot' : Slot} {keepRunning : Bool}
    (h : slot.step i keepRunning = some (slot', e)) : ∀ x ∈ e, x.worker? = some i := by
  intro x hx
  cases hpc : slot.pc with
  | unborn | exited => simp [Slot.step, hpc] at h
  | lockFinished | lockExecute | awaitTask =>
    simp only [Slot.step, hpc] at h
    split at h
    · exact absurd h (by simp)
    · obtain ⟨-, rfl⟩ : _ = slot' ∧ _ = e := by simpa using h
      cases hx
  | countDown | unlockFinished | unlockSet | test =>
    obtain ⟨-, rfl⟩ : _ = slot' ∧ _ = e := by simpa [Slot.step, hpc] using h
    cases hx
  | executing =>
    obtain ⟨-, rfl⟩ : _ = slot' ∧ _ = e := by simpa [Slot.step, hpc] using h
    obtain rfl := Option.mem_some.mp hx
    rfl
  | execute =>
    simp only [Slot.step, hpc, Option.map_eq_some_iff] at h
    obtain ⟨task, -, heq⟩ := h
    obtain ⟨-, rfl⟩ : _ = slot' ∧ _ = e := by simpa using heq
    obtain rfl := Option.mem_some.mp hx
    rfl

theorem running_of_work {caller : CallerPc} {c c' : ℕ} (h : phase caller c i = .work c') :
    caller.running = true := by
  cases caller with
  | release k | join k => simp only [phase] at h; split_ifs at h
  | done => cases h
  | _ => rfl

theorem running_of_released {caller : CallerPc} {c c' : ℕ}
    (h : phase caller c i = .released c') : caller.running = false := by
  cases caller with
  | release k | join k | done => rfl
  | awaitSetup | idle | stop => cases h
  | _ => simp only [phase] at h; split_ifs at h

/-- **A step of a worker keeps the invariant.** -/
theorem inv_worker {h : List Event} (hinv : Inv threadsNum calls s h) (hi : i < threadsNum)
    (hstep : workerStep i s = some (s', e)) : Inv threadsNum calls s' (h ++ e.toList) := by
  obtain ⟨⟨slot', e'⟩, hslot, heq⟩ := Option.map_eq_some_iff.mp hstep
  obtain ⟨rfl, rfl⟩ : _ = s' ∧ e' = e := by simpa using heq
  have hworker := worker?_slotStep hslot
  have hold : ∀ x : Event, x.worker? = none → (x ∈ h ++ e'.toList ↔ x ∈ h) := by
    intro x hx
    rw [List.mem_append, or_iff_left]
    intro hmem
    rw [hworker x (by simpa using hmem)] at hx
    cases hx
  refine ⟨fun j hj => ?_, ?_, hinv.keepRunning, hinv.callOk, hinv.join, fun c => ?_, ?_⟩
  · obtain ⟨n, hfits, hevents⟩ := hinv.fits j hj
    rcases eq_or_ne j i with rfl | hji
    · obtain ⟨n', hfits', hshows⟩ := fits_slotStep hfits
        (fun c hwork => hinv.keepRunning.trans (running_of_work hwork))
        (fun c hreleased => hinv.keepRunning.trans (running_of_released hreleased)) hslot
      exact ⟨n', by simpa using hfits', eventsOf_append hshows hevents⟩
    · refine ⟨n, by simpa [hji] using hfits, ?_⟩
      refine eventsOf_append (.inr ⟨fun x hx => ?_, rfl⟩) hevents
      rw [hworker x hx]
      exact fun h => hji (Option.some_inj.mp h).symm
  · have hcounting := counting_slotStep hslot
    have hothers : ∀ j ≠ i, (((s.put i slot').slots j).pc.counting = true
        ↔ (s.slots j).pc.counting = true) := fun j hj => by rw [put_of_ne hj]
    change (if _ then _ else _) = Finset.card (Finset.filter
      (fun j => ((s.put i slot').slots j).pc.counting = true) (Finset.range threadsNum))
    split
    · rename_i hcount
      have hi' : i ∈ (Finset.range threadsNum).filter fun j => (s.slots j).pc.counting = true := by
        rw [Finset.mem_filter, Finset.mem_range, hcount]
        exact ⟨hi, rfl⟩
      rw [hinv.counter, ← Finset.card_erase_of_mem hi']
      congr 1
      ext j
      rw [Finset.mem_erase, Finset.mem_filter, Finset.mem_filter]
      rcases eq_or_ne j i with rfl | hj
      · simp [hcounting, hcount]
      · simp [hj]
    · rename_i hcount
      rw [hinv.counter]
      refine congrArg Finset.card (Finset.filter_congr fun j _ => ?_)
      rcases eq_or_ne j i with rfl | hj
      · simp [hcounting, hcount]
      · exact (hothers j hj).symm
  · exact (hold _ rfl).trans (hinv.returned c)
  · exact (hold _ rfl).trans hinv.stopped

theorem Handles.counting {c k : ℕ} {slot slot' : Slot} {source target : CallerPc}
    (h : Handles threadsNum c k slot source slot' target e)
    (hfits : Fits (phase source c k) slot n) : slot'.pc.counting = slot.pc.counting := by
  cases h with
  | create =>
    simp only [phase, lt_irrefl, if_false] at hfits
    cases hfits with
    | unborn hpc => simp [hpc, WorkerPc.counting]
  | _ => rfl

/-- The caller starts workers that are to be counted, and leaves the others where they are. -/
theorem counting_callerStep (hfits : ∃ n, Fits (phase s.caller s.call i) (s.slots i) n)
    (h : callerStep threadsNum calls s = some (s', e)) :
    (s'.slots i).pc.counting = (s.slots i).pc.counting := by
  cases callerStep_cases h with
  | @handles k slot target e hhandles =>
    rcases eq_or_ne i k with rfl | hik
    · obtain ⟨n, hfits⟩ := hfits
      rw [goto_slots, put_self, hhandles.counting hfits]
    · rw [goto_slots, put_of_ne hik]
  | _ => rfl

/-- What a step of the caller does besides: where it goes, and what it says of its calls. -/
structure Control (threadsNum calls : ℕ) (s s' : State) (e : Option Event) : Prop where
  counter : s'.counter = s.counter
  keepRunning : s.keepRunning = s.caller.running → s'.keepRunning = s'.caller.running
  callOk : s.caller.CallOk calls s.call → s'.caller.CallOk calls s'.call
  join : ∀ k, s'.caller = .join k → k < threadsNum
  returned : (∀ c, e ≠ some (.returned c)) ∧ s'.call = s.call ∨
    e = some (.returned s.call) ∧ s'.call = s.call + 1 ∧ s'.caller = .idle
  stopped : e ≠ some .stopped ∧ s'.caller.running = s.caller.running ∨
    e = some .stopped ∧ s'.caller.running = false

/-- A step within `setup_threads`, a call or the destructor. -/
theorem Control.goto {t : State} {caller : CallerPc} (ht : t.counter = s.counter)
    (hkeep : t.keepRunning = s.keepRunning) (hcall : t.call = s.call)
    (hrunning : caller.running = s.caller.running)
    (hok : s.caller.CallOk calls s.call → caller.CallOk calls s.call)
    (hjoin : ∀ k, caller = .join k → k < threadsNum)
    (he : ∀ x ∈ e, x.worker?.isSome) : Control threadsNum calls s (t.goto caller) e where
  counter := ht
  keepRunning h := by rw [goto_keepRunning, hkeep, h, goto_caller, hrunning]
  callOk h := by rw [goto_call, hcall]; exact hok h
  join := hjoin
  returned := .inl ⟨fun c hc => absurd (he _ hc) (by simp [Event.worker?]), hcall⟩
  stopped := .inl ⟨fun hc => absurd (he _ hc) (by simp [Event.worker?]), hrunning⟩

section Handles

variable {c k : ℕ} {slot slot' : Slot} {source target : CallerPc}

theorem Handles.running_eq (h : Handles threadsNum c k slot source slot' target e) :
    target.running = source.running := by
  cases h <;> rfl

theorem Handles.running_of_event {x : Event}
    (h : Handles threadsNum c k slot source slot' target (some x)) : source.running = true := by
  cases h <;> rfl

theorem Handles.callOk (h : Handles threadsNum c k slot source slot' target e)
    (hok : source.CallOk calls c) : target.CallOk calls c := by
  cases h <;> exact hok

/-- The caller joins the workers that there are. -/
theorem Handles.lt_of_join (h : Handles threadsNum c k slot source slot' target e)
    (htarget : target = .join i) : i < threadsNum := by
  cases h with
  | release hk => exact CallerPc.join.inj htarget ▸ hk
  | _ => cases htarget

end Handles

theorem Passes.running_eq {source target : CallerPc}
    (h : Passes threadsNum calls s source target) : target.running = source.running := by
  cases h <;> rfl

theorem Passes.ne_join {source target : CallerPc} (h : Passes threadsNum calls s source target)
    (k : ℕ) : target ≠ .join k := by
  cases h <;> simp

theorem Passes.callOk {source target : CallerPc} (h : Passes threadsNum calls s source target)
    (hok : source.CallOk calls s.call) : target.CallOk calls s.call := by
  cases h with
  | ready => exact hok.trans_le calls.zero_le
  | call hcall => exact hcall
  | destroy hcall => exact le_antisymm hok hcall
  | _ => exact hok

theorem control_callerStep (h : callerStep threadsNum calls s = some (s', e)) :
    Control threadsNum calls s s' e := by
  cases callerStep_cases h with
  | handles hhandles =>
    refine .goto rfl rfl rfl hhandles.running_eq hhandles.callOk (fun _ => hhandles.lt_of_join) ?_
    intro x hx
    rw [hhandles.worker? x hx]
    rfl
  | passes hpasses =>
    exact .goto rfl rfl rfl hpasses.running_eq hpasses.callOk
      (fun k htarget => absurd htarget (hpasses.ne_join k)) (by simp)
  | returns hc =>
    exact {
      counter := rfl
      keepRunning := fun hkeep => hkeep.trans (by rw [hc]; rfl)
      callOk := by rw [hc]; exact Nat.succ_le_of_lt
      join := by simp
      returned := .inr ⟨rfl, rfl, rfl⟩
      stopped := .inl ⟨by simp, by rw [hc]; rfl⟩ }
  | stops hc =>
    exact {
      counter := rfl
      keepRunning := fun _ => rfl
      callOk := by rw [hc]; exact id
      join := by simp
      returned := .inl ⟨by simp, rfl⟩
      stopped := .inr ⟨rfl, rfl⟩ }

/-- **A step of the caller keeps the invariant.** -/
theorem inv_caller {h : List Event} (hinv : Inv threadsNum calls s h)
    (hstep : callerStep threadsNum calls s = some (s', e)) :
    Inv threadsNum calls s' (h ++ e.toList) := by
  have hworkers : ∀ i < threadsNum, ∃ n, Fits (phase s'.caller s'.call i) (s'.slots i) n ∧
      eventsOf i (h ++ e.toList) = cycles i n := by
    intro i hi
    obtain ⟨n, hfits, hevents⟩ := hinv.fits i hi
    obtain ⟨n', hfits', hshows⟩ := fits_callerStep hi (hinv.ready hi) hfits hstep
    exact ⟨n', hfits', eventsOf_append hshows hevents⟩
  have hcontrol := control_callerStep hstep
  refine ⟨hworkers, ?_, hcontrol.keepRunning hinv.keepRunning, hcontrol.callOk hinv.callOk,
    hcontrol.join, fun c => ?_, ?_⟩
  · rw [hcontrol.counter, hinv.counter]
    refine congrArg Finset.card (Finset.filter_congr fun i hi => ?_)
    obtain ⟨n, hfits, -⟩ := hinv.fits i (Finset.mem_range.mp hi)
    rw [counting_callerStep ⟨n, hfits⟩ hstep]
  · rw [List.mem_append, hinv.returned]
    rcases hcontrol.returned with ⟨hother, hcall⟩ | ⟨rfl, hcall, -⟩
    · have hnot : Event.returned c ∉ e.toList := by simpa using hother c
      rw [or_iff_left hnot, hcall]
    · rw [hcall, Option.toList_some, List.mem_singleton, Event.returned.injEq, Nat.lt_succ_iff,
        le_iff_lt_or_eq]
  · rw [List.mem_append, hinv.stopped]
    rcases hcontrol.stopped with ⟨hother, hrunning⟩ | ⟨rfl, hrunning⟩
    · have hnot : Event.stopped ∉ e.toList := by simpa using hother
      rw [or_iff_left hnot, hrunning]
    · exact iff_of_true (.inr (by simp)) hrunning

theorem inv_init : Inv threadsNum calls (runtime threadsNum calls).init [] where
  fits i _ := ⟨0, .unborn rfl, rfl⟩
  counter := by
    rw [Finset.filter_true_of_mem fun i _ => by rfl, Finset.card_range]
    rfl
  keepRunning := rfl
  callOk := (rfl : 0 = 0)
  join k h := by cases h
  returned c := by simp [runtime]
  stopped := by simp [runtime, CallerPc.running]

/-- **Every reachable state has the invariant.** -/
theorem inv_reaches {h : List Event} (hr : (runtime threadsNum calls).Reaches s h) :
    Inv threadsNum calls s h := by
  refine hr.invariant inv_init fun hinv hs => ?_
  cases hs with
  | caller h => exact inv_caller hinv h
  | worker hi h => exact inv_worker hinv hi h

end Steps

end Tva.Service.Handoff
