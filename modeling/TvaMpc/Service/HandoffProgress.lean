import TvaMpc.Service.HandoffInvariant
import Mathlib.Algebra.BigOperators.Group.Finset.Basic

/-!
# Service/HandoffProgress — nobody waits for ever, and every run ends

Until the destructor is done somebody has a step (`Inv.not_stuck`).  Every step lowers a rank, the
steps left to the caller and to the workers (`rank_step`).
-/

namespace Tva.Service.Handoff

open Machinery Function

section Progress

variable {s s' : State} {e : Option Event} {threadsNum calls i n : ℕ} {h : List Event}

/-- A worker that is in a phase it must leave for the caller to go on has a step. -/
theorem exists_workerStep (hi : i < threadsNum) {slot' : Slot} {e : Option Event}
    (hslot : (s.slots i).step i s.keepRunning = some (slot', e)) :
    ¬(runtime threadsNum calls).Stuck s := by
  have hstep : ∃ x, workerStep i s = some x := ⟨_, by rw [workerStep, hslot]; rfl⟩
  obtain ⟨x, hx⟩ := hstep
  exact fun hstuck => hstuck _ _ (.worker hi hx)

theorem not_stuck_caller {x : State × Option Event} (h : callerStep threadsNum calls s = some x) :
    ¬(runtime threadsNum calls).Stuck s := fun hstuck => hstuck _ _ (.caller h)

/-- **Nobody waits for ever**: until the destructor is done, somebody has a step. -/
theorem Inv.not_stuck (hinv : Inv threadsNum calls s h) (hdone : s.caller ≠ .done) :
    ¬(runtime threadsNum calls).Stuck s := by
  have hslotOf : ∀ i < threadsNum, ∃ n, Fits (phase s.caller s.call i) (s.slots i) n := fun i hi =>
    (hinv.fits i hi).imp fun _ h => h.1
  cases hc : s.caller with
  | create k =>
    rcases lt_or_ge k threadsNum with hk | hk
    · exact not_stuck_caller (by rw [callerStep, hc]; exact if_pos hk)
    · exact not_stuck_caller (by rw [callerStep, hc]; exact if_neg hk.not_gt)
  | awaitSetup =>
    rcases eq_or_ne s.counter 0 with hzero | hpos
    · exact not_stuck_caller (by rw [callerStep, hc]; exact if_pos hzero)
    · -- a worker that is not counted yet
      rw [hinv.counter, Finset.card_ne_zero] at hpos
      obtain ⟨i, hmem⟩ := hpos
      rw [Finset.mem_filter, Finset.mem_range] at hmem
      obtain ⟨n, hfits⟩ := hslotOf i hmem.1
      rw [hc] at hfits
      change Fits .setup _ _ at hfits
      have hcounting := hmem.2
      generalize hslot : s.slots i = slot at hfits hcounting
      cases hfits with
      | ready => cases hcounting
      | lockFinished | lockExecute | countDown =>
        exact exists_workerStep hmem.1 (by rw [hslot]; rfl)
  | idle | reset k | install k | unlockExecute k | stop =>
    exact not_stuck_caller (by rw [callerStep, hc])
  | lockSet k =>
    rcases lt_or_ge k threadsNum with hk | hk
    · obtain ⟨n, hfits⟩ := hslotOf k hk
      rw [hc, phase, if_neg (lt_irrefl k)] at hfits
      generalize hslot : s.slots k = slot at hfits
      cases hfits with
      | waiting =>
        exact not_stuck_caller (by rw [callerStep, hc]; simp only [hk, if_true, hslot]; rfl)
      | leaving => exact exists_workerStep hk (by rw [hslot]; rfl)
    · exact not_stuck_caller (by rw [callerStep, hc]; exact if_neg hk.not_gt)
  | lockFinished k =>
    rcases lt_or_ge k threadsNum with hk | hk
    · obtain ⟨n, hfits⟩ := hslotOf k hk
      rw [hc, phase, if_neg (lt_irrefl k)] at hfits
      generalize hslot : s.slots k = slot at hfits
      cases hfits with
      | finished | settable =>
        exact not_stuck_caller (by rw [callerStep, hc]; simp only [hk, if_true, hslot]; rfl)
      | _ => exact exists_workerStep hk (by rw [hslot]; rfl)
    · exact not_stuck_caller (by rw [callerStep, hc]; exact if_neg hk.not_gt)
  | release k =>
    rcases lt_or_ge k threadsNum with hk | hk
    · exact not_stuck_caller (by rw [callerStep, hc]; exact if_pos hk)
    · exact not_stuck_caller (by rw [callerStep, hc]; exact if_neg hk.not_gt)
  | join k =>
    have hk := hinv.join k hc
    obtain ⟨n, hfits⟩ := hslotOf k hk
    simp only [hc, phase, lt_irrefl, if_false, if_true] at hfits
    generalize hslot : s.slots k = slot at hfits
    cases hfits with
    | exited => exact not_stuck_caller (by rw [callerStep, hc]; simp only [hslot]; rfl)
    | _ => exact exists_workerStep hk (by rw [hslot]; rfl)
  | done => exact absurd hc hdone

/-! ### Runs end -/

/-- How many steps a worker has before it waits for the caller. -/
def WorkerPc.rank : WorkerPc → ℕ
  | unborn | awaitTask | exited => 0
  | lockFinished => 3
  | lockExecute => 2
  | countDown => 1
  | test => 5
  | execute => 4
  | executing _ => 3
  | unlockFinished => 2
  | unlockSet => 1

/-- The same, with the steps that a released `task_execute_mutex` allows. -/
def Slot.rank (slot : Slot) : ℕ := slot.pc.rank + if slot.taskExecute then 0 else 6

/-- How many steps the caller has in a call with all its workers. -/
def callSteps (threadsNum : ℕ) : ℕ := 5 * threadsNum + 3

/-- How many steps the caller has, with `left` more calls to begin. -/
def CallerPc.rank (threadsNum left : ℕ) : CallerPc → ℕ
  | create k => threadsNum - k + 2 + left * callSteps threadsNum + (2 * threadsNum + 3)
  | awaitSetup => 1 + left * callSteps threadsNum + (2 * threadsNum + 3)
  | idle => left * callSteps threadsNum + (2 * threadsNum + 3)
  | lockSet k => 4 * (threadsNum - k) + (threadsNum + 2)
      + (left - 1) * callSteps threadsNum + (2 * threadsNum + 3)
  | reset k => 4 * (threadsNum - (k + 1)) + 3 + (threadsNum + 2)
      + (left - 1) * callSteps threadsNum + (2 * threadsNum + 3)
  | install k => 4 * (threadsNum - (k + 1)) + 2 + (threadsNum + 2)
      + (left - 1) * callSteps threadsNum + (2 * threadsNum + 3)
  | unlockExecute k => 4 * (threadsNum - (k + 1)) + 1 + (threadsNum + 2)
      + (left - 1) * callSteps threadsNum + (2 * threadsNum + 3)
  | lockFinished k => threadsNum - k + 1
      + (left - 1) * callSteps threadsNum + (2 * threadsNum + 3)
  | stop => 2 * threadsNum + 2
  | release k => 2 * (threadsNum - k) + 1
  | join k => 2 * (threadsNum - (k + 1)) + 2
  | done => 0

/-- **How many steps there are at most from a state on**: a step of the caller can let one worker
take nine. -/
def State.rank (threadsNum calls : ℕ) (s : State) : ℕ :=
  10 * s.caller.rank threadsNum (calls - s.call)
    + ∑ i ∈ Finset.range threadsNum, (s.slots i).rank

theorem rank_slotStep {slot slot' : Slot} {keepRunning : Bool}
    (h : slot.step i keepRunning = some (slot', e)) : slot'.rank < slot.rank := by
  cases hpc : slot.pc with
  | unborn | exited => simp [Slot.step, hpc] at h
  | lockFinished | lockExecute | awaitTask =>
    simp only [Slot.step, hpc] at h
    split at h
    · exact absurd h (by simp)
    · rename_i hfree
      obtain ⟨rfl, -⟩ : _ = slot' ∧ _ = e := by simpa using h
      simp [Slot.rank, hpc, WorkerPc.rank, hfree]
  | countDown | executing | unlockFinished | unlockSet =>
    obtain ⟨rfl, -⟩ : _ = slot' ∧ _ = e := by simpa [Slot.step, hpc] using h
    simp [Slot.rank, hpc, WorkerPc.rank]
  | test =>
    obtain ⟨rfl, -⟩ : _ = slot' ∧ _ = e := by simpa [Slot.step, hpc] using h
    cases keepRunning <;> simp [Slot.rank, hpc, WorkerPc.rank]
  | execute =>
    simp only [Slot.step, hpc, Option.map_eq_some_iff] at h
    obtain ⟨task, -, heq⟩ := h
    obtain ⟨rfl, -⟩ : _ = slot' ∧ _ = e := by simpa using heq
    simp [Slot.rank, hpc, WorkerPc.rank]

/-- Putting one slot changes its summand. -/
theorem sum_rank_put (s : State) (slot : Slot) (hi : i < threadsNum) :
    ∑ j ∈ Finset.range threadsNum, ((s.put i slot).slots j).rank + (s.slots i).rank
      = ∑ j ∈ Finset.range threadsNum, (s.slots j).rank + slot.rank := by
  have hmem := Finset.mem_range.mpr hi
  rw [← Finset.add_sum_erase _ _ hmem, ← Finset.add_sum_erase _ (fun j => (s.slots j).rank) hmem,
    put_self]
  have hothers : ∑ j ∈ (Finset.range threadsNum).erase i, ((s.put i slot).slots j).rank
      = ∑ j ∈ (Finset.range threadsNum).erase i, (s.slots j).rank :=
    Finset.sum_congr rfl fun j hj => by rw [put_of_ne (Finset.ne_of_mem_erase hj)]
  rw [hothers]
  omega

/-- Putting a slot raises the sum by nine at most, whether there is such a worker or not. -/
theorem sum_rank_put_le (threadsNum : ℕ) {slot : Slot}
    (hslot : slot.rank ≤ (s.slots i).rank + 9) :
    ∑ j ∈ Finset.range threadsNum, ((s.put i slot).slots j).rank
      ≤ ∑ j ∈ Finset.range threadsNum, (s.slots j).rank + 9 := by
  rcases lt_or_ge i threadsNum with hi | hi
  · have hsum := sum_rank_put s slot hi
    omega
  · rw [Finset.sum_congr rfl fun j hj => by
      rw [put_of_ne ((Finset.mem_range.mp hj).trans_le hi).ne]]
    omega

theorem rank_put_goto {slot : Slot} {caller : CallerPc}
    (hslot : slot.rank ≤ (s.slots i).rank + 9)
    (hcaller : caller.rank threadsNum (calls - s.call)
      < s.caller.rank threadsNum (calls - s.call)) :
    ((s.put i slot).goto caller).rank threadsNum calls < s.rank threadsNum calls := by
  have hsum := sum_rank_put_le threadsNum hslot
  rw [State.rank, State.rank, goto_caller, goto_call, goto_slots, put_call]
  omega

theorem rank_goto {caller : CallerPc} (hcaller : caller.rank threadsNum (calls - s.call)
      < s.caller.rank threadsNum (calls - s.call)) :
    (s.goto caller).rank threadsNum calls < s.rank threadsNum calls := by
  rw [State.rank, State.rank, goto_caller, goto_call, goto_slots]
  omega

theorem Handles.rank_slot {k : ℕ} {slot slot' : Slot} {source target : CallerPc}
    (h : Handles threadsNum s.call k slot source slot' target e) : slot'.rank ≤ slot.rank + 9 := by
  cases h with
  | create => simp [Slot.rank, WorkerPc.rank]
  | lockSet | reset | install | lockFinished => exact Nat.le_add_right _ _
  | unlockExecute | release =>
    simp only [Slot.rank]
    split <;> omega

theorem Handles.rank_caller {c k left : ℕ} {slot slot' : Slot} {source target : CallerPc}
    (h : Handles threadsNum c k slot source slot' target e) :
    target.rank threadsNum left < source.rank threadsNum left := by
  cases h with
  | _ =>
    simp only [CallerPc.rank]
    omega

theorem Passes.rank_caller {source target : CallerPc}
    (h : Passes threadsNum calls s source target) :
    target.rank threadsNum (calls - s.call) < source.rank threadsNum (calls - s.call) := by
  cases h with
  | call hcall =>
    -- one of the calls that are left begins
    obtain ⟨left, hleft⟩ : ∃ left, calls - s.call = left + 1 :=
      Nat.exists_eq_succ_of_ne_zero (by omega)
    simp only [hleft, CallerPc.rank, callSteps, Nat.succ_mul, Nat.add_sub_cancel]
    omega
  | _ =>
    simp only [CallerPc.rank]
    omega

theorem rank_callerStep (h : callerStep threadsNum calls s = some (s', e)) :
    s'.rank threadsNum calls < s.rank threadsNum calls := by
  cases callerStep_cases h with
  | handles hhandles => exact rank_put_goto hhandles.rank_slot hhandles.rank_caller
  | passes hpasses => exact rank_goto hpasses.rank_caller
  | returns hc =>
    simp only [State.rank, hc, goto_caller, goto_slots, CallerPc.rank, Nat.sub_add_eq]
    omega
  | stops hc =>
    simp only [State.rank, hc, goto_caller, goto_slots, CallerPc.rank]
    omega

theorem rank_step (h : (runtime threadsNum calls).Step s e s') :
    s'.rank threadsNum calls < s.rank threadsNum calls := by
  cases h with
  | caller h => exact rank_callerStep h
  | @worker _ _ i hi h =>
    obtain ⟨⟨slot', e'⟩, hslot, heq⟩ := Option.map_eq_some_iff.mp h
    obtain ⟨rfl, -⟩ : _ = s' ∧ e' = e := by simpa using heq
    have hsum := sum_rank_put s slot' hi
    have hlt := rank_slotStep hslot
    change 10 * s.caller.rank threadsNum (calls - s.call)
        + ∑ j ∈ Finset.range threadsNum, ((s.put i slot').slots j).rank < _
    rw [State.rank]
    omega

end Progress

end Tva.Service.Handoff
