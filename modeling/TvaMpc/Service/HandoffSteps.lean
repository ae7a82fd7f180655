import TvaMpc.Service.Handoff
import Mathlib.Tactic.Cases
import Mathlib.Tactic.SplitIfs

/-!
# Service/HandoffSteps — where a worker can be, given where the caller is

The caller takes every worker through the phases of its calls, and `Fits` lists the states of a
worker in each of them, with the number of its events.  A step of the worker stays within its phase
(`fits_slotStep`).  What a step of the caller is says `callerStep_cases`; it takes the worker to the
next phase (`fits_callerStep`).
-/

namespace Tva.Service.Handoff

open Machinery Function

/-! ## Where a worker can be -/

/-- What the caller has done to a worker.  `rest c`: all that there was, after `c` calls; `work c`:
handed over the task of call `c`, and not yet collected it. -/
inductive Phase where
  | unborn
  | setup
  | rest (c : ℕ)
  | reset (c : ℕ)
  | install (c : ℕ)
  | unlock (c : ℕ)
  | work (c : ℕ)
  | released (c : ℕ)
  | gone (c : ℕ)

/-- What the caller has done to worker `i`, read off where it is. -/
def phase (caller : CallerPc) (c i : ℕ) : Phase :=
  match caller with
  | .create k => if i < k then .setup else .unborn
  | .awaitSetup => .setup
  | .idle | .stop => .rest c
  | .lockSet k => if i < k then .work c else .rest c
  | .reset k => if i < k then .work c else if i = k then .reset c else .rest c
  | .install k => if i < k then .work c else if i = k then .install c else .rest c
  | .unlockExecute k => if i < k then .work c else if i = k then .unlock c else .rest c
  | .lockFinished k => if i < k then .rest (c + 1) else .work c
  | .release k => if i < k then .gone c else .rest c
  | .join k => if i < k then .gone c else if i = k then .released c else .rest c
  | .done => .gone c

/-- **The states of a worker** in a phase, with the number of its events so far.  The rows follow
the worker's program. -/
inductive Fits : Phase → Slot → ℕ → Prop where
  | unborn {slot : Slot} (h : slot.pc = .unborn) : Fits .unborn slot 0
  | lockFinished : Fits .setup ⟨.lockFinished, false, false, false, none⟩ 0
  | lockExecute : Fits .setup ⟨.lockExecute, false, false, true, none⟩ 0
  | countDown : Fits .setup ⟨.countDown, false, true, true, none⟩ 0
  | ready : Fits .setup ⟨.awaitTask, false, true, true, none⟩ 0
  /-- It waits for a task. -/
  | waiting {c t} : Fits (.rest c) ⟨.awaitTask, false, true, true, t⟩ (4 * c)
  /-- It has yet to say that a task may be set. -/
  | leaving {c t} : Fits (.rest c) ⟨.unlockSet, true, true, true, t⟩ (4 * c)
  | reset {c t} : Fits (.reset c) ⟨.awaitTask, true, true, true, t⟩ (4 * c)
  | install {c} : Fits (.install c) ⟨.awaitTask, true, true, true, none⟩ (4 * c + 1)
  | unlock {c} : Fits (.unlock c) ⟨.awaitTask, true, true, true, some c⟩ (4 * c + 2)
  | handed {c} : Fits (.work c) ⟨.awaitTask, true, false, true, some c⟩ (4 * c + 2)
  | woken {c} : Fits (.work c) ⟨.test, true, true, true, some c⟩ (4 * c + 2)
  | execute {c} : Fits (.work c) ⟨.execute, true, true, true, some c⟩ (4 * c + 2)
  | executing {c} : Fits (.work c) ⟨.executing c, true, true, true, some c⟩ (4 * c + 3)
  | executed {c} : Fits (.work c) ⟨.unlockFinished, true, true, true, some c⟩ (4 * c + 4)
  | finished {c} : Fits (.work c) ⟨.unlockSet, true, true, false, some c⟩ (4 * c + 4)
  | settable {c} : Fits (.work c) ⟨.awaitTask, false, true, false, some c⟩ (4 * c + 4)
  /-- The destructor does not wait for the worker to say that a task may be set. -/
  | lastLeaving {c t} : Fits (.released c) ⟨.unlockSet, true, false, true, t⟩ (4 * c)
  | lastWaiting {c t} : Fits (.released c) ⟨.awaitTask, false, false, true, t⟩ (4 * c)
  | lastTest {c t} : Fits (.released c) ⟨.test, false, true, true, t⟩ (4 * c)
  | exited {c t} : Fits (.released c) ⟨.exited, false, true, true, t⟩ (4 * c)
  | gone {c t} : Fits (.gone c) ⟨.exited, false, true, true, t⟩ (4 * c)

/-! ## Events of one worker -/

section Events

variable {i n c : ℕ} {h : List Event} {e : Option Event}

@[simp] theorem cycle_reset : cycle i (4 * c) = .reset i := by
  simp [cycle]

@[simp] theorem cycle_install : cycle i (4 * c + 1) = .install i c := by
  have hmod : (4 * c + 1) % 4 = 1 := by omega
  have hdiv : (4 * c + 1) / 4 = c := by omega
  simp [cycle, hmod, hdiv]

@[simp] theorem cycle_start : cycle i (4 * c + 2) = .start i c := by
  have hmod : (4 * c + 2) % 4 = 2 := by omega
  have hdiv : (4 * c + 2) / 4 = c := by omega
  simp [cycle, hmod, hdiv]

@[simp] theorem cycle_finish : cycle i (4 * c + 3) = .finish i c := by
  have hmod : (4 * c + 3) % 4 = 3 := by omega
  have hdiv : (4 * c + 3) / 4 = c := by omega
  simp [cycle, hmod, hdiv]

theorem worker?_cycle : (cycle i n).worker? = some i := by
  rw [cycle]
  split <;> rfl

/-- **What a step shows of worker `i`**: its next event, or nothing. -/
def Shows (i n : ℕ) (e : Option Event) (n' : ℕ) : Prop :=
  e = some (cycle i n) ∧ n' = n + 1 ∨ (∀ x ∈ e, x.worker? ≠ some i) ∧ n' = n

theorem eventsOf_append {n' : ℕ} (hshows : Shows i n e n') (heq : eventsOf i h = cycles i n) :
    eventsOf i (h ++ e.toList) = cycles i n' := by
  rw [eventsOf, List.filter_append, ← eventsOf, heq]
  rcases hshows with ⟨rfl, rfl⟩ | ⟨hother, rfl⟩
  · rw [cycles, cycles, List.range_succ, List.map_append, Option.toList_some,
      List.filter_cons_of_pos (by simpa using worker?_cycle)]
    rfl
  · rw [List.filter_eq_nil_iff.mpr fun x hx => by simpa using hother x (by simpa using hx),
      List.append_nil]

end Events

/-! ## The steps -/

section Steps

variable {s s' : State} {e : Option Event} {threadsNum calls i n : ℕ}

/-- The condition of the workers' loop, read off where the caller is. -/
def CallerPc.running : CallerPc → Bool
  | release _ | join _ | done => false
  | _ => true

/-- **A step of a worker** keeps it within its phase, and shows its next event or none. -/
theorem fits_slotStep {p : Phase} {slot slot' : Slot} {keepRunning : Bool} (hfits : Fits p slot n)
    (hwork : ∀ c, p = .work c → keepRunning = true)
    (hreleased : ∀ c, p = .released c → keepRunning = false)
    (h : slot.step i keepRunning = some (slot', e)) :
    ∃ n', Fits p slot' n' ∧ Shows i n e n' := by
  have hnone : ∀ n, Shows i n none n := fun n => .inr ⟨by simp, rfl⟩
  cases hfits with
  | unborn hpc => simp [Slot.step, hpc] at h
  | lockFinished =>
    obtain ⟨rfl, rfl⟩ : _ = slot' ∧ _ = e := by simpa [Slot.step] using h
    exact ⟨0, .lockExecute, hnone 0⟩
  | lockExecute =>
    obtain ⟨rfl, rfl⟩ : _ = slot' ∧ _ = e := by simpa [Slot.step] using h
    exact ⟨0, .countDown, hnone 0⟩
  | countDown =>
    obtain ⟨rfl, rfl⟩ : _ = slot' ∧ _ = e := by simpa [Slot.step] using h
    exact ⟨0, .ready, hnone 0⟩
  | handed =>
    obtain ⟨rfl, rfl⟩ : _ = slot' ∧ _ = e := by simpa [Slot.step] using h
    exact ⟨_, .woken, hnone _⟩
  | @woken c =>
    obtain rfl := hwork c rfl
    obtain ⟨rfl, rfl⟩ : _ = slot' ∧ _ = e := by simpa [Slot.step] using h
    exact ⟨_, .execute, hnone _⟩
  | execute =>
    obtain ⟨rfl, rfl⟩ : _ = slot' ∧ _ = e := by simpa [Slot.step] using h
    exact ⟨_, .executing, .inl ⟨by rw [cycle_start], rfl⟩⟩
  | executing =>
    obtain ⟨rfl, rfl⟩ : _ = slot' ∧ _ = e := by simpa [Slot.step] using h
    exact ⟨_, .executed, .inl ⟨by rw [cycle_finish], rfl⟩⟩
  | executed =>
    obtain ⟨rfl, rfl⟩ : _ = slot' ∧ _ = e := by simpa [Slot.step] using h
    exact ⟨_, .finished, hnone _⟩
  | finished =>
    obtain ⟨rfl, rfl⟩ : _ = slot' ∧ _ = e := by simpa [Slot.step] using h
    exact ⟨_, .settable, hnone _⟩
  | leaving =>
    obtain ⟨rfl, rfl⟩ : _ = slot' ∧ _ = e := by simpa [Slot.step] using h
    exact ⟨_, .waiting, hnone _⟩
  | lastLeaving =>
    obtain ⟨rfl, rfl⟩ : _ = slot' ∧ _ = e := by simpa [Slot.step] using h
    exact ⟨_, .lastWaiting, hnone _⟩
  | lastWaiting =>
    obtain ⟨rfl, rfl⟩ : _ = slot' ∧ _ = e := by simpa [Slot.step] using h
    exact ⟨_, .lastTest, hnone _⟩
  | @lastTest c t =>
    obtain rfl := hreleased c rfl
    obtain ⟨rfl, rfl⟩ : _ = slot' ∧ _ = e := by simpa [Slot.step] using h
    exact ⟨_, .exited, hnone _⟩
  | _ => simp [Slot.step] at h

/-! ### What the caller does -/

/-- **A step of the caller on worker `k`**, to which `slot` belongs: where the caller is, what
becomes of the slot, where the caller is after it, and the event. -/
inductive Handles (threadsNum c k : ℕ) (slot : Slot) :
    CallerPc → Slot → CallerPc → Option Event → Prop where
  | create (hk : k < threadsNum) : Handles threadsNum c k slot
      (.create k) ⟨.lockFinished, false, false, false, none⟩ (.create (k + 1)) none
  | lockSet (hk : k < threadsNum) (hfree : slot.taskSet = false) : Handles threadsNum c k slot
      (.lockSet k) { slot with taskSet := true } (.reset k) none
  | reset : Handles threadsNum c k slot
      (.reset k) { slot with task := none } (.install k) (some (.reset k))
  | install : Handles threadsNum c k slot
      (.install k) { slot with task := some c } (.unlockExecute k) (some (.install k c))
  | unlockExecute : Handles threadsNum c k slot
      (.unlockExecute k) { slot with taskExecute := false } (.lockSet (k + 1)) none
  | lockFinished (hk : k < threadsNum) (hfree : slot.taskFinished = false) :
      Handles threadsNum c k slot
        (.lockFinished k) { slot with taskFinished := true } (.lockFinished (k + 1)) none
  | release (hk : k < threadsNum) : Handles threadsNum c k slot
      (.release k) { slot with taskExecute := false } (.join k) none

/-- **A step of the caller on no worker**, between its loops. -/
inductive Passes (threadsNum calls : ℕ) (s : State) : CallerPc → CallerPc → Prop where
  | created {k : ℕ} (hk : threadsNum ≤ k) : Passes threadsNum calls s (.create k) .awaitSetup
  | ready (hzero : s.counter = 0) : Passes threadsNum calls s .awaitSetup .idle
  | call (hcall : s.call < calls) : Passes threadsNum calls s .idle (.lockSet 0)
  | destroy (hcall : calls ≤ s.call) : Passes threadsNum calls s .idle .stop
  | handed {k : ℕ} (hk : threadsNum ≤ k) :
      Passes threadsNum calls s (.lockSet k) (.lockFinished 0)
  | joined {k : ℕ} (hexited : (s.slots k).pc = .exited) :
      Passes threadsNum calls s (.join k) (.release (k + 1))
  | released {k : ℕ} (hk : threadsNum ≤ k) : Passes threadsNum calls s (.release k) .done

/-- **What a step of the caller is.** -/
inductive CallerStep (threadsNum calls : ℕ) (s : State) : State → Option Event → Prop where
  | handles {k : ℕ} {slot : Slot} {target : CallerPc} {e : Option Event}
      (h : Handles threadsNum s.call k (s.slots k) s.caller slot target e) :
      CallerStep threadsNum calls s ((s.put k slot).goto target) e
  | passes {target : CallerPc} (h : Passes threadsNum calls s s.caller target) :
      CallerStep threadsNum calls s (s.goto target) none
  | returns {k : ℕ} (hc : s.caller = .lockFinished k) (hk : threadsNum ≤ k) :
      CallerStep threadsNum calls s { s.goto .idle with call := s.call + 1 }
        (some (.returned s.call))
  | stops (hc : s.caller = .stop) :
      CallerStep threadsNum calls s { s.goto (.release 0) with keepRunning := false }
        (some .stopped)

/-- The branches of `callerStep`. -/
theorem callerStep_cases (h : callerStep threadsNum calls s = some (s', e)) :
    CallerStep threadsNum calls s s' e := by
  cases hc : s.caller with
  | create k =>
    simp only [callerStep, hc] at h
    split at h <;> obtain ⟨rfl, rfl⟩ : _ = s' ∧ _ = e := by simpa using h
    · exact .handles (hc ▸ .create ‹_›)
    · exact .passes (hc ▸ .created (not_lt.mp ‹_›))
  | awaitSetup =>
    simp only [callerStep, hc, Option.ite_none_right_eq_some] at h
    obtain ⟨hzero, heq⟩ := h
    obtain ⟨rfl, rfl⟩ : _ = s' ∧ _ = e := by simpa using heq
    exact .passes (hc ▸ .ready hzero)
  | idle =>
    simp only [callerStep, hc] at h
    obtain ⟨rfl, rfl⟩ : _ = s' ∧ _ = e := by simpa using h
    split
    · exact .passes (hc ▸ .call ‹_›)
    · exact .passes (hc ▸ .destroy (not_lt.mp ‹_›))
  | lockSet k =>
    simp only [callerStep, hc] at h
    split at h
    · obtain ⟨hfree, heq⟩ := Option.ite_none_left_eq_some.mp h
      obtain ⟨rfl, rfl⟩ : _ = s' ∧ _ = e := by simpa using heq
      exact .handles (hc ▸ .lockSet ‹_› (by simpa using hfree))
    · obtain ⟨rfl, rfl⟩ : _ = s' ∧ _ = e := by simpa using h
      exact .passes (hc ▸ .handed (not_lt.mp ‹_›))
  | reset k | install k | unlockExecute k =>
    simp only [callerStep, hc] at h
    obtain ⟨rfl, rfl⟩ : _ = s' ∧ _ = e := by simpa using h
    exact .handles (hc ▸ by constructor)
  | lockFinished k =>
    simp only [callerStep, hc] at h
    split at h
    · obtain ⟨hfree, heq⟩ := Option.ite_none_left_eq_some.mp h
      obtain ⟨rfl, rfl⟩ : _ = s' ∧ _ = e := by simpa using heq
      exact .handles (hc ▸ .lockFinished ‹_› (by simpa using hfree))
    · obtain ⟨rfl, rfl⟩ : _ = s' ∧ _ = e := by simpa using h
      exact .returns hc (not_lt.mp ‹_›)
  | stop =>
    simp only [callerStep, hc] at h
    obtain ⟨rfl, rfl⟩ : _ = s' ∧ _ = e := by simpa using h
    exact .stops hc
  | release k =>
    simp only [callerStep, hc] at h
    split at h <;> obtain ⟨rfl, rfl⟩ : _ = s' ∧ _ = e := by simpa using h
    · exact .handles (hc ▸ .release ‹_›)
    · exact .passes (hc ▸ .released (not_lt.mp ‹_›))
  | join k =>
    simp only [callerStep, hc, Option.ite_none_right_eq_some] at h
    obtain ⟨hexited, heq⟩ := h
    obtain ⟨rfl, rfl⟩ : _ = s' ∧ _ = e := by simpa using heq
    exact .passes (hc ▸ .joined hexited)
  | done => exact absurd h (by simp [callerStep, hc])

section Handles

variable {c k : ℕ} {slot slot' : Slot} {source target : CallerPc}

/-- What a step on worker `k` shows is about that worker. -/
theorem Handles.worker? (h : Handles threadsNum c k slot source slot' target e) :
    ∀ x ∈ e, x.worker? = some k := by
  cases h with
  | reset | install => simp [Event.worker?]
  | _ => simp

/-- The others stay in their phases. -/
theorem Handles.phase_eq (h : Handles threadsNum c k slot source slot' target e) (hik : i ≠ k) :
    phase target c i = phase source c i := by
  have hnext : i < k + 1 ↔ i < k := by rw [Nat.lt_succ_iff_lt_or_eq, or_iff_left hik]
  cases h with
  | create | unlockExecute | lockFinished => simp only [phase, hnext, hik, if_false]
  | _ => simp only [phase, hik, if_false]

/-- The worker goes on to its next phase. -/
theorem Handles.fits (h : Handles threadsNum c k slot source slot' target e)
    (hfits : Fits (phase source c k) slot n) :
    ∃ n', Fits (phase target c k) slot' n' ∧ Shows k n e n' := by
  have hsame : ∀ n, Shows k n none n := fun n => .inr ⟨by simp, rfl⟩
  cases h with
  | create =>
    simp only [phase, lt_irrefl, Nat.lt_succ_self, if_false, if_true] at hfits ⊢
    cases hfits with
    | unborn => exact ⟨0, .lockFinished, hsame 0⟩
  | lockSet _ hfree =>
    simp only [phase, lt_irrefl, if_false, if_true] at hfits ⊢
    cases hfits with
    | waiting => exact ⟨_, .reset, hsame _⟩
    | leaving => cases hfree
  | reset =>
    simp only [phase, lt_irrefl, if_false, if_true] at hfits ⊢
    cases hfits with
    | reset => exact ⟨_, .install, .inl ⟨by rw [cycle_reset], rfl⟩⟩
  | install =>
    simp only [phase, lt_irrefl, if_false, if_true] at hfits ⊢
    cases hfits with
    | install => exact ⟨_, .unlock, .inl ⟨by rw [cycle_install], rfl⟩⟩
  | unlockExecute =>
    simp only [phase, lt_irrefl, Nat.lt_succ_self, if_false, if_true] at hfits ⊢
    cases hfits with
    | unlock => exact ⟨_, .handed, hsame _⟩
  | lockFinished _ hfree =>
    simp only [phase, lt_irrefl, Nat.lt_succ_self, if_false, if_true] at hfits ⊢
    cases hfits with
    | finished => exact ⟨_, .leaving, hsame _⟩
    | settable => exact ⟨_, .waiting, hsame _⟩
    | _ => cases hfree
  | release =>
    simp only [phase, lt_irrefl, if_false, if_true] at hfits ⊢
    cases hfits with
    | waiting => exact ⟨_, .lastWaiting, hsame _⟩
    | leaving => exact ⟨_, .lastLeaving, hsame _⟩

end Handles

/-- Between its loops the caller takes a worker on from `setup_threads`, and from the destructor. -/
theorem Passes.fits {source target : CallerPc} (h : Passes threadsNum calls s source target)
    (hi : i < threadsNum)
    (hready : source = .awaitSetup → s.counter = 0 →
      s.call = 0 ∧ s.slots i = ⟨.awaitTask, false, true, true, none⟩)
    (hfits : Fits (phase source s.call i) (s.slots i) n) :
    Fits (phase target s.call i) (s.slots i) n := by
  cases h with
  | created hk | released hk => rwa [phase, if_pos (hi.trans_le hk)] at hfits
  | ready hzero =>
    obtain ⟨hcall, hslot⟩ := hready rfl hzero
    rw [hslot] at hfits ⊢
    cases hfits with
    | ready => simpa [phase, hcall] using Fits.waiting (c := 0)
  | call | destroy => simpa [phase] using hfits
  | handed hk =>
    rw [phase, if_pos (hi.trans_le hk)] at hfits
    simpa [phase] using hfits
  | @joined k hexited =>
    rcases eq_or_ne i k with rfl | hik
    · simp only [phase, lt_irrefl, Nat.lt_succ_self, if_false, if_true] at hfits ⊢
      generalize s.slots i = slot at hfits hexited ⊢
      cases hfits with
      | exited => exact .gone
      | _ => cases hexited
    · have hnext : i < k + 1 ↔ i < k := by rw [Nat.lt_succ_iff_lt_or_eq, or_iff_left hik]
      simpa only [phase, hik, hnext, if_false] using hfits

/-- **A step of the caller** takes every worker to its next phase. -/
theorem fits_callerStep (hi : i < threadsNum)
    (hready : s.caller = .awaitSetup → s.counter = 0 →
      s.call = 0 ∧ s.slots i = ⟨.awaitTask, false, true, true, none⟩)
    (hfits : Fits (phase s.caller s.call i) (s.slots i) n)
    (h : callerStep threadsNum calls s = some (s', e)) :
    ∃ n', Fits (phase s'.caller s'.call i) (s'.slots i) n' ∧ Shows i n e n' := by
  cases callerStep_cases h with
  | @handles k slot target e hhandles =>
    rcases eq_or_ne i k with rfl | hik
    · simpa using hhandles.fits hfits
    · refine ⟨n, by simpa [hik, hhandles.phase_eq hik] using hfits, .inr ⟨fun x hx => ?_, rfl⟩⟩
      rw [hhandles.worker? x hx]
      exact fun heq => hik (Option.some_inj.mp heq).symm
  | passes hpasses => exact ⟨n, hpasses.fits hi hready hfits, .inr ⟨by simp, rfl⟩⟩
  | returns hc hk =>
    rw [hc, phase, if_pos (hi.trans_le hk)] at hfits
    exact ⟨n, hfits, .inr ⟨by simp [Event.worker?], rfl⟩⟩
  | stops hc =>
    rw [hc] at hfits
    exact ⟨n, by simpa [phase] using hfits, .inr ⟨by simp [Event.worker?], rfl⟩⟩

end Steps

end Tva.Service.Handoff
