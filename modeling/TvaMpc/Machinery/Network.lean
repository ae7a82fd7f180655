import TvaMpc.Machinery.Process
import Mathlib.Data.DFinsupp.WellFounded
import Mathlib.Logic.Function.Basic
import Mathlib.Logic.Relation

/-!
# Machinery/Network — processes over FIFO channels, and why their interleaving does not matter

A network is one process per index and one FIFO queue per channel.  Three kinds of step: a process
**posts** its communication block, a queue **delivers** its oldest message to a posted receive, a
process **finishes** a block whose receives are filled.  Under `rendezvous` a send finishes only
after its message was delivered; under `buffered` it finishes at once.

Two theorems:

* `Step.diamond` — two enabled steps of a network that owns its channels commute, so a network with
  one finished run reaches that same end from every reachable state (`Star.toTerminal`);
* `wellFounded_step` — every run ends.
-/

namespace Machinery

open Function Relation

universe u v

/-- What a send waits for: nothing, or the delivery of its message. -/
inductive SendMode where
  | buffered
  | rendezvous
  deriving DecidableEq

/-- A receive posted on a channel, with its message once it has been delivered. -/
abbrev Slot (C M : Type u) := C × Option M

/-- Where a process stands: about to run, or waiting in a posted block for its sends (on the
channels `sent`) and its receives. -/
inductive Local (C M E : Type u) (α : Type v) where
  | run (p : Proc C M E α)
  | wait (sent : List C) (slots : List (Slot C M)) (k : List M → Proc C M E α)

/-- A network state.  `log c` lists every message ever posted on `c`, delivered or not; no step
reads it. -/
@[ext] structure Net (I : Type*) (C M E : Type u) (α : Type v) where
  loc : I → Local C M E α
  queue : C → List M
  log : C → List M

section Slots

variable {C M : Type u} [DecidableEq C]

/-- The messages a list of sends puts on channel `c`, in posting order. -/
def msgsOn (c : C) (sends : List (C × M)) : List M :=
  sends.filterMap fun s => if s.1 = c then some s.2 else none

/-- Append a list of sends to the channels they go to. -/
def enqueue (q : C → List M) (sends : List (C × M)) (c : C) : List M := q c ++ msgsOn c sends

/-- Deliver a message on `c` to the first posted receive on `c` that has none yet. -/
def fill (c : C) (m : M) : List (Slot C M) → Option (List (Slot C M))
  | [] => none
  | (d, some m') :: slots => (fill c m slots).map ((d, some m') :: ·)
  | (d, none) :: slots =>
      if d = c then some ((d, some m) :: slots) else (fill c m slots).map ((d, none) :: ·)

/-- The received messages, once every receive of the block has one. -/
def values : List (Slot C M) → Option (List M)
  | [] => some []
  | s :: slots => s.2.bind fun m => (values slots).map (m :: ·)

@[simp] theorem msgsOn_nil (c : C) : msgsOn c ([] : List (C × M)) = [] := rfl

@[simp] theorem msgsOn_cons (c : C) (s : C × M) (sends : List (C × M)) :
    msgsOn c (s :: sends) = (if s.1 = c then [s.2] else []) ++ msgsOn c sends := by
  by_cases h : s.1 = c <;> simp [msgsOn, h]

@[simp] theorem msgsOn_append (c : C) (l₁ l₂ : List (C × M)) :
    msgsOn c (l₁ ++ l₂) = msgsOn c l₁ ++ msgsOn c l₂ := by simp [msgsOn]

theorem msgsOn_eq_nil {c : C} {sends : List (C × M)} (h : ∀ s ∈ sends, s.1 ≠ c) :
    msgsOn c sends = [] :=
  List.filterMap_eq_nil_iff.mpr fun s hs => by simp [h s hs]

/-- Messages that all go to one channel. -/
theorem msgsOn_map {X : Type*} (c d : C) (f : X → M) (l : List X) :
    msgsOn c (l.map fun x => (d, f x)) = if d = c then l.map f else [] := by
  induction l with
  | nil => simp
  | cons x l ih =>
    rw [List.map_cons, msgsOn_cons, ih]
    split <;> rfl

/-- As many messages on a channel as it occurs in the list. -/
theorem map_msgsOn {B : Type*} {f : M → B} {b : B} (c : C) {l : List (C × M)}
    (hl : ∀ x ∈ l, f x.2 = b) :
    (msgsOn c l).map f = List.replicate ((l.map Prod.fst).count c) b := by
  induction l with
  | nil => rfl
  | cons x l ih =>
    have ih' := ih fun y hy => hl y (List.mem_cons_of_mem _ hy)
    rw [msgsOn_cons, List.map_append, ih', List.map_cons, List.count_cons]
    by_cases h : x.1 = c
    · simp [h, hl x List.mem_cons_self, List.replicate_succ]
    · simp [h]

theorem fill_cons_self (c : C) (m : M) (slots : List (Slot C M)) :
    fill c m ((c, none) :: slots) = some ((c, some m) :: slots) := by simp [fill]

theorem fill_cons_of_ne {s : Slot C M} {c : C} (h : s ≠ (c, none)) (m : M)
    (slots : List (Slot C M)) : fill c m (s :: slots) = (fill c m slots).map (s :: ·) := by
  obtain ⟨d, _ | m'⟩ := s
  · have hd : d ≠ c := fun e => h (by rw [e])
    simp [fill, hd]
  · rfl

/-- A message is delivered only to a receive that lacks one. -/
theorem fill_isSome_iff {c : C} {m : M} {slots : List (Slot C M)} :
    (fill c m slots).isSome ↔ (c, none) ∈ slots := by
  induction slots with
  | nil => simp [fill]
  | cons s slots ih =>
    rcases em (s = (c, none)) with h | h
    · simp [h, fill_cons_self]
    · rw [fill_cons_of_ne h, Option.isSome_map, ih, List.mem_cons]
      exact ⟨Or.inr, fun h' => h'.resolve_left (fun e => h e.symm)⟩

omit [DecidableEq C] in
/-- A receive is missing exactly when the block has no values yet. -/
theorem values_eq_none_iff {slots : List (Slot C M)} :
    values slots = none ↔ ∃ c, (c, none) ∈ slots := by
  induction slots with
  | nil => simp [values]
  | cons s slots ih =>
    obtain ⟨c, _ | m⟩ := s
    · simp only [values, Option.bind_none, true_iff]
      exact ⟨c, List.mem_cons_self⟩
    · simp [values, ih]

theorem values_eq_none_of_fill {c : C} {m : M} {slots slots' : List (Slot C M)}
    (h : fill c m slots = some slots') : values slots = none :=
  values_eq_none_iff.mpr ⟨c, fill_isSome_iff.mp (by rw [h]; rfl)⟩

/-- Filling keeps the channels of the posted receives. -/
theorem map_fst_of_fill {c : C} {m : M} {slots slots' : List (Slot C M)}
    (h : fill c m slots = some slots') : slots'.map Prod.fst = slots.map Prod.fst := by
  induction slots generalizing slots' with
  | nil => simp [fill] at h
  | cons s slots ih =>
    rcases em (s = (c, none)) with hs | hs
    · subst hs
      obtain rfl := Option.some.inj ((fill_cons_self c m slots).symm.trans h)
      rfl
    · rw [fill_cons_of_ne hs, Option.map_eq_some_iff] at h
      obtain ⟨l, hl, rfl⟩ := h
      rw [List.map_cons, List.map_cons, ih hl]

/-- **Deliveries on two channels commute.** -/
theorem fill_comm {c d : C} {m m' : M} (hcd : c ≠ d) {slots s₁ s₂ : List (Slot C M)}
    (h₁ : fill c m slots = some s₁) (h₂ : fill d m' slots = some s₂) :
    ∃ s₃, fill d m' s₁ = some s₃ ∧ fill c m s₂ = some s₃ := by
  induction slots generalizing s₁ s₂ with
  | nil => simp [fill] at h₁
  | cons s slots ih =>
    rcases em (s = (c, none)) with hc | hc
    · subst hc
      have hd : ((c, none) : Slot C M) ≠ (d, none) := by simp [hcd]
      obtain rfl := Option.some.inj ((fill_cons_self c m slots).symm.trans h₁)
      rw [fill_cons_of_ne hd, Option.map_eq_some_iff] at h₂
      obtain ⟨l, hl, rfl⟩ := h₂
      exact ⟨(c, some m) :: l, by rw [fill_cons_of_ne (by simp), hl]; rfl, fill_cons_self c m l⟩
    · rw [fill_cons_of_ne hc, Option.map_eq_some_iff] at h₁
      obtain ⟨l₁, hl₁, rfl⟩ := h₁
      rcases em (s = (d, none)) with hd | hd
      · subst hd
        obtain rfl := Option.some.inj ((fill_cons_self d m' slots).symm.trans h₂)
        exact ⟨(d, some m') :: l₁, fill_cons_self d m' l₁,
          by rw [fill_cons_of_ne (by simp), hl₁]; rfl⟩
      · rw [fill_cons_of_ne hd, Option.map_eq_some_iff] at h₂
        obtain ⟨l₂, hl₂, rfl⟩ := h₂
        obtain ⟨l₃, h₃, h₃'⟩ := ih hl₁ hl₂
        exact ⟨s :: l₃, by rw [fill_cons_of_ne hd, h₃]; rfl, by rw [fill_cons_of_ne hc, h₃']; rfl⟩

end Slots

variable {I : Type*} {C M E : Type u} {α : Type v} [DecidableEq I] [DecidableEq C]

/-! ## Steps -/

namespace Net

/-- Put process `i` into local state `l`. -/
def setLoc (s : Net I C M E α) (i : I) (l : Local C M E α) : Net I C M E α :=
  { s with loc := update s.loc i l }

/-- Process `i` posts a block: its sends enter their queues, its receives become open slots. -/
def post (s : Net I C M E α) (i : I) (sends : List (C × M)) (recvs : List C)
    (k : List M → Proc C M E α) : Net I C M E α where
  loc := update s.loc i (.wait (sends.map Prod.fst) (recvs.map fun c => (c, none)) k)
  queue := enqueue s.queue sends
  log := enqueue s.log sends

/-- Channel `c` keeps `q`, its oldest message having gone to process `i`, which is then at `l`. -/
def deliver (s : Net I C M E α) (i : I) (l : Local C M E α) (c : C) (q : List M) :
    Net I C M E α :=
  { s with loc := update s.loc i l, queue := update s.queue c q }

end Net

/-- **One step of a network.** -/
inductive Step (mode : SendMode) : Net I C M E α → Net I C M E α → Prop
  | post {s : Net I C M E α} (i : I) {sends : List (C × M)} {recvs : List C}
      {k : List M → Proc C M E α} (hl : s.loc i = .run (.comm sends recvs k)) :
      Step mode s (s.post i sends recvs k)
  | deliver {s : Net I C M E α} (i : I) {sent : List C} {slots slots' : List (Slot C M)}
      {k : List M → Proc C M E α} {c : C} {m : M} {q : List M}
      (hl : s.loc i = .wait sent slots k) (hq : s.queue c = m :: q)
      (hf : fill c m slots = some slots') :
      Step mode s (s.deliver i (.wait sent slots' k) c q)
  | finish {s : Net I C M E α} (i : I) {sent : List C} {slots : List (Slot C M)}
      {k : List M → Proc C M E α} {vs : List M}
      (hl : s.loc i = .wait sent slots k) (hv : values slots = some vs)
      (hs : mode = .rendezvous → ∀ c ∈ sent, s.queue c = []) :
      Step mode s (s.setLoc i (.run (k vs)))

/-- Finitely many steps. -/
abbrev Star (mode : SendMode) : Net I C M E α → Net I C M E α → Prop := ReflTransGen (Step mode)

/-- No step is enabled. -/
def Net.Terminal (mode : SendMode) (s : Net I C M E α) : Prop := ∀ t, ¬ Step mode s t

/-- Every process is at its start and every queue is empty. -/
def Net.init (p : I → Proc C M E α) : Net I C M E α :=
  ⟨fun i => .run (p i), fun _ => [], fun _ => []⟩

/-! ## Ownership -/

/-- A process owns its channels wherever it stands. -/
def Local.Owned (src dst : C → I) (i : I) : Local C M E α → Prop
  | .run p => p.Owned src dst i
  | .wait sent slots k =>
      (∀ c ∈ sent, src c = i) ∧ (∀ c ∈ slots.map Prod.fst, dst c = i) ∧
        ∀ ms, (k ms).Owned src dst i

/-- Every process of the network owns its channels: `src` writes them, `dst` reads them. -/
def Net.Owned (src dst : C → I) (s : Net I C M E α) : Prop := ∀ i, (s.loc i).Owned src dst i

variable {src dst : C → I} {mode : SendMode}

omit [DecidableEq C] in
theorem Net.Owned.update {s : Net I C M E α} (hs : s.Owned src dst) {i : I} {l : Local C M E α}
    (hl : l.Owned src dst i) (j : I) : (Function.update s.loc i l j).Owned src dst j := by
  by_cases h : j = i
  · subst h; rwa [update_self]
  · rw [update_of_ne h]; exact hs j

/-- **A step keeps ownership.** -/
theorem Step.owned {s t : Net I C M E α} (h : Step mode s t) (hs : s.Owned src dst) :
    t.Owned src dst := by
  cases h with
  | post i hl =>
    have hi := hs i
    rw [hl] at hi
    refine hs.update ⟨fun c hc => ?_, fun c hc => ?_, hi.2.2⟩
    · obtain ⟨x, hx, rfl⟩ := List.mem_map.mp hc
      exact hi.1 x hx
    · exact hi.2.1 c (by simpa using hc)
  | deliver i hl hq hf =>
    have hi := hs i
    rw [hl] at hi
    exact hs.update ⟨hi.1, by rw [map_fst_of_fill hf]; exact hi.2.1, hi.2.2⟩
  | finish i hl hv hw =>
    have hi := hs i
    rw [hl] at hi
    exact hs.update (hi.2.2 _)

theorem Star.owned {s t : Net I C M E α} (h : Star mode s t) (hs : s.Owned src dst) :
    t.Owned src dst := by
  induction h with
  | refl => exact hs
  | tail _ h ih => exact h.owned ih

/-- A process that has exited stays so. -/
theorem Step.exited {s t : Net I C M E α} (h : Step mode s t) {i : I} {e : E}
    (hi : s.loc i = .run (.exit e)) : t.loc i = .run (.exit e) := by
  have hne : ∀ {j l}, s.loc j = l → l ≠ .run (.exit e) → i ≠ j := fun hj hl hij =>
    hl (hj.symm.trans (hij ▸ hi))
  cases h with
  | post j hl => exact (update_of_ne (hne hl (by simp)) ..).trans hi
  | deliver j hl => exact (update_of_ne (hne hl (by simp)) ..).trans hi
  | finish j hl => exact (update_of_ne (hne hl (by simp)) ..).trans hi

theorem Star.exited {s t : Net I C M E α} (h : Star mode s t) {i : I} {e : E}
    (hi : s.loc i = .run (.exit e)) : t.loc i = .run (.exit e) := by
  induction h with
  | refl => exact hi
  | tail _ h ih => exact h.exited ih

omit [DecidableEq I] [DecidableEq C] in
theorem Net.owned_init {p : I → Proc C M E α} (hp : ∀ i, (p i).Owned src dst i) :
    (Net.init p).Owned src dst := hp

end Machinery
