import TvaMpc.Machinery.Confluence
import Mathlib.Data.Fintype.Basic

/-!
# Machinery/Joint — finished runs of all processes together

`Runs mode p a h`: started with empty queues, the processes `p` can all return, process `i` with
`a i`, leaving every queue empty after the messages `h` went through the channels.  By confluence
this one run speaks for every interleaving (`Runs.eq_of_terminal`).

Finished runs compose along `bind` (`Runs.bind`), so the run of a whole program is assembled from
the runs of its operations.  The two building blocks are the **round**, in which every process sends
one message and receives one, and the **transfer** from one process to another.
-/

namespace Machinery

open Function Relation

universe u v

variable {I : Type*} {C M E : Type u} {α β : Type v} [DecidableEq I] [DecidableEq C]
variable {src dst : C → I} {mode : SendMode}

/-- All processes have returned and every queue is empty. -/
def Net.returned (a : I → α) (h : C → List M) : Net I C M E α :=
  ⟨fun i => .run (.ret (a i)), fun _ => [], h⟩

/-- **The processes `p` can run to their ends together**, returning `a` and having sent `h`. -/
def Runs (mode : SendMode) (p : I → Proc C M E α) (a : I → α) (h : C → List M) : Prop :=
  Star mode (Net.init p) (Net.returned a h)

theorem Net.terminal_returned (a : I → α) (h : C → List M) :
    (Net.returned (E := E) a h).Terminal mode := by
  intro t ht
  cases ht with
  | post i hl => cases hl
  | deliver i hl => cases hl
  | finish i hl => cases hl

/-! ## One finished run speaks for all -/

/-- **Every terminal state is the finished one.** -/
theorem Runs.eq_of_terminal {p : I → Proc C M E α} {a : I → α} {h : C → List M}
    (hr : Runs mode p a h) (hp : ∀ i, (p i).Owned src dst i) {s : Net I C M E α}
    (hs : Star mode (Net.init p) s) (ht : s.Terminal mode) : s = Net.returned a h :=
  Star.terminal_unique (Net.owned_init hp) ht (Net.terminal_returned a h) hs hr

omit [DecidableEq I] [DecidableEq C] in
theorem Net.returned_inj {a a' : I → α} {h h' : C → List M}
    (he : (Net.returned a h : Net I C M E α) = Net.returned a' h') : a = a' ∧ h = h' :=
  ⟨funext fun i => Proc.ret.inj (Local.run.inj (congrFun (congrArg Net.loc he) i)),
    congrArg Net.log he⟩

/-- **What the processes return, and what they send, does not depend on the interleaving.** -/
theorem Runs.unique {p : I → Proc C M E α} {a a' : I → α} {h h' : C → List M}
    (hr : Runs mode p a h) (hr' : Runs mode p a' h') (hp : ∀ i, (p i).Owned src dst i) :
    a = a' ∧ h = h' :=
  Net.returned_inj (hr'.eq_of_terminal hp hr (Net.terminal_returned a h))

/-! ## Composition -/

/-- Continue with `f` where the process returns. -/
def Local.bind (l : Local C M E α) (f : α → Proc C M E β) : Local C M E β :=
  match l with
  | .run p => .run (p >>= f)
  | .wait sent slots k => .wait sent slots fun ms => k ms >>= f

/-- The same network with each process continued by `f` and `h₀` sent before. -/
def Net.bind (s : Net I C M E α) (f : I → α → Proc C M E β) (h₀ : C → List M) : Net I C M E β :=
  ⟨fun i => (s.loc i).bind (f i), s.queue, fun c => h₀ c ++ s.log c⟩

omit [DecidableEq C] in
theorem Net.loc_bind_update {s : Net I C M E α} {f : I → α → Proc C M E β} {i : I}
    {l : Local C M E α} : (fun j => (update s.loc i l j).bind (f j))
      = update (fun j => (s.loc j).bind (f j)) i (l.bind (f i)) := by
  funext j
  by_cases h : j = i
  · subst h; rw [update_self, update_self]
  · rw [update_of_ne h, update_of_ne h]

theorem Step.bind {s t : Net I C M E α} (h : Step mode s t) (f : I → α → Proc C M E β)
    (h₀ : C → List M) : Step mode (s.bind f h₀) (t.bind f h₀) := by
  cases h with
  | @post i sends recvs k hl =>
    have heq : (s.post i sends recvs k).bind f h₀
        = (s.bind f h₀).post i sends recvs fun ms => k ms >>= f i :=
      Net.ext Net.loc_bind_update rfl (funext fun c => (List.append_assoc ..).symm)
    rw [heq]
    exact .post i (congrArg (Local.bind · (f i)) hl)
  | @deliver i sent slots slots' k c m q hl hq hf =>
    have heq : (s.deliver i (.wait sent slots' k) c q).bind f h₀
        = (s.bind f h₀).deliver i (.wait sent slots' fun ms => k ms >>= f i) c q :=
      Net.ext Net.loc_bind_update rfl rfl
    rw [heq]
    exact .deliver i (congrArg (Local.bind · (f i)) hl) hq hf
  | @finish i sent slots k vs hl hv hs =>
    have heq : (s.setLoc i (.run (k vs))).bind f h₀
        = (s.bind f h₀).setLoc i (.run (k vs >>= f i)) := Net.ext Net.loc_bind_update rfl rfl
    rw [heq]
    exact .finish (k := fun ms => k ms >>= f i) i (congrArg (Local.bind · (f i)) hl) hv hs

theorem Star.bind {s t : Net I C M E α} (h : Star mode s t) (f : I → α → Proc C M E β)
    (h₀ : C → List M) : Star mode (s.bind f h₀) (t.bind f h₀) := by
  induction h with
  | refl => exact .refl
  | tail _ h ih => exact ih.tail (h.bind f h₀)

theorem Runs.ret (a : I → α) : Runs mode (fun i => (.ret (a i) : Proc C M E α)) a fun _ => [] :=
  .refl

/-- **Finished runs compose**: run everything before the bind, then everything after it. -/
theorem Runs.bind {p : I → Proc C M E α} {f : I → α → Proc C M E β} {a : I → α} {b : I → β}
    {h h' : C → List M} (hp : Runs mode p a h) (hf : Runs mode (fun i => f i (a i)) b h') :
    Runs mode (fun i => p i >>= f i) b fun c => h c ++ h' c := by
  have h₁ : Star mode (Net.init fun i => p i >>= f i) ((Net.returned a h).bind f fun _ => []) :=
    Star.bind hp f fun _ => []
  have h₂ := Star.bind hf (fun _ => Proc.ret) h
  have hmid : (Net.returned a h : Net I C M E α).bind f (fun _ => [])
      = (Net.init fun i => f i (a i)).bind (fun _ => Proc.ret) h := by
    simp [Net.bind, Net.returned, Net.init, Local.bind, Proc.bind_ret]
  have hend : (Net.returned b h' : Net I C M E β).bind (fun _ => Proc.ret) h
      = Net.returned b fun c => h c ++ h' c := rfl
  rw [hmid] at h₁
  rw [hend] at h₂
  exact h₁.trans h₂

/-- Where nothing is enabled is not a question of what was sent. -/
theorem Net.Terminal.of_log {s : Net I C M E α} (ht : s.Terminal mode) (h : C → List M) :
    (⟨s.loc, s.queue, h⟩ : Net I C M E α).Terminal mode := by
  intro t hstep
  cases hstep with
  | post i hl => exact ht _ (.post i hl)
  | deliver i hl hq hf => exact ht _ (.deliver (s := s) i hl hq hf)
  | finish i hl hv hw => exact ht _ (.finish (s := s) i hl hv hw)

/-- **After a finished run** all depends on the rest: where the whole ends, the rest ends. -/
theorem Runs.terminal_bind [Finite I] {p : I → Proc C M E α} {f : I → α → Proc C M E β} {a : I → α}
    {h : C → List M} {s : Net I C M E β} (hr : Runs mode p a h)
    (ho : ∀ i, (p i >>= f i).Owned src dst i) (hs : Star mode (Net.init fun i => p i >>= f i) s)
    (ht : s.Terminal mode) : ∃ t, Star mode (Net.init fun i => f i (a i)) t ∧ t.Terminal mode ∧
      s = ⟨t.loc, t.queue, fun c => h c ++ t.log c⟩ := by
  obtain ⟨t, hst, htt⟩ := exists_terminal mode (Net.init fun i => f i (a i))
  have h₁ : Star mode (Net.init fun i => p i >>= f i) ((Net.returned a h).bind f fun _ => []) :=
    Star.bind hr f fun _ => []
  have h₂ := Star.bind hst (fun _ => Proc.ret) h
  have hret : ∀ (u : Net I C M E β), u.bind (fun _ => Proc.ret) h
      = ⟨u.loc, u.queue, fun d => h d ++ u.log d⟩ := by
    intro u
    have hloc : ∀ l : Local C M E β, l.bind Proc.ret = l := fun l => by
      cases l <;> simp [Local.bind, Proc.bind_ret]
    simp [Net.bind, hloc]
  rw [hret, hret] at h₂
  have hmid : (Net.returned a h : Net I C M E α).bind f (fun _ => [])
      = ⟨fun i => .run (f i (a i)), fun _ => [], fun d => h d ++ []⟩ := by
    simp [Net.bind, Net.returned, Local.bind]
  rw [hmid] at h₁
  exact ⟨t, hst, htt, Star.terminal_unique (Net.owned_init ho) ht (htt.of_log _) hs (h₁.trans h₂)⟩

/-- If the whole finishes, so does the rest. -/
theorem Runs.of_bind [Finite I] {p : I → Proc C M E α} {f : I → α → Proc C M E β} {a : I → α}
    {b : I → β} {h k : C → List M} (hr : Runs mode p a h)
    (ho : ∀ i, (p i >>= f i).Owned src dst i) (hb : Runs mode (fun i => p i >>= f i) b k) :
    ∃ k', Runs mode (fun i => f i (a i)) b k' := by
  obtain ⟨t, hst, -, heq⟩ := hr.terminal_bind ho hb (Net.terminal_returned b k)
  have hloc : (Net.returned b k : Net I C M E β).loc = t.loc := by rw [heq]
  have hqueue : (Net.returned b k : Net I C M E β).queue = t.queue := by rw [heq]
  refine ⟨t.log, ?_⟩
  rwa [Runs, show Net.returned b t.log = t from Net.ext hloc hqueue rfl]

/-- Who exits at once does not return. -/
theorem not_runs_of_exit {p : I → Proc C M E α} {a : I → α} {h : C → List M} {i : I} {e : E}
    (hp : p i = .exit e) : ¬Runs mode p a h := fun hr => by
  have hend := Star.exited hr (i := i) (e := e) (congrArg _ hp)
  cases hend

/-! ## A round

Every process `i` sends `m i` on `snd i` and receives what its partner `π i` sent. -/

section Round

variable {snd : I → C} {π : I → I} {m : I → M} {k : I → List M → Proc C M E α}

/-- The messages a round sends. -/
def roundLog (src : C → I) (snd : I → C) (m : I → M) (c : C) : List M :=
  if snd (src c) = c then [m (src c)] else []

/-- The state of a round in which `P` have posted, `D` have been delivered to and `F` are done. -/
private def roundNet (src dst : C → I) (snd : I → C) (π : I → I) (m : I → M)
    (k : I → List M → Proc C M E α) (P D F : Finset I) : Net I C M E α where
  loc i :=
    if i ∈ F then .run (k i [m (π i)])
    else if i ∈ P then .wait [snd i] [(snd (π i), if i ∈ D then some (m (π i)) else none)] (k i)
    else .run (.comm [(snd i, m i)] [snd (π i)] (k i))
  queue c := if snd (src c) = c ∧ src c ∈ P ∧ dst c ∉ D then [m (src c)] else []
  log c := if snd (src c) = c ∧ src c ∈ P then [m (src c)] else []

variable (hsrc : ∀ i, src (snd i) = i) (hdst : ∀ i, dst (snd (π i)) = i)
include hsrc

omit [DecidableEq I] [DecidableEq C] in
/-- A channel of the round is its source's. -/
private theorem snd_src_eq_iff {i : I} {c : C} : snd (src c) = c ∧ src c = i ↔ c = snd i := by
  constructor
  · rintro ⟨h, rfl⟩; exact h.symm
  · rintro rfl; rw [hsrc]; exact ⟨rfl, rfl⟩

private theorem round_post {P : Finset I} {i : I} (hi : i ∉ P) :
    Step mode (roundNet src dst snd π m k P ∅ ∅) (roundNet src dst snd π m k (insert i P) ∅ ∅) := by
  have hmsgs : ∀ c, (if snd (src c) = c ∧ src c ∈ insert i P then [m (src c)] else [])
      = (if snd (src c) = c ∧ src c ∈ P then [m (src c)] else []) ++ msgsOn c [(snd i, m i)] := by
    intro c
    by_cases hc : snd i = c
    · subst hc; simp [hsrc, hi]
    · have hne : ¬ (snd (src c) = c ∧ src c = i) := fun h => hc ((snd_src_eq_iff hsrc).mp h).symm
      have hiff : (snd (src c) = c ∧ src c ∈ insert i P) ↔ (snd (src c) = c ∧ src c ∈ P) := by
        rw [Finset.mem_insert, and_or_left, or_iff_right hne]
      rw [msgsOn_eq_nil (by simpa using hc), List.append_nil]
      exact if_congr hiff rfl rfl
  have heq : roundNet src dst snd π m k (insert i P) ∅ ∅
      = (roundNet src dst snd π m k P ∅ ∅).post i [(snd i, m i)] [snd (π i)] (k i) := by
    refine Net.ext (funext fun j => ?_) (funext fun c => ?_) (funext fun c => ?_)
    · by_cases hj : j = i
      · subst hj; simp [roundNet, Net.post]
      · simp [roundNet, Net.post, hj]
    · simpa [roundNet, Net.post, enqueue] using hmsgs c
    · simpa [roundNet, Net.post, enqueue] using hmsgs c
  rw [heq]
  exact .post i (by simp [roundNet, hi])

variable [Fintype I]
include hdst

private theorem round_deliver {D : Finset I} {i : I} (hi : i ∉ D) :
    Step mode (roundNet src dst snd π m k .univ D ∅)
      (roundNet src dst snd π m k .univ (insert i D) ∅) := by
  have hinj : Injective π := fun a b h =>
    (hdst a).symm.trans ((congrArg (dst ∘ snd) h).trans (hdst b))
  have hne : ∀ c, c ≠ snd (π i) → snd (src c) = c → dst c ≠ i := by
    rintro c hc hs rfl
    obtain ⟨j, hj⟩ := Finite.surjective_of_injective hinj (src c)
    have hcj : c = snd (π j) := by rw [hj, hs]
    exact hc (by rw [hcj, hdst])
  have heq : roundNet src dst snd π m k .univ (insert i D) ∅
      = (roundNet src dst snd π m k .univ D ∅).deliver i
        (.wait [snd i] [(snd (π i), some (m (π i)))] (k i)) (snd (π i)) [] := by
    refine Net.ext (funext fun j => ?_) (funext fun c => ?_) rfl
    · by_cases hj : j = i
      · subst hj; simp [roundNet, Net.deliver]
      · simp [roundNet, Net.deliver, hj]
    · by_cases hc : c = snd (π i)
      · subst hc; simp [roundNet, Net.deliver, hdst]
      · have hd : (snd (src c) = c ∧ dst c ∉ insert i D) ↔ (snd (src c) = c ∧ dst c ∉ D) :=
          and_congr_right fun hs => by simp [hne c hc hs]
        simpa [roundNet, Net.deliver, hc] using if_congr hd rfl rfl
  rw [heq]
  exact .deliver i (by simp [roundNet, hi]) (m := m (π i)) (by simp [roundNet, hsrc, hdst, hi])
    (fill_cons_self ..)

omit hsrc hdst in
private theorem round_finish {F : Finset I} {i : I} (hi : i ∉ F) :
    Step mode (roundNet src dst snd π m k .univ .univ F)
      (roundNet src dst snd π m k .univ .univ (insert i F)) := by
  have heq : roundNet src dst snd π m k .univ .univ (insert i F)
      = (roundNet src dst snd π m k .univ .univ F).setLoc i (.run (k i [m (π i)])) := by
    refine Net.ext (funext fun j => ?_) rfl rfl
    by_cases hj : j = i
    · subst hj; simp [roundNet, Net.setLoc]
    · simp [roundNet, Net.setLoc, hj]
  have hl : (roundNet src dst snd π m k .univ .univ F).loc i
      = .wait [snd i] [(snd (π i), some (m (π i)))] (k i) := by simp [roundNet, hi]
  rw [heq]
  exact .finish i hl rfl fun _ c _ => by simp [roundNet]

/-- **A round**: every process sends once and receives once, and goes on with what it received. -/
theorem Star.round : Star mode
    (Net.init fun i => .comm [(snd i, m i)] [snd (π i)] (k i))
    ⟨fun i => .run (k i [m (π i)]), fun _ => [], roundLog src snd m⟩ := by
  have hpost : ∀ P : Finset I, Star mode (roundNet src dst snd π m k ∅ ∅ ∅)
      (roundNet src dst snd π m k P ∅ ∅) := by
    intro P
    induction P using Finset.induction_on with
    | empty => exact .refl
    | insert i P hi ih => exact ih.tail (round_post hsrc hi)
  have hdeliver : ∀ D : Finset I, Star mode (roundNet src dst snd π m k .univ ∅ ∅)
      (roundNet src dst snd π m k .univ D ∅) := by
    intro D
    induction D using Finset.induction_on with
    | empty => exact .refl
    | insert i D hi ih => exact ih.tail (round_deliver hsrc hdst hi)
  have hfinish : ∀ F : Finset I, Star mode (roundNet src dst snd π m k .univ .univ ∅)
      (roundNet src dst snd π m k .univ .univ F) := by
    intro F
    induction F using Finset.induction_on with
    | empty => exact .refl
    | insert i F hi ih => exact ih.tail (round_finish hi)
  have h := ((hpost .univ).trans (hdeliver .univ)).trans (hfinish .univ)
  have hstart : roundNet src dst snd π m k ∅ ∅ ∅
      = Net.init fun i => .comm [(snd i, m i)] [snd (π i)] (k i) := by
    simp [roundNet, Net.init]
  have hend : roundNet src dst snd π m k .univ .univ .univ
      = ⟨fun i => .run (k i [m (π i)]), fun _ => [], roundLog src snd m⟩ := by
    simp only [roundNet, Finset.mem_univ, not_true_eq_false, and_true, and_false, if_true, if_false]
    rfl
  rwa [hstart, hend] at h

variable (src dst snd π m k) in
/-- **A round, and then the rest.** -/
theorem Runs.round {a : I → α} {h : C → List M}
    (hk : Runs mode (fun i => k i [m (π i)]) a h) :
    Runs mode (fun i => .comm [(snd i, m i)] [snd (π i)] (k i)) a
      fun c => roundLog src snd m c ++ h c := by
  have h₁ : Star mode (Net.init fun i => .comm [(snd i, m i)] [snd (π i)] (k i))
      ⟨fun i => .run (k i [m (π i)]), fun _ => [], roundLog src snd m⟩ := Star.round hsrc hdst
  have h₂ := Star.bind hk (fun _ => Proc.ret) (roundLog src snd m)
  have hmid : (Net.init fun i => k i [m (π i)]).bind (fun _ => Proc.ret) (roundLog src snd m)
      = ⟨fun i => .run (k i [m (π i)]), fun _ => [], roundLog src snd m⟩ := by
    simp [Net.bind, Net.init, Local.bind, Proc.bind_ret]
  rw [hmid] at h₂
  exact h₁.trans h₂

end Round

/-! ## One message

A receive whose message has arrived completes under either mode, a buffered send at once, and a send
together with the receive that waits for it under either mode. -/

omit [DecidableEq I] in
theorem enqueue_singleton (q : C → List M) (c : C) (m : M) :
    enqueue q [(c, m)] = update q c (q c ++ [m]) := by
  funext d
  by_cases h : c = d
  · subst h; simp [enqueue]
  · rw [update_of_ne (Ne.symm h), enqueue, msgsOn_eq_nil (by simpa using h), List.append_nil]

omit [DecidableEq I] in
theorem enqueue_nil (q : C → List M) : enqueue q [] = q := funext fun _ => List.append_nil _

theorem Star.send {s : Net I C M E α} {i : I} {c : C} {m : M} {k : List M → Proc C M E α}
    (hi : s.loc i = .run (.comm [(c, m)] [] k)) :
    Star .buffered s ⟨update s.loc i (.run (k [])), update s.queue c (s.queue c ++ [m]),
      update s.log c (s.log c ++ [m])⟩ := by
  have h₁ : Step .buffered s (s.post i [(c, m)] [] k) := .post i hi
  have h₂ : Step .buffered (s.post i [(c, m)] [] k)
      ((s.post i [(c, m)] [] k).setLoc i (.run (k []))) :=
    .finish i (update_self ..) rfl (by simp)
  have heq : (s.post i [(c, m)] [] k).setLoc i (.run (k [])) = ⟨update s.loc i (.run (k [])),
      update s.queue c (s.queue c ++ [m]), update s.log c (s.log c ++ [m])⟩ := by
    simp only [Net.post, Net.setLoc, update_idem, enqueue_singleton]
  rw [← heq]
  exact (ReflTransGen.single h₁).tail h₂

theorem Star.recv {s : Net I C M E α} {j : I} {c : C} {m : M} {q : List M}
    {k : List M → Proc C M E α} (hj : s.loc j = .run (.comm [] [c] k)) (hq : s.queue c = m :: q) :
    Star mode s ⟨update s.loc j (.run (k [m])), update s.queue c q, s.log⟩ := by
  let s₁ := s.post j [] [c] k
  let s₂ := s₁.deliver j (.wait [] [(c, some m)] k) c q
  have h₁ : Step mode s s₁ := .post j hj
  have hq₁ : s₁.queue c = m :: q := by simp only [s₁, Net.post, enqueue_nil, hq]
  have h₂ : Step mode s₁ s₂ := .deliver j (update_self ..) hq₁ (fill_cons_self c m [])
  have h₃ : Step mode s₂ (s₂.setLoc j (.run (k [m]))) := .finish j (update_self ..) rfl (by simp)
  have heq : s₂.setLoc j (.run (k [m]))
      = ⟨update s.loc j (.run (k [m])), update s.queue c q, s.log⟩ := by
    simp only [s₂, s₁, Net.post, Net.deliver, Net.setLoc, update_idem, enqueue_nil]
  rw [← heq]
  exact ((ReflTransGen.single h₁).tail h₂).tail h₃

/-- **A transfer**: a blocking send and the receive it waits for complete together. -/
theorem Star.transfer {s : Net I C M E α} {i j : I} {c : C} {m : M} {k k' : List M → Proc C M E α}
    (hi : s.loc i = .run (.comm [(c, m)] [] k)) (hj : s.loc j = .run (.comm [] [c] k'))
    (hq : s.queue c = []) :
    Star mode s ⟨update (update s.loc i (.run (k []))) j (.run (k' [m])), s.queue,
      update s.log c (s.log c ++ [m])⟩ := by
  have hij : j ≠ i := by rintro rfl; rw [hi] at hj; cases hj
  let s₁ := s.post i [(c, m)] [] k
  let s₂ := s₁.post j [] [c] k'
  let s₃ := s₂.deliver j (.wait [] [(c, some m)] k') c []
  let s₄ := s₃.setLoc j (.run (k' [m]))
  have h₁ : Step mode s s₁ := .post i hi
  have h₂ : Step mode s₁ s₂ := .post j ((update_of_ne hij ..).trans hj)
  have hq₂ : s₂.queue c = [m] := by
    simp only [s₂, s₁, Net.post, enqueue_nil, enqueue_singleton, hq, update_self, List.nil_append]
  have h₃ : Step mode s₂ s₃ := .deliver j (update_self ..) hq₂ (fill_cons_self c m [])
  have h₄ : Step mode s₃ s₄ := .finish j (update_self ..) rfl (by simp)
  have hl₄ : s₄.loc i = .wait [c] [] k := by
    simp [s₄, s₃, s₂, s₁, Net.post, Net.deliver, Net.setLoc, update_of_ne hij.symm]
  have h₅ : Step mode s₄ (s₄.setLoc i (.run (k []))) :=
    .finish i hl₄ rfl (by simp [s₄, s₃, Net.deliver, Net.setLoc])
  have heq : s₄.setLoc i (.run (k [])) = ⟨update (update s.loc i (.run (k []))) j (.run (k' [m])),
      s.queue, update s.log c (s.log c ++ [m])⟩ := by
    refine Net.ext ?_ ?_ ?_
    · simp only [s₄, s₃, s₂, s₁, Net.post, Net.deliver, Net.setLoc, update_idem, update_comm hij]
    · simp only [s₄, s₃, s₂, s₁, Net.post, Net.deliver, Net.setLoc, enqueue_nil,
        enqueue_singleton, update_idem]
      rw [← hq, update_eq_self]
    · simp only [s₄, s₃, s₂, s₁, Net.post, Net.deliver, Net.setLoc, enqueue_nil, enqueue_singleton]
  rw [← heq]
  exact ((((ReflTransGen.single h₁).tail h₂).tail h₃).tail h₄).tail h₅

/-! ## Dealing

One process sends a list of messages, one after the other, to processes that each take in theirs in
order. -/

/-- `q` sends the messages `l` one at a time and is then at `r`. -/
def Emits : List (C × M) → Proc C M E α → Proc C M E α → Prop
  | [], q, r => q = r
  | x :: l, q, r => ∃ k, q = .comm [x] [] k ∧ Emits l (k []) r

/-- `q` takes in the messages `ms` from channel `c` one at a time and is then at `r`. -/
def Consumes (c : C) : List M → Proc C M E α → Proc C M E α → Prop
  | [], q, r => q = r
  | m :: ms, q, r => ∃ k, q = .comm [] [c] k ∧ Consumes c ms (k [m]) r

theorem Star.deal (p : I) (chan : I → C) (hdst : ∀ j, dst (chan j) = j) {l : List (C × M)}
    (hl : ∀ x ∈ l, ∃ j, j ≠ p ∧ x.1 = chan j) {q r : I → Proc C M E α} {h : C → List M}
    (hp : Emits l (q p) (r p))
    (hr : ∀ j, j ≠ p → Consumes (chan j) (msgsOn (chan j) l) (q j) (r j)) :
    Star mode ⟨fun i => .run (q i), fun _ => [], h⟩
      ⟨fun i => .run (r i), fun _ => [], fun c => h c ++ msgsOn c l⟩ := by
  induction l generalizing q h with
  | nil =>
    have hqr : q = r := funext fun i => by
      by_cases hi : i = p
      · subst hi; exact hp
      · exact hr i hi
    simp only [hqr, msgsOn_nil, List.append_nil]
    exact .refl
  | cons x l ih =>
    obtain ⟨c, m⟩ := x
    obtain ⟨j, hj, hc⟩ := hl _ List.mem_cons_self
    obtain rfl : c = chan j := hc
    obtain ⟨k, hk, hp'⟩ := hp
    have hrj := hr j hj
    rw [msgsOn_cons, if_pos rfl, List.singleton_append] at hrj
    obtain ⟨k', hk', hrj'⟩ := hrj
    have h₁ : Star mode ⟨fun i => .run (q i), fun _ => [], h⟩ _ :=
      Star.transfer (congrArg Local.run hk) (congrArg Local.run hk') rfl
    have hloc : update (update (fun i => Local.run (q i)) p (.run (k []))) j (.run (k' [m]))
        = fun i => Local.run (update (update q p (k [])) j (k' [m]) i) := by
      funext i
      by_cases hij : i = j
      · subst hij; rw [update_self, update_self]
      · rw [update_of_ne hij, update_of_ne hij]
        by_cases hip : i = p
        · subst hip; rw [update_self, update_self]
        · rw [update_of_ne hip, update_of_ne hip]
    rw [hloc] at h₁
    have h₂ := ih (q := update (update q p (k [])) j (k' [m]))
      (h := update h (chan j) (h (chan j) ++ [m])) (fun y hy => hl y (List.mem_cons_of_mem _ hy))
      (by rw [update_of_ne hj.symm, update_self]; exact hp') fun i hi => by
        by_cases hij : i = j
        · subst hij; rw [update_self]; exact hrj'
        · have hne : chan j ≠ chan i := fun e => hij (by rw [← hdst i, ← e, hdst])
          have hri := hr i hi
          rw [msgsOn_cons, if_neg hne, List.nil_append] at hri
          rwa [update_of_ne hij, update_of_ne hi]
    have hlog : (fun c => update h (chan j) (h (chan j) ++ [m]) c ++ msgsOn c l)
        = fun c => h c ++ msgsOn c ((chan j, m) :: l) := by
      funext c
      by_cases hcj : c = chan j
      · subst hcj; simp
      · rw [update_of_ne hcj, msgsOn_cons, if_neg (Ne.symm hcj), List.nil_append]
    rw [hlog] at h₂
    exact h₁.trans h₂

/-- **A dealing round**, for processes that return after it. -/
theorem Runs.deal (dst : C → I) (p : I) (chan : I → C) (hdst : ∀ j, dst (chan j) = j)
    {l : List (C × M)}
    (hl : ∀ x ∈ l, ∃ j, j ≠ p ∧ x.1 = chan j) {q : I → Proc C M E α} {a : I → α}
    (hp : Emits l (q p) (.ret (a p)))
    (hr : ∀ j, j ≠ p → Consumes (chan j) (msgsOn (chan j) l) (q j) (.ret (a j))) :
    Runs mode q a fun c => msgsOn c l :=
  Star.deal p chan hdst hl hp hr

/-! ## Scattering

With buffered sends, every process sends its messages, and then every process takes in those that
are meant for it, in an order of its own. -/

/-- `q` takes in the messages `l` one at a time, each from its channel, and is then at `r`. -/
def Gathers : List (C × M) → Proc C M E α → Proc C M E α → Prop
  | [], q, r => q = r
  | x :: l, q, r => ∃ k, q = .comm [] [x.1] k ∧ Gathers l (k [x.2]) r

/-- One process sends. -/
theorem Star.emit {s : Net I C M E α} {i : I} {l : List (C × M)} {q r : Proc C M E α}
    (hi : s.loc i = .run q) (hl : Emits l q r) :
    Star .buffered s ⟨update s.loc i (.run r), enqueue s.queue l, enqueue s.log l⟩ := by
  induction l generalizing s q with
  | nil =>
    obtain rfl : q = r := hl
    rw [enqueue_nil, enqueue_nil, ← hi, update_eq_self]
  | cons x l ih =>
    obtain ⟨k, rfl, hl'⟩ := hl
    have h₁ := Star.send hi
    rw [← enqueue_singleton, ← enqueue_singleton] at h₁
    have h₂ := ih (s := ⟨update s.loc i (.run (k [])), enqueue s.queue [x], enqueue s.log [x]⟩)
      (update_self ..) hl'
    have hcons : ∀ q : C → List M, enqueue (enqueue q [x]) l = enqueue q (x :: l) := fun q => by
      funext c
      simp only [enqueue, msgsOn_cons, msgsOn_nil, List.append_nil, List.append_assoc]
    simp only [update_idem, hcons] at h₂
    exact h₁.trans h₂

/-- One process takes in its messages, which are first in their queues. -/
theorem Star.gather {s : Net I C M E α} {i : I} {l : List (C × M)} {q r : Proc C M E α}
    {rest : C → List M} (hi : s.loc i = .run q) (hl : Gathers l q r)
    (hq : ∀ c, s.queue c = msgsOn c l ++ rest c) :
    Star mode s ⟨update s.loc i (.run r), rest, s.log⟩ := by
  induction l generalizing s q with
  | nil =>
    obtain rfl : q = r := hl
    have hqueue : s.queue = rest := funext hq
    rw [← hi, update_eq_self, ← hqueue]
  | cons x l ih =>
    obtain ⟨k, rfl, hl'⟩ := hl
    have hx : s.queue x.1 = x.2 :: (msgsOn x.1 l ++ rest x.1) := by
      rw [hq, msgsOn_cons, if_pos rfl]; rfl
    have h₁ : Star mode s _ := Star.recv hi hx
    have hq' : ∀ c, update s.queue x.1 (msgsOn x.1 l ++ rest x.1) c = msgsOn c l ++ rest c := by
      intro c
      by_cases hc : c = x.1
      · subst hc; rw [update_self]
      · rw [update_of_ne hc, hq, msgsOn_cons, if_neg (Ne.symm hc), List.nil_append]
    have h₂ := ih (s := ⟨update s.loc i (.run (k [x.2])),
      update s.queue x.1 (msgsOn x.1 l ++ rest x.1), s.log⟩) (update_self ..) hl' hq'
    simp only [update_idem] at h₂
    exact h₁.trans h₂

/-- **A scattering**: process `i` sends `l i` and takes in `w i`, which is what the others have sent
to it. -/
theorem Runs.scatter [Fintype I] (src dst : C → I) {q r : I → Proc C M E α} {a : I → α}
    {l w : I → List (C × M)} (hl : ∀ i, ∀ x ∈ l i, src x.1 = i) (hw : ∀ i, ∀ x ∈ w i, dst x.1 = i)
    (hmatch : ∀ c, msgsOn c (w (dst c)) = msgsOn c (l (src c)))
    (hq : ∀ i, Emits (l i) (q i) (r i)) (hr : ∀ i, Gathers (w i) (r i) (.ret (a i))) :
    Runs .buffered q a fun c => msgsOn c (l (src c)) := by
  have hemit : ∀ P : Finset I, Star .buffered (Net.init q)
      ⟨fun i => .run (if i ∈ P then r i else q i),
        fun c => if src c ∈ P then msgsOn c (l (src c)) else [],
        fun c => if src c ∈ P then msgsOn c (l (src c)) else []⟩ := by
    intro P
    induction P using Finset.induction_on with
    | empty => exact .refl
    | insert i P hi ih =>
      have h := Star.emit (i := i) (s := ⟨fun i => .run (if i ∈ P then r i else q i),
        fun c => if src c ∈ P then msgsOn c (l (src c)) else [],
        fun c => if src c ∈ P then msgsOn c (l (src c)) else []⟩) (l := l i) (q := q i) (r := r i)
        (by simp [hi]) (hq i)
      have henq : enqueue (fun c => if src c ∈ P then msgsOn c (l (src c)) else []) (l i)
          = fun c => if src c ∈ insert i P then msgsOn c (l (src c)) else [] := by
        funext c
        by_cases hc : src c = i
        · subst hc; simp [enqueue, hi]
        · have hnil : msgsOn c (l i) = [] := msgsOn_eq_nil fun x hx e => hc (by rw [← e, hl i x hx])
          simp [enqueue, hnil, hc]
      have hloc : update (fun j => Local.run (if j ∈ P then r j else q j)) i (.run (r i))
          = fun j => .run (if j ∈ insert i P then r j else q j) := by
        funext j
        by_cases hj : j = i
        · subst hj; simp
        · simp [hj]
      rw [henq, hloc] at h
      exact ih.trans h
  have hgather : ∀ P : Finset I, Star .buffered
      ⟨fun i => .run (r i), fun c => msgsOn c (l (src c)), fun c => msgsOn c (l (src c))⟩
      (⟨fun i => .run (if i ∈ P then .ret (a i) else r i),
        fun c => if dst c ∈ P then [] else msgsOn c (l (src c)), fun c => msgsOn c (l (src c))⟩ :
        Net I C M E α) := by
    intro P
    induction P using Finset.induction_on with
    | empty => exact .refl
    | insert i P hi ih =>
      have hqueue : ∀ c, (if dst c ∈ P then [] else msgsOn c (l (src c)))
          = msgsOn c (w i) ++ if dst c ∈ insert i P then [] else msgsOn c (l (src c)) := by
        intro c
        by_cases hc : dst c = i
        · subst hc; simp [hi, hmatch]
        · have hnil : msgsOn c (w i) = [] := msgsOn_eq_nil fun x hx e => hc (by rw [← e, hw i x hx])
          simp [hnil, hc]
      have h : Star .buffered _ _ := Star.gather (i := i)
        (s := ⟨fun i => .run (if i ∈ P then .ret (a i) else r i),
          fun c => if dst c ∈ P then [] else msgsOn c (l (src c)), fun c => msgsOn c (l (src c))⟩)
        (by simp [hi]) (hr i) hqueue
      have hloc : update (fun j => Local.run (if j ∈ P then .ret (a j) else r j)) i
          (.run (.ret (a i))) = fun j => .run (if j ∈ insert i P then .ret (a j) else r j) := by
        funext j
        by_cases hj : j = i
        · subst hj; simp
        · simp [hj]
      rw [hloc] at h
      exact ih.trans h
  have h₁ := hemit .univ
  have h₂ := hgather .univ
  simp only [Finset.mem_univ, if_true] at h₁ h₂
  exact h₁.trans h₂

end Machinery
