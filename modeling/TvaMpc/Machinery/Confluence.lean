import TvaMpc.Machinery.Network

/-!
# Machinery/Confluence — every interleaving of a network ends in the same state

Two enabled steps of a network that owns its channels commute: a queue is appended to by its source
only, popped by its destination only, and a waiting process reads neither end of anybody else's.
So one run to a terminal state settles all of them (`Star.toTerminal`), and since every run ends
(`wellFounded_step`) a terminal state is always reached.
-/

namespace Machinery

open Function Relation

universe u v

variable {I : Type*} {C M E : Type u} {α : Type v} [DecidableEq I] [DecidableEq C]
variable {src dst : C → I} {mode : SendMode}

/-! ## The diamond -/

omit [DecidableEq I] in
theorem enqueue_of_src_ne {q : C → List M} {sends : List (C × M)} {i : I} {c : C}
    (hs : ∀ s ∈ sends, src s.1 = i) (hc : src c ≠ i) : enqueue q sends c = q c := by
  have h : msgsOn c sends = [] := msgsOn_eq_nil fun s hmem e => hc (by rw [← e, hs s hmem])
  rw [enqueue, h, List.append_nil]

/-- Two blocks posted by different owners touch different queues. -/
theorem enqueue_comm {q : C → List M} {sends sends' : List (C × M)} {i j : I} (hij : i ≠ j)
    (hs : ∀ s ∈ sends, src s.1 = i) (hs' : ∀ s ∈ sends', src s.1 = j) :
    enqueue (enqueue q sends) sends' = enqueue (enqueue q sends') sends := by
  funext c
  by_cases hc : src c = i
  · have hj : src c ≠ j := fun e => hij (hc.symm.trans e)
    rw [enqueue_of_src_ne hs' hj]
    exact congrArg (· ++ msgsOn c sends) (enqueue_of_src_ne hs' hj).symm
  · rw [enqueue_of_src_ne hs hc]
    exact congrArg (· ++ msgsOn c sends') (enqueue_of_src_ne hs hc)

/-- Appending at the back of a queue and popping its front commute. -/
theorem enqueue_update {q : C → List M} {sends : List (C × M)} {c : C} {rest : List M} :
    enqueue (update q c rest) sends = update (enqueue q sends) c (rest ++ msgsOn c sends) := by
  funext d
  by_cases h : d = c
  · subst h; rw [enqueue, update_self, update_self]
  · rw [enqueue, update_of_ne h, update_of_ne h, enqueue]

namespace Net

variable {s : Net I C M E α} {i j : I}

theorem post_comm (hij : i ≠ j) {sends sends' : List (C × M)} {recvs recvs' : List C}
    {k k' : List M → Proc C M E α} (hi : ∀ s ∈ sends, src s.1 = i)
    (hj : ∀ s ∈ sends', src s.1 = j) :
    (s.post i sends recvs k).post j sends' recvs' k'
      = (s.post j sends' recvs' k').post i sends recvs k := by
  simp only [post, enqueue_comm hij hi hj, update_comm hij]

theorem post_deliver (hij : i ≠ j) {sends : List (C × M)} {recvs : List C}
    {k : List M → Proc C M E α} {l : Local C M E α} {c : C} {q : List M} :
    (s.deliver j l c q).post i sends recvs k
      = (s.post i sends recvs k).deliver j l c (q ++ msgsOn c sends) := by
  simp only [post, deliver, enqueue_update, update_comm hij.symm]

theorem post_setLoc (hij : i ≠ j) {sends : List (C × M)} {recvs : List C}
    {k : List M → Proc C M E α} {l : Local C M E α} :
    (s.setLoc j l).post i sends recvs k = (s.post i sends recvs k).setLoc j l := by
  simp only [post, setLoc, update_comm hij.symm]

theorem deliver_comm (hij : i ≠ j) {l l' : Local C M E α} {c d : C} (hcd : c ≠ d)
    {q q' : List M} :
    (s.deliver i l c q).deliver j l' d q' = (s.deliver j l' d q').deliver i l c q := by
  simp only [deliver, update_comm hij, update_comm hcd]

theorem deliver_comm_self {l l' l'' : Local C M E α} {c d : C} (hcd : c ≠ d) {q q' : List M} :
    (s.deliver i l c q).deliver i l'' d q' = (s.deliver i l' d q').deliver i l'' c q := by
  simp only [deliver, update_idem, update_comm hcd]

theorem deliver_setLoc (hij : i ≠ j) {l l' : Local C M E α} {c : C} {q : List M} :
    (s.setLoc j l').deliver i l c q = (s.deliver i l c q).setLoc j l' := by
  simp only [deliver, setLoc, update_comm hij.symm]

omit [DecidableEq C] in
theorem setLoc_comm (hij : i ≠ j) {l l' : Local C M E α} :
    (s.setLoc i l).setLoc j l' = (s.setLoc j l').setLoc i l := by
  simp only [setLoc, update_comm hij]

/-- Two enabled deliveries are the same step, or go through different channels. -/
theorem deliver_deliver (hs : s.Owned src dst) {k k' : List M → Proc C M E α} {sent sent' : List C}
    {a a' b b' : List (Slot C M)} {c d : C} {m m' : M} {q q' : List M}
    (hi : s.loc i = .wait sent a k) (hq : s.queue c = m :: q) (hf : fill c m a = some a')
    (hj : s.loc j = .wait sent' b k') (hq' : s.queue d = m' :: q') (hf' : fill d m' b = some b') :
    s.deliver i (.wait sent a' k) c q = s.deliver j (.wait sent' b' k') d q' ∨
      ∃ u, Step mode (s.deliver i (.wait sent a' k) c q) u ∧
        Step mode (s.deliver j (.wait sent' b' k') d q') u := by
  by_cases hcd : c = d
  · -- one channel has one reader, so both deliveries are the same step
    subst hcd
    have hoi := hs i
    have hoj := hs j
    rw [hi] at hoi
    rw [hj] at hoj
    have hci := hoi.2.1 c (List.mem_map.mpr ⟨_, fill_isSome_iff.mp (by rw [hf]; rfl), rfl⟩)
    have hcj := hoj.2.1 c (List.mem_map.mpr ⟨_, fill_isSome_iff.mp (by rw [hf']; rfl), rfl⟩)
    obtain rfl : i = j := hci.symm.trans hcj
    obtain ⟨rfl, rfl, rfl⟩ := Local.wait.inj (hi.symm.trans hj)
    obtain ⟨rfl, rfl⟩ := List.cons.inj (hq.symm.trans hq')
    obtain rfl := Option.some.inj (hf.symm.trans hf')
    exact Or.inl rfl
  · have hq₁ : update s.queue c q d = m' :: q' := by rwa [update_of_ne (Ne.symm hcd)]
    have hq₂ : update s.queue d q' c = m :: q := by rwa [update_of_ne hcd]
    refine Or.inr ?_
    by_cases hij : i = j
    · subst hij
      obtain ⟨rfl, rfl, rfl⟩ := Local.wait.inj (hi.symm.trans hj)
      obtain ⟨e, he, he'⟩ := fill_comm hcd hf hf'
      refine ⟨_, .deliver i (update_self ..) hq₁ he, ?_⟩
      rw [deliver_comm_self hcd]
      exact .deliver i (update_self ..) hq₂ he'
    · refine ⟨_, .deliver j ((update_of_ne (Ne.symm hij) ..).trans hj) hq₁ hf', ?_⟩
      rw [deliver_comm hij hcd]
      exact .deliver i ((update_of_ne hij ..).trans hi) hq₂ hf

end Net

/-! ### A post or a delivery beside another process's step -/

section Pairs

variable {s : Net I C M E α} {i j : I} {sends : List (C × M)} {recvs : List C}
variable {k k' : List M → Proc C M E α} {sent sent' : List C} {a a' b : List (Slot C M)}
variable {c : C} {m : M} {q vs : List M}

theorem post_deliver (hi : s.loc i = .run (.comm sends recvs k)) (hj : s.loc j = .wait sent a k')
    (hq : s.queue c = m :: q) (hf : fill c m a = some a') :
    ∃ u, Step mode (s.post i sends recvs k) u ∧
      Step mode (s.deliver j (.wait sent a' k') c q) u := by
  have hij : i ≠ j := by rintro rfl; rw [hi] at hj; cases hj
  have hq' : enqueue s.queue sends c = m :: (q ++ msgsOn c sends) := by
    rw [enqueue, hq, List.cons_append]
  refine ⟨_, .deliver j ((update_of_ne hij.symm ..).trans hj) hq' hf, ?_⟩
  rw [← Net.post_deliver hij]
  exact .post i ((update_of_ne hij ..).trans hi)

theorem post_finish (hs : s.Owned src dst) (hi : s.loc i = .run (.comm sends recvs k))
    (hj : s.loc j = .wait sent a k') (hv : values a = some vs)
    (hw : mode = .rendezvous → ∀ c ∈ sent, s.queue c = []) :
    ∃ u, Step mode (s.post i sends recvs k) u ∧ Step mode (s.setLoc j (.run (k' vs))) u := by
  have hij : i ≠ j := by rintro rfl; rw [hi] at hj; cases hj
  have hoi := hs i
  have hoj := hs j
  rw [hi] at hoi
  rw [hj] at hoj
  have hw' : mode = .rendezvous → ∀ c ∈ sent, enqueue s.queue sends c = [] := fun hm c hc =>
    (enqueue_of_src_ne hoi.1 fun e => hij (e.symm.trans (hoj.1 c hc))).trans (hw hm c hc)
  refine ⟨_, .finish j ((update_of_ne hij.symm ..).trans hj) hv hw', ?_⟩
  rw [← Net.post_setLoc hij]
  exact .post i ((update_of_ne hij ..).trans hi)

theorem deliver_finish (hi : s.loc i = .wait sent a k) (hq : s.queue c = m :: q)
    (hf : fill c m a = some a') (hj : s.loc j = .wait sent' b k') (hv : values b = some vs)
    (hw : mode = .rendezvous → ∀ c ∈ sent', s.queue c = []) :
    ∃ u, Step mode (s.deliver i (.wait sent a' k) c q) u ∧
      Step mode (s.setLoc j (.run (k' vs))) u := by
  have hij : i ≠ j := by
    rintro rfl
    obtain ⟨rfl, rfl, rfl⟩ := Local.wait.inj (hi.symm.trans hj)
    rw [values_eq_none_of_fill hf] at hv
    cases hv
  have hw' : mode = .rendezvous → ∀ d ∈ sent', update s.queue c q d = [] := by
    intro hm d hd
    -- the queue a finished send has drained is not the one a delivery is about to pop
    have hdc : d ≠ c := by rintro rfl; rw [hw hm d hd] at hq; cases hq
    exact (update_of_ne hdc ..).trans (hw hm d hd)
  refine ⟨_, .finish j ((update_of_ne hij.symm ..).trans hj) hv hw', ?_⟩
  rw [← Net.deliver_setLoc hij]
  exact .deliver i ((update_of_ne hij ..).trans hi) hq hf

end Pairs

/-- **The diamond**: two steps out of a network that owns its channels are equal or commute. -/
theorem Step.diamond {s t₁ t₂ : Net I C M E α} (hs : s.Owned src dst) (h₁ : Step mode s t₁)
    (h₂ : Step mode s t₂) : t₁ = t₂ ∨ ∃ u, Step mode t₁ u ∧ Step mode t₂ u := by
  have ho : ∀ {i l}, s.loc i = l → l.Owned src dst i := fun {i _} h => h ▸ hs i
  cases h₁ with
  | post i hi =>
    cases h₂ with
    | post j hj =>
      by_cases hij : i = j
      · subst hij
        obtain ⟨rfl, rfl, rfl⟩ := Proc.comm.inj (Local.run.inj (hi.symm.trans hj))
        exact Or.inl rfl
      · refine Or.inr ⟨_, .post j ((update_of_ne (Ne.symm hij) ..).trans hj), ?_⟩
        rw [Net.post_comm hij (ho hi).1 (ho hj).1]
        exact .post i ((update_of_ne hij ..).trans hi)
    | deliver j hj hq hf => exact Or.inr (post_deliver hi hj hq hf)
    | finish j hj hv hw => exact Or.inr (post_finish hs hi hj hv hw)
  | deliver i hi hq hf =>
    cases h₂ with
    | post j hj => exact Or.inr ((post_deliver hj hi hq hf).imp fun _ => And.symm)
    | deliver j hj hq' hf' => exact Net.deliver_deliver hs hi hq hf hj hq' hf'
    | finish j hj hv hw => exact Or.inr (deliver_finish hi hq hf hj hv hw)
  | finish i hi hv hw =>
    cases h₂ with
    | post j hj => exact Or.inr ((post_finish hs hj hi hv hw).imp fun _ => And.symm)
    | deliver j hj hq hf => exact Or.inr ((deliver_finish hj hq hf hi hv hw).imp fun _ => And.symm)
    | finish j hj hv' hw' =>
      by_cases hij : i = j
      · subst hij
        obtain ⟨rfl, rfl, rfl⟩ := Local.wait.inj (hi.symm.trans hj)
        obtain rfl := Option.some.inj (hv.symm.trans hv')
        exact Or.inl rfl
      · refine Or.inr ⟨_, .finish j ((update_of_ne (Ne.symm hij) ..).trans hj) hv' hw', ?_⟩
        rw [Net.setLoc_comm hij]
        exact .finish i ((update_of_ne hij ..).trans hi) hv hw

/-! ## One run settles every run -/

/-- **A network that can end in `F` ends in `F` from wherever it has got to.** -/
theorem Star.toTerminal {s t F : Net I C M E α} (hs : s.Owned src dst) (hF : F.Terminal mode)
    (hsF : Star mode s F) (hst : Star mode s t) : Star mode t F := by
  have hc : ∀ a b c : { s : Net I C M E α // s.Owned src dst },
      Step mode a.1 b.1 → Step mode a.1 c.1 →
        ∃ d, ReflGen (fun x y => Step mode x.1 y.1) b d ∧
          ReflTransGen (fun x y => Step mode x.1 y.1) c d := by
    intro a b c hab hac
    rcases Step.diamond a.2 hab hac with h | ⟨u, hbu, hcu⟩
    · obtain rfl := Subtype.ext h
      exact ⟨b, .refl, .refl⟩
    · exact ⟨⟨u, hbu.owned b.2⟩, .single hbu, .single hcu⟩
  have lift : ∀ {x : Net I C M E α}, Star mode s x → ∃ hx : x.Owned src dst,
      ReflTransGen (fun x y : { s : Net I C M E α // s.Owned src dst } => Step mode x.1 y.1)
        ⟨s, hs⟩ ⟨x, hx⟩ := by
    intro x h
    induction h with
    | refl => exact ⟨hs, .refl⟩
    | tail _ hstep ih =>
      obtain ⟨hy, h⟩ := ih
      exact ⟨hstep.owned hy, h.tail hstep⟩
  obtain ⟨hFo, hF'⟩ := lift hsF
  obtain ⟨hto, ht'⟩ := lift hst
  obtain ⟨d, hd, hd'⟩ := church_rosser hc hF' ht'
  have hdF : d = ⟨F, hFo⟩ := by
    rcases hd.cases_head with h | ⟨c, h, _⟩
    · exact h.symm
    · exact absurd h (hF c.1)
  subst hdF
  exact hd'.lift Subtype.val fun _ _ => id

/-- A network has at most one terminal state. -/
theorem Star.terminal_unique {s F F' : Net I C M E α} (hs : s.Owned src dst)
    (hF : F.Terminal mode) (hF' : F'.Terminal mode) (h : Star mode s F) (h' : Star mode s F') :
    F = F' := by
  rcases (h.toTerminal hs hF h').cases_head with h | ⟨c, hc, _⟩
  · exact h.symm
  · exact absurd hc (hF' c)

/-! ## Every run ends

A process is a well-founded tree: posting keeps its subtree, finishing descends into it, and a
delivery leaves one open receive fewer. -/

/-- What one step of the network does to the process that takes it. -/
inductive Local.Step : Local C M E α → Local C M E α → Prop
  | post (sends : List (C × M)) (recvs : List C) (k : List M → Proc C M E α) :
      Local.Step (.run (.comm sends recvs k))
        (.wait (sends.map Prod.fst) (recvs.map fun c => (c, none)) k)
  | deliver {sent : List C} {slots slots' : List (Slot C M)} {k : List M → Proc C M E α} {c : C}
      {m : M} (hf : fill c m slots = some slots') :
      Local.Step (.wait sent slots k) (.wait sent slots' k)
  | finish {sent : List C} {slots : List (Slot C M)} {k : List M → Proc C M E α} (vs : List M) :
      Local.Step (.wait sent slots k) (.run (k vs))

/-- The receives of a block that have no message yet. -/
def openSlots (slots : List (Slot C M)) : ℕ := slots.countP fun s => s.2.isNone

theorem openSlots_fill {c : C} {m : M} {slots slots' : List (Slot C M)}
    (h : fill c m slots = some slots') : openSlots slots = openSlots slots' + 1 := by
  induction slots generalizing slots' with
  | nil => simp [fill] at h
  | cons s slots ih =>
    rcases em (s = (c, none)) with hs | hs
    · subst hs
      obtain rfl := Option.some.inj ((fill_cons_self c m slots).symm.trans h)
      simp [openSlots]
    · rw [fill_cons_of_ne hs, Option.map_eq_some_iff] at h
      obtain ⟨l, hl, rfl⟩ := h
      have := ih hl
      simp only [openSlots, List.countP_cons] at this ⊢
      omega

theorem Local.acc_wait {k : List M → Proc C M E α}
    (hk : ∀ vs, Acc (Function.swap Local.Step) (.run (k vs))) (sent : List C) :
    ∀ (n : ℕ) (slots : List (Slot C M)), openSlots slots = n →
      Acc (Function.swap Local.Step) (.wait sent slots k) := by
  intro n
  induction n with
  | zero =>
    intro slots hn
    refine ⟨_, fun l hl => ?_⟩
    cases hl with
    | deliver hf => have := openSlots_fill hf; omega
    | finish vs => exact hk vs
  | succ n ih =>
    intro slots hn
    refine ⟨_, fun l hl => ?_⟩
    cases hl with
    | deliver hf => exact ih _ (by have := openSlots_fill hf; omega)
    | finish vs => exact hk vs

theorem Local.acc_run (p : Proc C M E α) : Acc (Function.swap Local.Step) (.run p) := by
  induction p with
  | ret a => exact ⟨_, fun l hl => by cases hl⟩
  | exit e => exact ⟨_, fun l hl => by cases hl⟩
  | comm sends recvs k ih =>
    refine ⟨_, fun l hl => ?_⟩
    cases hl with
    | post => exact Local.acc_wait ih _ _ _ rfl

theorem Local.wellFounded_step :
    WellFounded (Function.swap (Local.Step (C := C) (M := M) (E := E) (α := α))) := by
  refine ⟨fun l => ?_⟩
  cases l with
  | run p => exact Local.acc_run p
  | wait sent slots k => exact Local.acc_wait (fun vs => Local.acc_run (k vs)) _ _ _ rfl

theorem Step.exists_local {s t : Net I C M E α} (h : Step mode s t) :
    ∃ i l, Local.Step (s.loc i) l ∧ t.loc = update s.loc i l := by
  cases h with
  | post i hl => exact ⟨i, _, hl ▸ .post _ _ _, rfl⟩
  | deliver i hl hq hf => exact ⟨i, _, hl ▸ .deliver hf, rfl⟩
  | finish i hl hv hs => exact ⟨i, _, hl ▸ .finish _, rfl⟩

/-- **Every run ends**: no network has an infinite run. -/
theorem wellFounded_step [Finite I] (mode : SendMode) :
    WellFounded (Function.swap (Step (I := I) (C := C) (M := M) (E := E) (α := α) mode)) := by
  obtain ⟨_, _⟩ := exists_wellFoundedLT I
  have hlex := Pi.Lex.wellFounded (ι := I) (· < ·)
    fun _ => Local.wellFounded_step (C := C) (M := M) (E := E) (α := α)
  refine Subrelation.wf (fun {t s} h => ?_) (InvImage.wf Net.loc hlex)
  obtain ⟨i, l, hl, ht⟩ := h.exists_local
  refine ⟨i, fun j hj => ?_, ?_⟩
  · rw [ht, update_of_ne hj.ne]
  · rw [ht, update_self]; exact hl

/-- **Every run can be continued to a terminal state.** -/
theorem exists_terminal [Finite I] (mode : SendMode) (s : Net I C M E α) :
    ∃ t, Star mode s t ∧ t.Terminal mode := by
  refine (wellFounded_step mode).induction
    (C := fun s => ∃ t, Star mode s t ∧ t.Terminal mode) s fun s ih => ?_
  by_cases h : s.Terminal mode
  · exact ⟨s, .refl, h⟩
  · obtain ⟨t, ht⟩ := not_forall_not.mp h
    obtain ⟨u, hu, hu'⟩ := ih t ht
    exact ⟨u, .head ht hu, hu'⟩

end Machinery
