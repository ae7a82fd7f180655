import TvaMpc.Machinery.Joint

/-!
# Machinery/Play — what a process does is a function of what it is sent

With buffered sends a process is a function of its inbox: `Proc.play p q` runs `p` alone against the
messages `q` that ever arrive, as far as they last, and gives its outcome and everything it posts.

`Star.play` says that this is what the network computes: in a terminal state every process stands
where its play against the final log ends, and the log is what the plays post.  So the end of a run
is described by one equation per process, whatever the other processes are — also when one of them
follows no protocol at all.
-/

namespace Machinery

open Function Relation

universe u v

variable {I : Type*} {C M E : Type u} {α β : Type v} [DecidableEq I] [DecidableEq C]
variable {src dst : C → I}

/-- Serve the open receives of a block from an inbox, oldest message first, or name the first
receive that has no message. -/
def serve : List (Slot C M) → (C → List M) → Except C (List M × (C → List M))
  | [], q => .ok ([], q)
  | (_, some m) :: slots, q => (serve slots q).map fun r => (m :: r.1, r.2)
  | (c, none) :: slots, q =>
      match q c with
      | [] => .error c
      | m :: rest => (serve slots (update q c rest)).map fun r => (m :: r.1, r.2)

/-- How a process ends: by returning, by exiting, or waiting for a message on a channel. -/
inductive Outcome (C E : Type u) (α : Type v) where
  | returned (a : α)
  | exited (e : E)
  | waits (c : C)

/-- **Run a process alone against an inbox**: its outcome and all it posts. -/
def Proc.play : Proc C M E α → (C → List M) → Outcome C E α × List (C × M)
  | .ret a, _ => (.returned a, [])
  | .exit e, _ => (.exited e, [])
  | .comm sends recvs k, q =>
      match serve (recvs.map fun c => (c, none)) q with
      | .error c => (.waits c, sends)
      | .ok (ms, q') => (((k ms).play q').1, sends ++ ((k ms).play q').2)

/-- The same from wherever a process stands. -/
def Local.play : Local C M E α → (C → List M) → Outcome C E α × List (C × M)
  | .run p, q => p.play q
  | .wait _ slots k, q =>
      match serve slots q with
      | .error c => (.waits c, [])
      | .ok (ms, q') => (k ms).play q'

/-! ## Serving -/

theorem serve_values {slots : List (Slot C M)} {vs : List M} (h : values slots = some vs)
    (q : C → List M) : serve slots q = .ok (vs, q) := by
  induction slots generalizing vs with
  | nil =>
    obtain rfl := Option.some.inj h
    rfl
  | cons s slots ih =>
    obtain ⟨c, _ | m⟩ := s
    · cases h
    · obtain ⟨l, hl, rfl⟩ := Option.map_eq_some_iff.mp h
      rw [serve, ih hl]; rfl

/-- A delivery takes from the inbox what serving would have taken. -/
theorem serve_fill {slots slots' : List (Slot C M)} {c : C} {m : M} {rest : List M}
    {q : C → List M} (hf : fill c m slots = some slots') (hq : q c = m :: rest) :
    serve slots q = serve slots' (update q c rest) := by
  induction slots generalizing slots' q with
  | nil => cases hf
  | cons s slots ih =>
    rcases em (s = (c, none)) with hs | hs
    · subst hs
      obtain rfl := Option.some.inj ((fill_cons_self c m slots).symm.trans hf)
      rw [serve, serve, hq]
    · rw [fill_cons_of_ne hs, Option.map_eq_some_iff] at hf
      obtain ⟨l, hl, rfl⟩ := hf
      obtain ⟨d, _ | m'⟩ := s
      · have hdc : d ≠ c := fun e => hs (by rw [e])
        rw [serve, serve, update_of_ne hdc]
        cases hd : q d with
        | nil => rfl
        | cons m' rest' =>
          have hq' : update q d rest' c = m :: rest := by rw [update_of_ne hdc.symm, hq]
          simp only [ih hl hq', update_comm hdc]
      · rw [serve, serve, ih hl hq]

/-- With no message for any open receive, the first one waits. -/
theorem serve_eq_error {slots : List (Slot C M)} {q : C → List M} (hv : values slots = none)
    (hq : ∀ c, (c, none) ∈ slots → q c = []) :
    ∃ c, (c, none) ∈ slots ∧ serve slots q = .error c := by
  induction slots with
  | nil => cases hv
  | cons s slots ih =>
    obtain ⟨c, _ | m⟩ := s
    · exact ⟨c, List.mem_cons_self, by rw [serve, hq c List.mem_cons_self]⟩
    · have hv' : values slots = none := by simpa [values] using hv
      obtain ⟨c', hc', hs⟩ := ih hv' fun c hc => hq c (List.mem_cons_of_mem _ hc)
      exact ⟨c', List.mem_cons_of_mem _ hc', by rw [serve, hs]; rfl⟩

omit [DecidableEq I] in
/-- Serving looks at no other channel. -/
theorem serve_congr {slots : List (Slot C M)} {i : I} {q q' : C → List M}
    (hs : ∀ c ∈ slots.map Prod.fst, dst c = i) (hq : ∀ c, dst c = i → q c = q' c) :
    (∃ c, serve slots q = .error c ∧ serve slots q' = .error c) ∨
      ∃ ms r r', serve slots q = .ok (ms, r) ∧ serve slots q' = .ok (ms, r') ∧
        ∀ c, dst c = i → r c = r' c := by
  induction slots generalizing q q' with
  | nil => exact Or.inr ⟨[], q, q', rfl, rfl, hq⟩
  | cons s slots ih =>
    have hs' : ∀ c ∈ slots.map Prod.fst, dst c = i := fun c hc => hs c (List.mem_cons_of_mem _ hc)
    obtain ⟨c, _ | m⟩ := s
    · have hc : q c = q' c := hq c (hs c List.mem_cons_self)
      cases hqc : q c with
      | nil => exact Or.inl ⟨c, by rw [serve, hqc], by rw [serve, ← hc, hqc]⟩
      | cons m rest =>
        have hupd : ∀ d, dst d = i → update q c rest d = update q' c rest d := fun d hd => by
          by_cases hdc : d = c
          · subst hdc; rw [update_self, update_self]
          · rw [update_of_ne hdc, update_of_ne hdc, hq d hd]
        rcases ih hs' hupd with ⟨c', h, h'⟩ | ⟨ms, r, r', h, h', hr⟩
        · exact Or.inl ⟨c', by rw [serve, hqc]; simp only [h]; rfl,
            by rw [serve, ← hc, hqc]; simp only [h']; rfl⟩
        · exact Or.inr ⟨m :: ms, r, r', by rw [serve, hqc]; simp only [h]; rfl,
            by rw [serve, ← hc, hqc]; simp only [h']; rfl, hr⟩
    · rcases ih hs' hq with ⟨c', h, h'⟩ | ⟨ms, r, r', h, h', hr⟩
      · exact Or.inl ⟨c', by rw [serve, h]; rfl, by rw [serve, h']; rfl⟩
      · exact Or.inr ⟨m :: ms, r, r', by rw [serve, h]; rfl, by rw [serve, h']; rfl, hr⟩

/-! ## Playing -/

omit [DecidableEq I] in
/-- **A process plays against its own inbox only.** -/
theorem Proc.play_congr {p : Proc C M E α} {i : I} (hp : p.Owned src dst i) {q q' : C → List M}
    (hq : ∀ c, dst c = i → q c = q' c) : p.play q = p.play q' := by
  induction p generalizing q q' with
  | ret a => rfl
  | exit e => rfl
  | comm sends recvs k ih =>
    have hr : ∀ c ∈ (recvs.map fun c => ((c, none) : Slot C M)).map Prod.fst, dst c = i := by
      intro c hc
      exact hp.2.1 c (by simpa using hc)
    rcases serve_congr hr hq with ⟨c, h, h'⟩ | ⟨ms, r, r', h, h', hrr⟩
    · simp only [play, h, h']
    · simp only [play, h, h', ih ms (hp.2.2 ms) hrr]

omit [DecidableEq I] in
theorem Local.play_congr {l : Local C M E α} {i : I} (hl : l.Owned src dst i) {q q' : C → List M}
    (hq : ∀ c, dst c = i → q c = q' c) : l.play q = l.play q' := by
  cases l with
  | run p => exact Proc.play_congr hl hq
  | wait sent slots k =>
    rcases serve_congr hl.2.1 hq with ⟨c, h, h'⟩ | ⟨ms, r, r', h, h', hrr⟩
    · simp only [play, h, h']
    · simp only [play, h, h', Proc.play_congr (hl.2.2 ms) hrr]

/-- Posting moves the sends of a block out of its play. -/
theorem Proc.play_comm (sends : List (C × M)) (recvs : List C) (k : List M → Proc C M E α)
    (q : C → List M) : (Proc.comm sends recvs k).play q
      = (((Local.wait (sends.map Prod.fst) (recvs.map fun c => (c, none)) k).play q).1,
        sends ++
          ((Local.wait (sends.map Prod.fst) (recvs.map fun c => (c, none)) k).play q).2) := by
  rw [play, Local.play]
  cases serve (recvs.map fun c => (c, none)) q with
  | error c => simp
  | ok r => rfl

/-- **A process posts no more than `l`**, in this order, whatever it is sent. -/
def Proc.Posts (p : Proc C M E α) (l : List (C × M)) : Prop := ∀ q, (p.play q).2 <+: l

namespace Proc.Posts

variable {l : List (C × M)}

theorem ret (a : α) (l : List (C × M)) : (Proc.ret a : Proc C M E α).Posts l :=
  fun _ => List.nil_prefix

theorem exit (e : E) (l : List (C × M)) : (Proc.exit e : Proc C M E α).Posts l :=
  fun _ => List.nil_prefix

theorem comm (sends : List (C × M)) (recvs : List C) {k : List M → Proc C M E α}
    (hk : ∀ ms, (k ms).Posts l) : (Proc.comm sends recvs k).Posts (sends ++ l) := by
  intro q
  rw [play]
  split
  · exact List.prefix_append _ _
  · rename_i ms q' _
    exact (List.prefix_append_right_inj sends).mpr (hk ms q')

end Proc.Posts

omit [DecidableEq I] in
/-- What a process posts, it posts on its own channels. -/
theorem Proc.Owned.src_of_mem_play {p : Proc C M E α} {i : I} (hp : p.Owned src dst i)
    {q : C → List M} {m : C × M} (hm : m ∈ (p.play q).2) : src m.1 = i := by
  induction p generalizing q with
  | ret a => exact absurd hm List.not_mem_nil
  | exit e => exact absurd hm List.not_mem_nil
  | comm sends recvs k ih =>
    rw [play] at hm
    split at hm
    · exact hp.1 m hm
    · rcases List.mem_append.mp hm with h | h
      exacts [hp.1 m h, ih _ (hp.2.2 _) h]

/-- A block posts its sends first. -/
theorem Proc.exists_play_comm (sends : List (C × M)) (recvs : List C) (k : List M → Proc C M E α)
    (q : C → List M) : ∃ t, ((Proc.comm sends recvs k).play q).2 = sends ++ t := by
  rw [play]
  split
  · exact ⟨[], (List.append_nil _).symm⟩
  · exact ⟨_, rfl⟩

/-! ## The invariant of a run

What a process has posted, followed by what it would still post against the messages now under way
and any later ones, is what it posts against all of them. -/

/-- `Played p s posted`: state `s` is where the processes `p` are after having posted `posted`. -/
def Played (src : C → I) (p : I → Proc C M E α) (s : Net I C M E α) (posted : I → List (C × M)) :
    Prop :=
  (∀ (i : I) (ext : C → List M), (p i).play (fun c => s.log c ++ ext c)
      = (((s.loc i).play fun c => s.queue c ++ ext c).1,
        posted i ++ ((s.loc i).play fun c => s.queue c ++ ext c).2)) ∧
    ∀ c, s.log c = msgsOn c (posted (src c))

variable {p : I → Proc C M E α} {s t : Net I C M E α}

omit [DecidableEq I] in
theorem Played.init : Played src p (Net.init p) fun _ => [] :=
  ⟨fun _ _ => rfl, fun _ => rfl⟩

/-- **A step keeps the invariant.** -/
theorem Played.step {posted : I → List (C × M)} (hp : Played src p s posted)
    (ho : s.Owned src dst) (h : Step .buffered s t) : ∃ posted', Played src p t posted' := by
  obtain ⟨hplay, hlog⟩ := hp
  cases h with
  | @post i sends recvs k hl =>
    have hsends : ∀ x ∈ sends, src x.1 = i := by have hi := ho i; rw [hl] at hi; exact hi.1
    refine ⟨update posted i (posted i ++ sends), fun j ext => ?_, fun c => ?_⟩
    · have hj := hplay j fun c => msgsOn c sends ++ ext c
      simp only [Net.post, enqueue, List.append_assoc] at hj ⊢
      rw [hj]
      by_cases hji : j = i
      · subst hji
        rw [update_self, update_self, hl, Local.play, Proc.play_comm, List.append_assoc]
      · rw [update_of_ne hji, update_of_ne hji]
    · by_cases hc : src c = i
      · subst hc
        rw [update_self, msgsOn_append, ← hlog]; rfl
      · rw [update_of_ne hc, ← hlog]
        exact enqueue_of_src_ne hsends hc
  | @deliver i sent slots slots' k c m q hl hq hf =>
    refine ⟨posted, fun j ext => ?_, hlog⟩
    have hj := hplay j ext
    have hi := ho i
    rw [hl] at hi
    have hci : dst c = i :=
      hi.2.1 c (List.mem_map.mpr ⟨_, fill_isSome_iff.mp (by rw [hf]; rfl), rfl⟩)
    have hupd : (fun d => update s.queue c q d ++ ext d)
        = update (fun d => s.queue d ++ ext d) c (q ++ ext c) := by
      funext d
      by_cases hd : d = c
      · subst hd; rw [update_self, update_self]
      · rw [update_of_ne hd, update_of_ne hd]
    simp only [Net.deliver]
    rw [hj]
    by_cases hji : j = i
    · subst hji
      have hs := serve_fill (q := fun d => s.queue d ++ ext d) hf (by rw [hq, List.cons_append])
      simp only [update_self, hl, Local.play, hs, hupd]
    · have hoj : (s.loc j).Owned src dst j := ho j
      have hsame : ∀ d, dst d = j → s.queue d ++ ext d = update s.queue c q d ++ ext d := by
        intro d hd
        rw [update_of_ne]
        rintro rfl
        exact hji (hd.symm.trans hci)
      rw [update_of_ne hji, Local.play_congr hoj hsame]
  | @finish i sent slots k vs hl hv hs =>
    refine ⟨posted, fun j ext => ?_, hlog⟩
    have hj := hplay j ext
    simp only [Net.setLoc]
    rw [hj]
    by_cases hji : j = i
    · subst hji
      simp only [update_self, hl, Local.play, serve_values hv]
    · rw [update_of_ne hji]

/-- **Every state of a run satisfies the invariant.** -/
theorem Star.played (hp : ∀ i, (p i).Owned src dst i) (h : Star .buffered (Net.init p) s) :
    ∃ posted, Played src p s posted := by
  induction h with
  | refl => exact ⟨_, Played.init⟩
  | tail hr hstep ih =>
    obtain ⟨posted, hposted⟩ := ih
    exact hposted.step (Star.owned hr (Net.owned_init hp)) hstep

/-- **Where a process stands for good**: it has returned or exited, or it waits for a message on a
channel with none. -/
def Net.EndsAt (s : Net I C M E α) (i : I) : Outcome C E α → Prop
  | .returned a => s.loc i = .run (.ret a)
  | .exited e => s.loc i = .run (.exit e)
  | .waits c => ∃ sent slots k, s.loc i = .wait sent slots k ∧ (c, none) ∈ slots ∧ s.queue c = []

omit [DecidableEq I] [DecidableEq C] in
/-- A process ends in one way. -/
theorem Net.EndsAt.returned_inj {i : I} {o : Outcome C E α} {a : α} (ho : s.EndsAt i o)
    (ha : s.loc i = .run (.ret a)) : o = .returned a := by
  cases o with
  | returned b =>
    obtain rfl := Proc.ret.inj (Local.run.inj (ha.symm.trans ho))
    rfl
  | exited e => cases ha.symm.trans ho
  | waits c =>
    obtain ⟨sent, slots, k, hl, -⟩ := ho
    cases ha.symm.trans hl

omit [DecidableEq I] [DecidableEq C] in
/-- The same for an exit. -/
theorem Net.EndsAt.exited_inj {i : I} {o : Outcome C E α} {e : E} (ho : s.EndsAt i o)
    (he : s.loc i = .run (.exit e)) : o = .exited e := by
  cases o with
  | returned b => cases he.symm.trans ho
  | exited e' =>
    obtain rfl := Proc.exit.inj (Local.run.inj (he.symm.trans ho))
    rfl
  | waits c =>
    obtain ⟨sent, slots, k, hl, -⟩ := ho
    cases he.symm.trans hl

/-- A process that can do nothing has nothing left to play. -/
theorem Net.Terminal.play (ht : s.Terminal .buffered) (i : I) :
    ∃ o, s.EndsAt i o ∧ (s.loc i).play s.queue = (o, []) := by
  cases hl : s.loc i with
  | run p =>
    cases p with
    | ret a => exact ⟨.returned a, hl, rfl⟩
    | exit e => exact ⟨.exited e, hl, rfl⟩
    | comm sends recvs k => exact absurd (.post i hl) (ht _)
  | wait sent slots k =>
    have hv : values slots = none := by
      cases hv : values slots with
      | none => rfl
      | some vs => exact absurd (.finish i hl hv (by simp)) (ht _)
    have hq : ∀ c, (c, none) ∈ slots → s.queue c = [] := by
      intro c hc
      cases hqc : s.queue c with
      | nil => rfl
      | cons m rest =>
        obtain ⟨slots', hf⟩ := Option.isSome_iff_exists.mp (fill_isSome_iff.mpr hc)
        exact absurd (.deliver i hl hqc hf) (ht _)
    obtain ⟨c, hc, hs⟩ := serve_eq_error hv hq
    exact ⟨.waits c, ⟨sent, slots, k, hl, hc, hq c hc⟩, by simp only [Local.play, hs]⟩

/-- **The end of a run**: where a run can go no further, each process ends as its play against the
log does, and the log is what these plays post. -/
theorem Star.play (hp : ∀ i, (p i).Owned src dst i) (h : Star .buffered (Net.init p) s)
    (ht : s.Terminal .buffered) :
    (∀ i, s.EndsAt i ((p i).play s.log).1) ∧
      ∀ c, s.log c = msgsOn c ((p (src c)).play s.log).2 := by
  obtain ⟨posted, hplay, hlog⟩ := h.played hp
  have key : ∀ i, ∃ o, s.EndsAt i o ∧ (p i).play s.log = (o, posted i) := by
    intro i
    obtain ⟨o, ho, hl⟩ := ht.play i
    have hi := hplay i fun _ => []
    simp only [List.append_nil] at hi
    exact ⟨o, ho, by rw [hi, hl, List.append_nil]⟩
  refine ⟨fun i => ?_, fun c => ?_⟩
  · obtain ⟨o, ho, hi⟩ := key i
    rwa [hi]
  · obtain ⟨o, -, hi⟩ := key (src c)
    rw [hi, ← hlog]

/-! ## Finished runs -/

variable {mode : SendMode}

/-- What can happen with blocking sends can happen with buffered ones. -/
theorem Step.buffered (h : Step mode s t) : Step .buffered s t := by
  cases h with
  | post i hl => exact .post i hl
  | deliver i hl hq hf => exact .deliver i hl hq hf
  | finish i hl hv hs => exact .finish i hl hv (by simp)

theorem Star.buffered (h : Star mode s t) : Star .buffered s t := by
  induction h with
  | refl => exact .refl
  | tail _ h ih => exact ih.tail h.buffered

/-- **A finished run is one of plays that all return**, under either mode. -/
theorem Runs.play {a : I → α} {h : C → List M} (hr : Runs mode p a h)
    (hp : ∀ i, (p i).Owned src dst i) :
    (∀ i, ((p i).play h).1 = .returned (a i)) ∧ ∀ c, h c = msgsOn c ((p (src c)).play h).2 := by
  have hplay := Star.play hp (Star.buffered hr) (Net.terminal_returned a h)
  exact ⟨fun i => (hplay.1 i).returned_inj rfl, hplay.2⟩

/-! ## Waiting for good -/

end Machinery
