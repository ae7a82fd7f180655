import TvaMpc.Machinery.Straightline

/-!
# Machinery/Label — which send a receive was matched with

`Proc.label l` puts the label `l` on every message a process sends, and stops the process at a
message that carries another one.  With its own label on every part of a sequence, a finished run
says that each receive got a message of its own part.

Labels are ghosts: a run of processes is a run of the labelled ones (`Runs.label`), with the same
results and the same messages.
-/

namespace Machinery

open Function

universe u v

section Process

variable {L C M E : Type u} {α β : Type v}

/-- Put the label `l` on every message sent and expect it on every message received. -/
def Proc.label (l : L) [DecidableEq L] : Proc C M E α → Proc C (L × M) (Option E) α
  | ret a => .ret a
  | exit e => .exit (some e)
  | comm sends recvs k => .comm (sends.map fun s => (s.1, l, s.2)) recvs fun ms =>
      if ∀ m ∈ ms, m.1 = l then (k (ms.map Prod.snd)).label l else .exit none

variable [DecidableEq L] {l : L}

theorem Proc.Owned.label {I : Type*} {src dst : C → I} {i : I} {p : Proc C M E α}
    (hp : p.Owned src dst i) : (p.label l).Owned src dst i := by
  induction p with
  | ret a => trivial
  | exit e => trivial
  | comm sends recvs k ih =>
    refine ⟨fun s hs => ?_, hp.2.1, fun ms => ?_⟩
    · obtain ⟨x, hx, rfl⟩ := List.mem_map.mp hs
      exact hp.1 x hx
    · beta_reduce
      split
      · exact ih _ (hp.2.2 _)
      · trivial

/-- The labelled process wherever it stands. -/
def Local.label (l : L) : Local C M E α → Local C (L × M) (Option E) α
  | .run p => .run (p.label l)
  | .wait sent slots k => .wait sent (slots.map fun s => (s.1, s.2.map (l, ·))) fun ms =>
      if ∀ m ∈ ms, m.1 = l then (k (ms.map Prod.snd)).label l else .exit none

/-- The labelled network. -/
def Net.label {I : Type*} (l : L) (s : Net I C M E α) : Net I C (L × M) (Option E) α :=
  ⟨fun i => (s.loc i).label l, fun c => (s.queue c).map (l, ·), fun c => (s.log c).map (l, ·)⟩

omit [DecidableEq L] in
theorem values_label (slots : List (Slot C M)) :
    values (slots.map fun s => (s.1, s.2.map (l, ·))) = (values slots).map (List.map (l, ·)) := by
  induction slots with
  | nil => rfl
  | cons s slots ih =>
    obtain ⟨c, _ | m⟩ := s
    · rfl
    · rw [List.map_cons, values, ih]
      cases h : values slots <;> simp [values, h]

end Process

section Steps

variable {I : Type*} {L C M E : Type u} {α : Type v} [DecidableEq I] [DecidableEq C] [DecidableEq L]
variable {mode : SendMode} {l : L}

omit [DecidableEq I] [DecidableEq L] in
theorem msgsOn_label (c : C) (sends : List (C × M)) :
    msgsOn c (sends.map fun s => (s.1, l, s.2)) = (msgsOn c sends).map (l, ·) := by
  induction sends with
  | nil => rfl
  | cons s sends ih =>
    rw [List.map_cons, msgsOn_cons, msgsOn_cons, ih, List.map_append]
    split <;> rfl

omit [DecidableEq I] [DecidableEq L] in
theorem fill_label {c : C} {m : M} {slots slots' : List (Slot C M)}
    (h : fill c m slots = some slots') :
    fill c (l, m) (slots.map fun s => (s.1, s.2.map (l, ·)))
      = some (slots'.map fun s => (s.1, s.2.map (l, ·))) := by
  induction slots generalizing slots' with
  | nil => simp [fill] at h
  | cons s slots ih =>
    rcases em (s = (c, none)) with hs | hs
    · subst hs
      obtain rfl := Option.some.inj ((fill_cons_self c m slots).symm.trans h)
      exact fill_cons_self c (l, m) _
    · rw [fill_cons_of_ne hs, Option.map_eq_some_iff] at h
      obtain ⟨rest, hrest, rfl⟩ := h
      have hs' : (s.1, s.2.map fun m => (l, m)) ≠ (c, none) := by
        obtain ⟨d, _ | m'⟩ := s
        · exact fun e => hs (by rw [← (Prod.mk.inj e).1])
        · simp
      rw [List.map_cons, fill_cons_of_ne hs', ih hrest]
      rfl

omit [DecidableEq C] in
theorem label_update {s : Net I C M E α} {i : I} {x : Local C M E α} :
    (fun j => (update s.loc i x j).label l) = update (fun j => (s.loc j).label l) i (x.label l) :=
  funext fun j => apply_update (fun _ => Local.label l) s.loc i x j

theorem Step.label {s t : Net I C M E α} (h : Step mode s t) :
    Step mode (s.label l) (t.label l) := by
  cases h with
  | @post i sends recvs k hl =>
    have hq : ∀ q : C → List M, (fun c => (enqueue q sends c).map (l, ·))
        = enqueue (fun c => (q c).map (l, ·)) (sends.map fun s => (s.1, l, s.2)) := fun q => by
      funext c
      rw [enqueue, enqueue, List.map_append, msgsOn_label]
    have heq : (s.post i sends recvs k).label l = (s.label l).post i
        (sends.map fun s => (s.1, l, s.2)) recvs fun ms =>
          if ∀ m ∈ ms, m.1 = l then (k (ms.map Prod.snd)).label l else .exit none := by
      refine Net.ext (label_update.trans ?_) (hq s.queue) (hq s.log)
      simp [Local.label, Net.post, Net.label, Function.comp_def]
    rw [heq]
    exact .post i (congrArg (Local.label l) hl)
  | @deliver i sent slots slots' k c m q hl hq hf =>
    have heq : (s.deliver i (.wait sent slots' k) c q).label l
        = (s.label l).deliver i (Local.label l (.wait sent slots' k)) c (q.map (l, ·)) :=
      Net.ext label_update
        (funext fun d => apply_update (fun _ => List.map (l, ·)) s.queue c q d) rfl
    rw [heq]
    exact .deliver i (congrArg (Local.label l) hl) (m := (l, m))
      (congrArg (List.map (l, ·)) hq) (fill_label hf)
  | @finish i sent slots k vs hl hv hs =>
    have hall : ∀ m ∈ vs.map fun m => (l, m), m.1 = l := by simp
    have hvs : (vs.map fun m => (l, m)).map Prod.snd = vs := by simp [Function.comp_def]
    have heq : (s.setLoc i (.run (k vs))).label l = (s.label l).setLoc i (.run
        (if ∀ m ∈ vs.map fun m => (l, m), m.1 = l then
          (k ((vs.map fun m => (l, m)).map Prod.snd)).label l else .exit none)) := by
      rw [if_pos hall, hvs]
      exact Net.ext label_update rfl rfl
    rw [heq]
    refine .finish (s := s.label l) (k := fun ms =>
      if ∀ m ∈ ms, m.1 = l then (k (ms.map Prod.snd)).label l else .exit none)
      i (congrArg (Local.label l) hl) ?_ fun hm c hc => ?_
    · rw [values_label, hv]
      rfl
    · exact List.map_eq_nil_iff.mpr (hs hm c hc)

/-- **Labels do not matter for what happens**: a finished run is one of the labelled processes. -/
theorem Runs.label {p : I → Proc C M E α} {a : I → α} {h : C → List M} (hr : Runs mode p a h)
    (l : L) : Runs mode (fun i => (p i).label l) a fun c => (h c).map (l, ·) := by
  have hstar : ∀ {s t : Net I C M E α}, Star mode s t → Star mode (s.label l) (t.label l) := by
    intro s t hst
    induction hst with
    | refl => exact .refl
    | tail _ hstep ih => exact ih.tail hstep.label
  exact hstar hr

end Steps

/-! ## Programs -/

section Programs

variable {I C M E G α : Type} [DecidableEq I] [DecidableEq C] {mode : SendMode}

/-- The labelled code of a party. -/
def Party.label (l : ℕ) (m : Party G C M E α) : Party G C (ℕ × M) (Option E) α :=
  fun g => (m.run g).label l

omit [DecidableEq I] [DecidableEq C] in
theorem Party.Owned.label {src dst : C → I} {i : I} {l : ℕ} {m : Party G C M E α}
    (hm : Party.Owned src dst i m) : Party.Owned src dst i (m.label l) := fun g => (hm g).label

variable {T : Type} {Op : List T → List T → Type} {V : T → Type} {Γ Δ : List T}

/-- One party's run of a program with the position of an operation as the label of its messages. -/
def Prog.runLabelled (f : ∀ {Γ ts : List T}, Op Γ ts → Env V Γ → Party G C M E (Env V ts))
    (prog : Prog Op Γ Δ) (e : Env V Γ) : Party G C (ℕ × M) (Option E) (Env V Δ) :=
  (prog.number 0).run (fun {_ _} (op : ℕ × Op _ _) e => (f op.2 e).label op.1) e

omit [DecidableEq I] [DecidableEq C] in
theorem Prog.owned_runLabelled {src dst : C → I} {i : I}
    {f : ∀ {Γ ts : List T}, Op Γ ts → Env V Γ → Party G C M E (Env V ts)}
    (hf : ∀ {Γ ts : List T} (op : Op Γ ts) (e : Env V Γ), Party.Owned src dst i (f op e))
    (prog : Prog Op Γ Δ) (e : Env V Γ) : Party.Owned src dst i (prog.runLabelled f e) :=
  Prog.owned_run (fun (op : ℕ × Op _ _) e => (hf op.2 e).label) (prog.number 0) e

/-- **Operations that finish together finish in sequence**, if their inputs meet the condition all
along, and every receive is matched with a message of its own operation. -/
theorem Prog.yields_labelled
    {f : I → ∀ {Γ ts : List T}, Op Γ ts → Env V Γ → Party G C M E (Env V ts)}
    {P : ∀ {Γ ts : List T}, Op Γ ts → (I → Env V Γ) → Prop}
    (hf : ∀ {Γ ts : List T} (op : Op Γ ts) (e : I → Env V Γ) (g : I → G), P op e →
      ∃ a g' h, Yields mode (fun i => f i op (e i)) g a g' h)
    (prog : Prog Op Γ Δ) (e : I → Env V Γ) (g : I → G) (hp : prog.Along mode f P e g) :
    ∃ a g' h, Yields mode (fun i => prog.runLabelled (f i) (e i)) g a g' h ∧
      Yields mode (fun i => prog.run (f i) (e i)) g a g' fun c => (h c).map Prod.snd := by
  unfold runLabelled
  generalize 0 = l
  induction prog generalizing l g with
  | done => exact ⟨e, g, _, .pure e, .pure e⟩
  | step op rest ih =>
    obtain ⟨out, g₁, h₁, hop⟩ := hf op e g hp.1
    obtain ⟨a, g₂, h₂, hlab, hrest⟩ :=
      ih (fun i => (out i).append (e i)) g₁ (hp.2 out g₁ h₁ hop) (l + 1)
    refine ⟨a, g₂, _, Yields.bind (hop.label l) hlab, ?_⟩
    have hmap : (fun c => ((h₁ c).map (l, ·) ++ h₂ c).map Prod.snd)
        = fun c => h₁ c ++ (h₂ c).map Prod.snd := by
      simp [Function.comp_def]
    rw [hmap]
    exact Yields.bind (f := fun i (out : Env V _) => rest.run (f i) (out.append (e i))) hop hrest

end Programs

end Machinery
