import TvaMpc.Machinery.Tape

/-!
# Machinery/Hiding — code that hides what others have

Two runs are `Indistinguishable` to party `p` if there is a permutation of the tapes that `p` does
not read under which the messages to `p` agree.  `Hides m m'` says that this is kept before all that
may follow: so it composes (`Hides.bind`, `Hides.foldlM`), for code that reads any tapes in any
order.  A step that reads its tapes once is all there is to look into (`Hides.of_draw`).
-/

namespace Machinery

universe u

/-! ## Cutting some of the tapes -/

section Cut

variable {J X W : Type*} {secret : J → Prop}

/-- `Φ` changes only secret tapes. -/
def MovesOnly (secret : J → Prop) (Φ : Equiv.Perm (J → X)) : Prop :=
  ∀ K j, ¬secret j → Φ K j = K j

variable (B : J → Prop) [DecidablePred B] (n : ℕ)

/-- The first `n` cells of the tapes in `B`. -/
def headsOn (K : J → ℕ → W) : {j // B j} → Fin n → W := fun j t => K j t

/-- What is left when these are read. -/
def tailsOn (K : J → ℕ → W) : J → ℕ → W := fun j t => if B j then K j (t + n) else K j t

section Tails

variable {B n} {K : J → ℕ → W} {j : J}

theorem tailsOn_of_mem (hj : B j) : tailsOn B n K j = fun t => K j (t + n) := by
  ext t
  exact if_pos hj

theorem tailsOn_of_not_mem (hj : ¬B j) : tailsOn B n K j = K j := by
  ext t
  exact if_neg hj

end Tails

/-- Cut the tapes in `B` after `n` cells. -/
def cutOn : (J → ℕ → W) ≃ ({j // B j} → Fin n → W) × (J → ℕ → W) where
  toFun K := (headsOn B n K, tailsOn B n K)
  invFun x j t :=
    if hj : B j then if ht : t < n then x.1 ⟨j, hj⟩ ⟨t, ht⟩ else x.2 j (t - n) else x.2 j t
  left_inv K := by
    ext j t
    by_cases hj : B j
    swap
    · simp [hj, tailsOn]
    by_cases ht : t < n
    · simp [hj, ht, headsOn]
    · simp [hj, ht, tailsOn, Nat.sub_add_cancel (not_lt.mp ht)]
  right_inv x := by
    refine Prod.ext ?_ ?_
    · ext j t
      simp [headsOn, j.2]
    · ext j t
      by_cases hj : B j <;> simp [tailsOn, hj]

variable {B n} {σ : Equiv.Perm ({j // B j} → Fin n → W)}
variable {Φ : ({j // B j} → Fin n → W) → Equiv.Perm (J → ℕ → W)}

/-- **A permutation along the run**: `σ` on what is read, and a permutation of the rest that depends
on it. -/
def alongOn (σ : Equiv.Perm ({j // B j} → Fin n → W))
    (Φ : ({j // B j} → Fin n → W) → Equiv.Perm (J → ℕ → W)) : Equiv.Perm (J → ℕ → W) :=
  (cutOn B n).trans ((Equiv.prodShear σ Φ).trans (cutOn B n).symm)

theorem cutOn_alongOn (K : J → ℕ → W) :
    cutOn B n (alongOn σ Φ K) = (σ (headsOn B n K), Φ (headsOn B n K) (tailsOn B n K)) :=
  (cutOn B n).apply_symm_apply _

theorem headsOn_alongOn (K : J → ℕ → W) : headsOn B n (alongOn σ Φ K) = σ (headsOn B n K) :=
  congrArg Prod.fst (cutOn_alongOn K)

theorem tailsOn_alongOn (K : J → ℕ → W) :
    tailsOn B n (alongOn σ Φ K) = Φ (headsOn B n K) (tailsOn B n K) :=
  congrArg Prod.snd (cutOn_alongOn K)

theorem movesOnly_alongOn (hσ : ∀ κ j, ¬secret j.1 → σ κ j = κ j)
    (hΦ : ∀ κ, MovesOnly secret (Φ κ)) : MovesOnly secret (alongOn σ Φ) := by
  intro K j hj
  have htail : tailsOn B n (alongOn σ Φ K) j = tailsOn B n K j := by
    rw [tailsOn_alongOn, hΦ _ _ j hj]
  ext t
  by_cases hB : B j
  swap
  · simpa [tailsOn, hB] using congrFun htail t
  have hhead : headsOn B n (alongOn σ Φ K) ⟨j, hB⟩ = headsOn B n K ⟨j, hB⟩ := by
    rw [headsOn_alongOn, hσ _ _ hj]
  by_cases ht : t < n
  · exact congrFun hhead ⟨t, ht⟩
  · simpa [tailsOn, hB, Nat.sub_add_cancel (not_lt.mp ht)] using congrFun htail (t - n)

end Cut

/-! ## Runs that look the same -/

section Hiding

variable {I J W : Type*} {C M E G α β X : Type u} [DecidableEq I] [DecidableEq C]

/-- What code may do from the states of the parties, and what it sends. -/
abbrev Behaviour (I : Type*) (G C M X : Type u) := (I → G) → X → (C → List M) → Prop

/-- `m`, and then what follows. -/
def Sequel (mode : SendMode) (m : I → Party G C M E α) (k : (I → α) → Behaviour I G C M X) :
    Behaviour I G C M X := fun g x h =>
  ∃ a g' h₁ h₂, Yields mode m g a g' h₁ ∧ k a g' x h₂ ∧ h = fun c => h₁ c ++ h₂ c

/-- **The behaviours look the same to `p`** and are related, under a permutation of secret tapes. -/
def Indistinguishable (dst : C → I) (keys : (J → ℕ → W) → I → G) (p : I) (secret : J → Prop)
    (T T' : Behaviour I G C M X) (R : X → X → Prop) : Prop :=
  ∃ Φ : Equiv.Perm (J → ℕ → W), MovesOnly secret Φ ∧ ∀ K, ∃ x h x' h',
    T (keys K) x h ∧ T' (keys (Φ K)) x' h' ∧ R x x' ∧ SameView dst p h h'

/-- **`m` and `m'` hide all but what is at `p`**: what follows equal results at `p` looks the same
after them if it does by itself. -/
def Hides (mode : SendMode) (dst : C → I) (keys : (J → ℕ → W) → I → G) (p : I)
    (secret : J → Prop) (m m' : I → Party G C M E α) : Prop :=
  ∀ (X : Type u) (k k' : (I → α) → Behaviour I G C M X) (R : X → X → Prop),
    (∀ a a', a p = a' p → Indistinguishable dst keys p secret (k a) (k' a') R) →
    Indistinguishable dst keys p secret (Sequel mode m k) (Sequel mode m' k') R

variable {mode : SendMode} {dst : C → I} {keys : (J → ℕ → W) → I → G} {p : I} {secret : J → Prop}
variable {T T' S S' : Behaviour I G C M X} {R : X → X → Prop} {m m' : I → Party G C M E α}

omit [DecidableEq I] [DecidableEq C] in
theorem Indistinguishable.mono (h : Indistinguishable dst keys p secret T T' R)
    (hT : ∀ g x h, T g x h → S g x h) (hT' : ∀ g x h, T' g x h → S' g x h) :
    Indistinguishable dst keys p secret S S' R := by
  obtain ⟨Φ, hmoves, hΦ⟩ := h
  refine ⟨Φ, hmoves, fun K => ?_⟩
  obtain ⟨x, h, x', h', hx, hx', hR, hview⟩ := hΦ K
  exact ⟨x, h, x', h', hT _ _ _ hx, hT' _ _ _ hx', hR, hview⟩

namespace Hides

theorem pure {a a' : I → α} (h : a p = a' p) :
    Hides mode dst keys p secret (fun i => (Pure.pure (a i) : Party G C M E α))
      (fun i => Pure.pure (a' i)) := fun _ _ _ _ hk =>
  (hk a a' h).mono (fun _ _ _ hx => ⟨a, _, _, _, .pure a, hx, rfl⟩)
    fun _ _ _ hx => ⟨a', _, _, _, .pure a', hx, rfl⟩

theorem sequel_bind {f : I → α → Party G C M E β} {k : (I → β) → Behaviour I G C M X} {g : I → G}
    {x : X} {h : C → List M}
    (hx : Sequel mode m (fun a => Sequel mode (fun i => f i (a i)) k) g x h) :
    Sequel mode (fun i => m i >>= f i) k g x h := by
  obtain ⟨a, g₁, h₁, h', hm, ⟨b, g₂, h₂, h₃, hf, hk, rfl⟩, rfl⟩ := hx
  exact ⟨b, g₂, _, h₃, hm.bind hf, hk, by simp only [List.append_assoc]⟩

/-- The rule for sequencing. -/
theorem bind {f f' : I → α → Party G C M E β} (hm : Hides mode dst keys p secret m m')
    (hf : ∀ a a' : I → α, a p = a' p →
      Hides mode dst keys p secret (fun i => f i (a i)) fun i => f' i (a' i)) :
    Hides mode dst keys p secret (fun i => m i >>= f i) fun i => m' i >>= f' i :=
  fun X k k' R hk => (hm X _ _ R fun a a' ha => hf a a' ha X k k' R hk).mono
    (fun _ _ _ hx => sequel_bind hx) fun _ _ _ hx => sequel_bind hx

/-- **A loop over a list.** -/
theorem foldlM {γ : Type u} {f f' : I → α → γ → Party G C M E α} {l : List γ} {a a' : I → α}
    (h : a p = a' p) (step : ∀ x ∈ l, ∀ a a' : I → α, a p = a' p →
      Hides mode dst keys p secret (fun i => f i (a i) x) fun i => f' i (a' i) x) :
    Hides mode dst keys p secret (fun i => l.foldlM (f i) (a i)) fun i =>
      l.foldlM (f' i) (a' i) := by
  induction l generalizing a a' with
  | nil => exact pure h
  | cons x l ih =>
    simp only [List.foldlM_cons]
    exact (step x (.head _) a a' h).bind fun b b' hb => ih hb fun y hy => step y (.tail _ hy)

/-- **A step that reads `n` cells of the tapes in `B`** hides if a permutation of these makes up for
the difference. -/
theorem of_draw {B : J → Prop} [DecidablePred B] {n : ℕ} (σ : Equiv.Perm ({j // B j} → Fin n → W))
    (hσ : ∀ κ j, ¬secret j.1 → σ κ j = κ j) (a a' : ({j // B j} → Fin n → W) → I → α)
    (h h' : ({j // B j} → Fin n → W) → C → List M)
    (hy : ∀ K, Yields mode m (keys K) (a (headsOn B n K)) (keys (tailsOn B n K))
      (h (headsOn B n K)))
    (hy' : ∀ K, Yields mode m' (keys K) (a' (headsOn B n K)) (keys (tailsOn B n K))
      (h' (headsOn B n K)))
    (hp : ∀ κ, a κ p = a' (σ κ) p) (hview : ∀ κ, SameView dst p (h κ) (h' (σ κ))) :
    Hides mode dst keys p secret m m' := by
  intro X k k' R hk
  -- what follows starts from what was read, so its permutation is chosen for each reading
  choose Φ hmoves hrest using fun κ => hk _ _ (hp κ)
  refine ⟨alongOn σ Φ, movesOnly_alongOn hσ hmoves, fun K => ?_⟩
  obtain ⟨x, h₂, x', h₂', hx, hx', hR, hview₂⟩ := hrest (headsOn B n K) (tailsOn B n K)
  have hm' := hy' (alongOn σ Φ K)
  rw [headsOn_alongOn, tailsOn_alongOn] at hm'
  refine ⟨x, _, x', _, ⟨_, _, _, _, hy K, hx, rfl⟩, ⟨_, _, _, _, hm', hx', rfl⟩, hR, ?_⟩
  exact fun c hc => congrArg₂ (· ++ ·) (hview (headsOn B n K) c hc) (hview₂ c hc)

end Hides

end Hiding

end Machinery
