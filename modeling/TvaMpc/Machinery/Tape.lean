import TvaMpc.Machinery.Triple
import Mathlib.Logic.Equiv.Prod

/-!
# Machinery/Tape — two runs that one party cannot tell apart

Processes read random tapes, cell by cell.  Two runs look the same to party `p` up to a permutation
of the one tape `q` that `p` does not read: `Alike` asks for a bijection of the tapes, moving `q`
only, under which the messages to `p` agree.

The bijection is built along the run (`Alike.bind`): a step that reads `n` cells moves these, and
what it moves the rest of the tape by may depend on what was read.
-/

namespace Machinery

universe u

variable {J X W : Type*} {n : ℕ} {q : J}

/-! ## Permutations of one tape -/

/-- `Φ` changes only the tape `q`. -/
def Moves (q : J) (Φ : Equiv.Perm (J → X)) : Prop := ∀ K j, j ≠ q → Φ K j = K j

/-- Permute the tape `q` by `σ`. -/
def onTape [DecidableEq J] (q : J) (σ : Equiv.Perm X) : Equiv.Perm (J → X) :=
  Equiv.piCongrRight fun j => if j = q then σ else Equiv.refl X

theorem onTape_self [DecidableEq J] (σ : Equiv.Perm X) (K : J → X) : onTape q σ K q = σ (K q) := by
  simp [onTape]

theorem moves_onTape [DecidableEq J] (σ : Equiv.Perm X) : Moves q (onTape q σ) := fun K j hj => by
  simp [onTape, hj]

/-- The first `n` cells of every tape. -/
def heads (n : ℕ) (K : J → ℕ → W) : J → Fin n → W := fun j t => K j t

/-- What is left of them. -/
def tails (n : ℕ) (K : J → ℕ → W) : J → ℕ → W := fun j t => K j (t + n)

/-- Cut all tapes after `n` cells. -/
def cut (n : ℕ) : (J → ℕ → W) ≃ (J → Fin n → W) × (J → ℕ → W) where
  toFun K := (heads n K, tails n K)
  invFun x j t := if h : t < n then x.1 j ⟨t, h⟩ else x.2 j (t - n)
  left_inv K := by
    funext j t
    by_cases h : t < n
    · exact dif_pos h
    · exact (dif_neg h).trans (congrArg (K j) (Nat.sub_add_cancel (not_lt.mp h)))
  right_inv x := by
    have hle : ∀ t, ¬ t + n < n := fun t => Nat.not_lt.mpr (Nat.le_add_left n t)
    refine Prod.ext (funext fun j => funext fun t => dif_pos t.isLt)
      (funext fun j => funext fun t => ?_)
    exact (dif_neg (hle t)).trans (congrArg (x.2 j) (Nat.add_sub_cancel ..))

/-- **A permutation along the run**: `σ` on the first `n` cells of `q`, and a permutation of the
rest that depends on the cells before it. -/
def along [DecidableEq J] (q : J) (σ : Equiv.Perm (Fin n → W))
    (Φ : (J → Fin n → W) → Equiv.Perm (J → ℕ → W)) : Equiv.Perm (J → ℕ → W) :=
  (cut n).trans ((Equiv.prodShear (onTape q σ) Φ).trans (cut n).symm)

section Along

variable [DecidableEq J] {σ : Equiv.Perm (Fin n → W)} {Φ : (J → Fin n → W) → Equiv.Perm (J → ℕ → W)}

theorem cut_along (K : J → ℕ → W) :
    cut n (along q σ Φ K) = (onTape q σ (heads n K), Φ (heads n K) (tails n K)) :=
  (cut n).apply_symm_apply _

theorem heads_along (K : J → ℕ → W) : heads n (along q σ Φ K) = onTape q σ (heads n K) :=
  congrArg Prod.fst (cut_along K)

theorem tails_along (K : J → ℕ → W) : tails n (along q σ Φ K) = Φ (heads n K) (tails n K) :=
  congrArg Prod.snd (cut_along K)

theorem moves_along (hΦ : ∀ κ, Moves q (Φ κ)) : Moves q (along q σ Φ) := by
  intro K j hj
  have hhead : heads n (along q σ Φ K) j = heads n K j := by
    rw [heads_along, moves_onTape σ _ j hj]
  have htail : tails n (along q σ Φ K) j = tails n K j := by
    rw [tails_along, hΦ _ _ j hj]
  funext t
  by_cases h : t < n
  · exact congrFun hhead ⟨t, h⟩
  · have ht := congrFun htail (t - n)
    rwa [tails, tails, Nat.sub_add_cancel (not_lt.mp h)] at ht

end Along

/-! ## Two runs -/

section TwoRuns

variable {I : Type*} {C M E G α β : Type u} [DecidableEq I] [DecidableEq C] [DecidableEq J]
variable {mode : SendMode} {dst : C → I} {keys : (J → ℕ → W) → I → G} {p : I}
variable {m m' : I → Party G C M E α} {Rel : (I → α) → (I → α) → Prop}

/-- The same messages went to party `p`. -/
def SameView (dst : C → I) (p : I) (h h' : C → List M) : Prop := ∀ c, dst c = p → h c = h' c

/-- **The two runs look the same to `p`**, and end in results related by `Rel`, under a permutation
of the tape `q`. -/
def Alike (mode : SendMode) (dst : C → I) (keys : (J → ℕ → W) → I → G) (p : I) (q : J)
    (m m' : I → Party G C M E α) (Rel : (I → α) → (I → α) → Prop) : Prop :=
  ∃ Φ : Equiv.Perm (J → ℕ → W), Moves q Φ ∧ ∀ K, ∃ a g h a' g' h',
    Yields mode m (keys K) a g h ∧ Yields mode m' (keys (Φ K)) a' g' h' ∧ Rel a a' ∧
      SameView dst p h h'

/-- The same for a step that reads `n` cells of every tape, as a statement about these cells. -/
def StepAlike (mode : SendMode) (dst : C → I) (keys : (J → ℕ → W) → I → G) (p : I) (q : J) (n : ℕ)
    (m m' : I → Party G C M E α) (Rel : (I → α) → (I → α) → Prop) : Prop :=
  ∃ (σ : Equiv.Perm (Fin n → W)) (a a' : (J → Fin n → W) → I → α)
    (h h' : (J → Fin n → W) → C → List M),
    (∀ K, Yields mode m (keys K) (a (heads n K)) (keys (tails n K)) (h (heads n K))) ∧
    (∀ K, Yields mode m' (keys K) (a' (heads n K)) (keys (tails n K)) (h' (heads n K))) ∧
    ∀ κ, Rel (a κ) (a' (onTape q σ κ)) ∧ SameView dst p (h κ) (h' (onTape q σ κ))

omit [DecidableEq J] in
theorem Alike.pure {a a' : I → α} (hrel : Rel a a') :
    Alike mode dst keys p q (fun i => (Pure.pure (a i) : Party G C M E α))
      (fun i => Pure.pure (a' i)) Rel :=
  ⟨Equiv.refl _, fun _ _ _ => rfl, fun _ =>
    ⟨a, _, _, a', _, _, .pure a, .pure a', hrel, fun _ _ => rfl⟩⟩

variable (keys) in
/-- A step that reads and sends nothing. -/
theorem StepAlike.pure {a a' : I → α} (hrel : Rel a a') :
    StepAlike mode dst keys p q 0 (fun i => (Pure.pure (a i) : Party G C M E α))
      (fun i => Pure.pure (a' i)) Rel :=
  ⟨Equiv.refl _, fun _ => a, fun _ => a', fun _ _ => [], fun _ _ => [], fun _ => .pure a,
    fun _ => .pure a', fun _ => ⟨hrel, fun _ _ => rfl⟩⟩

theorem StepAlike.bind_pure {f : α → β} {R : (I → β) → (I → β) → Prop}
    (hm : StepAlike mode dst keys p q n m m' Rel)
    (hR : ∀ a a', Rel a a' → R (fun i => f (a i)) fun i => f (a' i)) :
    StepAlike mode dst keys p q n (fun i => m i >>= fun x => Pure.pure (f x))
      (fun i => m' i >>= fun x => Pure.pure (f x)) R :=
  let ⟨σ, a, a', h, h', hy, hy', hstep⟩ := hm
  ⟨σ, fun κ i => f (a κ i), fun κ i => f (a' κ i), h, h', fun K => (hy K).bind_pure,
    fun K => (hy' K).bind_pure, fun κ => ⟨hR _ _ (hstep κ).1, (hstep κ).2⟩⟩

/-- **A step, and then the rest.** -/
theorem Alike.bind {f f' : I → α → Party G C M E β} {R : (I → β) → (I → β) → Prop}
    (hm : StepAlike mode dst keys p q n m m' Rel)
    (hf : ∀ a a', Rel a a' →
      Alike mode dst keys p q (fun i => f i (a i)) (fun i => f' i (a' i)) R) :
    Alike mode dst keys p q (fun i => m i >>= f i) (fun i => m' i >>= f' i) R := by
  obtain ⟨σ, a, a', h, h', hy, hy', hstep⟩ := hm
  -- the rest starts from what the step has read, so its permutation is chosen for each reading
  choose Φ hmoves hrest using fun κ => hf _ _ (hstep κ).1
  refine ⟨along q σ Φ, moves_along hmoves, fun K => ?_⟩
  obtain ⟨b, g, k, b', g', k', hb, hb', hR, hview⟩ := hrest (heads n K) (tails n K)
  have hm' := hy' (along q σ Φ K)
  rw [heads_along, tails_along] at hm'
  refine ⟨b, g, _, b', g', _, (hy K).bind hb, hm'.bind hb', hR, fun c hc => ?_⟩
  exact congrArg₂ (· ++ ·) ((hstep (heads n K)).2 c hc) (hview c hc)

end TwoRuns

end Machinery
