import TvaMpc.Machinery.Tape
import TvaMpc.Protocols.Replicated3pcRuns
import Mathlib.Tactic.Abel

/-!
# Protocols/Replicated3pcPrivacy — what a party sees of the others' shares

Party `i` holds the key streams `i` and `i - 1`.  What it receives in a gate comes from party `i -
1` and is masked by the stream `i + 1`, which it does not hold; moving that stream by the difference
of the two messages makes any two runs that start from the same components look the same.
-/

namespace Tva.Replicated3pc

open Machinery

variable {n : ℕ} {d : DataType} {mode : SendMode} {Γ Δ ts : List Ty}

/-- The parties' keys: stream `i` is shared by party `i` and its successor. -/
def keyPairs (own K : Fin 3 → ℕ → Word d) (i : Fin 3) : KeyPair d := ⟨K i, K (i - 1), own i⟩

/-- What the channel `id` makes of the two keys. -/
def combine (id : ℕ) (a b : Vec n d) : Vec n d := fun j => if id = 2 then a j - b j else a j ^^^ b j

theorem mask_keyPairs (id n : ℕ) (own K : Fin 3 → ℕ → Word d) (i : Fin 3) :
    mask d id n (keyPairs own K i) = combine id (heads n K i) (heads n K (i - 1)) := by
  funext j
  refine (fillNums_apply ..).trans ?_
  rw [if_pos j.isLt, KeyPair.afterDraw_iterate]
  simp only [KeyPair.draw, keyPairs, combine, heads, Nat.zero_add]

theorem afterNext_keyPairs (id n : ℕ) (own K : Fin 3 → ℕ → Word d) (i : Fin 3) :
    afterNext d id n (keyPairs own K i) = keyPairs own (tails n K) i :=
  (fillNums_state _ _ _ _).trans (KeyPair.afterDraw_iterate ..)

/-- **The second key hides the inputs of a gate**: other inputs give the same component for another
second key. -/
def Hidden (id : ℕ) (cross : EVector 2 n d → EVector 2 n d → Vec n d → Vec n d) : Prop :=
  ∀ x y x' y', ∃ σ : Equiv.Perm (Vec n d), ∀ a b,
    cross x y (combine id a b) = cross x' y' (combine id a (σ b))

/-- Replacing `c` by `c'` is undone by moving `b`. -/
theorem shift_cancel {A : Type} [AddCommGroup A] (a b c c' : A) :
    c + (a - b) = c' + (a - (b + (c' - c))) := by abel

theorem hidden_multiplyA :
    Hidden (n := n) (d := d) 2 fun x y r => x 0 * y 0 + x 0 * y 1 + x 1 * y 0 + r := by
  intro x y x' y'
  let c := x 0 * y 0 + x 0 * y 1 + x 1 * y 0
  let c' := x' 0 * y' 0 + x' 0 * y' 1 + x' 1 * y' 0
  have hsub : ∀ a b : Vec n d, combine 2 a b = a - b := fun _ _ => rfl
  refine ⟨Equiv.addRight (c' - c), fun a b => ?_⟩
  rw [hsub, hsub]
  exact shift_cancel a b c c'

theorem hidden_andB : Hidden (n := n) (d := d) 5 fun x y r =>
    (x 0 &&& y 0) ^^^ (x 0 &&& y 1) ^^^ (x 1 &&& y 0) ^^^ r := by
  intro x y x' y'
  let c := (x 0 &&& y 0) ^^^ (x 0 &&& y 1) ^^^ (x 1 &&& y 0)
  let c' := (x' 0 &&& y' 0) ^^^ (x' 0 &&& y' 1) ^^^ (x' 1 &&& y' 0)
  have hxor : ∀ a b : Vec n d, combine 5 a b = a ^^^ b := fun _ _ => rfl
  refine ⟨Equiv.addRight (G := Fin n → BoolWord d) (c' ^^^ c), fun a b => ?_⟩
  rw [hxor, hxor]
  exact shift_cancel (A := Fin n → BoolWord d) a b c c'

/-! ## Steps -/

section Steps

variable {own : Fin 3 → ℕ → Word d} {p : Fin 3}

theorem stepAlike_gate {id : ℕ} {cross : EVector 2 n d → EVector 2 n d → Vec n d → Vec n d}
    (hcross : Hidden id cross) {x y x' y' : Fin 3 → EVector 2 n d} (hx : x p = x' p)
    (hy : y p = y' p) : StepAlike mode Channel.dest (keyPairs own) p (p + 1) n
      (fun i => gate id cross i (x i) (y i)) (fun i => gate id cross i (x' i) (y' i))
      fun z z' => z p = z' p := by
  -- the component of party `i`, and the messages, as functions of the keys that are read
  let share (x y : Fin 3 → EVector 2 n d) (κ : Fin 3 → Fin n → Word d) (i : Fin 3) : Vec n d :=
    cross (x i) (y i) (combine id (κ i) (κ (i - 1)))
  have hyields : ∀ (x y : Fin 3 → EVector 2 n d) (K : Fin 3 → ℕ → Word d),
      Yields mode (fun i => gate id cross i (x i) (y i)) (keyPairs own K)
        (fun i => ![share x y (heads n K) i, share x y (heads n K) (i - 1)])
        (keyPairs own (tails n K)) (exchangeLog (share x y (heads n K)) 1) := by
    intro x y K
    have hshare : share x y (heads n K) = gateShare id cross x y (keyPairs own K) :=
      funext fun i => by rw [gateShare, mask_keyPairs]
    have hafter : keyPairs own (tails n K) = fun i => afterNext d id n (keyPairs own K i) :=
      funext fun i => (afterNext_keyPairs id n own K i).symm
    rw [hshare, hafter]
    exact yields_gate id cross x y
  obtain ⟨σ, hσ⟩ := hcross (x (p - 1)) (y (p - 1)) (x' (p - 1)) (y' (p - 1))
  have hne : ∀ p : Fin 3, p ≠ p + 1 ∧ p - 1 ≠ p + 1 ∧ p - 1 - 1 = p + 1 := by decide
  have hself : ∀ κ, share x y κ p = share x' y' (onTape (p + 1) σ κ) p := fun κ => by
    simp only [share, hx, hy, moves_onTape σ κ p (hne p).1, moves_onTape σ κ (p - 1) (hne p).2.1]
  have hprev : ∀ κ, share x y κ (p - 1) = share x' y' (onTape (p + 1) σ κ) (p - 1) := fun κ => by
    simp only [share, moves_onTape σ κ (p - 1) (hne p).2.1, (hne p).2.2, onTape_self]
    exact hσ _ _
  refine ⟨σ, fun κ i => ![share x y κ i, share x y κ (i - 1)],
    fun κ i => ![share x' y' κ i, share x' y' κ (i - 1)], fun κ => exchangeLog (share x y κ) 1,
    fun κ => exchangeLog (share x' y' κ) 1, hyields x y, hyields x' y',
    fun κ => ⟨?_, fun c hc => ?_⟩⟩
  · exact congrArg₂ (fun a b => ![a, b]) (hself κ) (hprev κ)
  · subst hc
    simp only [exchangeLog, roundLog]
    split
    · rename_i hch
      have hsrc : c.source = c.dest - 1 := by
        rw [← hch, partyIndex_one]
        exact (add_sub_cancel_right c.source 1).symm
      rw [hsrc, hprev]
    · rfl

/-- The steps that compute in one of the two rings. -/
def IsRing {Γ ts : List Ty} : Op 3 d Γ ts → Prop
  | .addA _ _ | .subA _ _ | .negA _ | .multiplyA _ _ | .xorB _ _ | .andB _ _ | .notB _ => True
  | _ => False

/-- Every step in the rings looks the same from the same components. -/
theorem stepAlike_op {op : Op 3 d Γ ts} (hop : IsRing op) {e e' : Fin 3 → Env (Ty.Share 2 d) Γ}
    (he : e p = e' p) : ∃ n, StepAlike mode Channel.dest (keyPairs own) p (p + 1) n
      (fun i => op.run (protocol d (KeyPair d) i) (e i))
      (fun i => op.run (protocol d (KeyPair d) i) (e' i)) fun a a' => a p = a' p := by
  have hvar : ∀ {t : Ty} (x : Var Γ t), e p x = e' p x := fun x => by rw [he]
  cases op with
  | addA x y => exact ⟨0, .pure _ (by simp only [hvar])⟩
  | subA x y => exact ⟨0, .pure _ (by simp only [hvar])⟩
  | negA x => exact ⟨0, .pure _ (by simp only [hvar])⟩
  | xorB x y => exact ⟨0, .pure _ (by simp only [hvar])⟩
  | notB x => exact ⟨0, .pure _ (by simp only [hvar])⟩
  | multiplyA x y =>
    exact ⟨_, (stepAlike_gate hidden_multiplyA (hvar x) (hvar y)).bind_pure
      fun _ _ h => congrArg Env.one h⟩
  | andB x y =>
    exact ⟨_, (stepAlike_gate hidden_andB (hvar x) (hvar y)).bind_pure
      fun _ _ h => congrArg Env.one h⟩
  | _ => exact hop.elim

/-- **The run lemma**: programs in the rings look the same from the same components. -/
theorem alike_program {prog : Program 3 d Γ Δ} (hprog : prog.All IsRing)
    {e e' : Fin 3 → Env (Ty.Share 2 d) Γ} (he : e p = e' p) :
    Alike mode Channel.dest (keyPairs own) p (p + 1)
      (fun i => prog.run (protocol d (KeyPair d) i) (e i))
      (fun i => prog.run (protocol d (KeyPair d) i) (e' i)) fun a a' => a p = a' p := by
  induction prog with
  | done => exact .pure he
  | step op rest ih =>
    obtain ⟨n, hop⟩ := stepAlike_op hprog.1 he
    exact Alike.bind hop fun out out' hout => ih hprog.2 (by simp only [hout, he])

end Steps

/-- **A party learns nothing about the components it does not hold**: for two assignments of input
shares with the same components at `p` there is a permutation of the key stream `p + 1`, the one `p`
does not hold, under which every run gives `p` the same messages and the same components of all
variables. -/
theorem view_independent (p : Fin 3) (prog : Program 3 d Γ Δ) (hprog : prog.All IsRing)
    (e e' : Fin 3 → Env (Ty.Share 2 d) Γ) (he : e p = e' p) (own : Fin 3 → ℕ → Word d) :
    ∃ Φ : Equiv.Perm (Fin 3 → ℕ → Word d), (∀ K i, i ≠ p + 1 → Φ K i = K i) ∧ ∀ K,
      Finishes mode
        (fun i => (prog.run (protocol d (KeyPair d) i) (e i)).run (keyPairs own K i)) fun a h =>
      Finishes mode
        (fun i => (prog.run (protocol d (KeyPair d) i) (e' i)).run (keyPairs own (Φ K) i))
        fun a' h' => (a p).1 = (a' p).1 ∧ ∀ c, c.dest = p → h c = h' c := by
  obtain ⟨Φ, hmoves, halike⟩ : Alike mode Channel.dest (keyPairs own) p (p + 1) _ _ _ :=
    alike_program hprog he
  refine ⟨Φ, hmoves, fun K => ?_⟩
  obtain ⟨a, g, h, a', g', h', hy, hy', hout, hview⟩ := halike K
  have hown : ∀ (i : Fin 3) (e : Env (Ty.Share 2 d) Γ), OwnedBy i
      (prog.run (protocol d (KeyPair d) i) e) := fun i e => (ownedBy_protocol i).program prog e
  exact Runs.finishes hy (fun i => hown i _ _)
    (Runs.finishes hy' (fun i => hown i _ _) ⟨hout, hview⟩)

/-- The square of one variable. -/
def squareProgram : Program 3 .int8_t [.arith 1] [.arith 1, .arith 1] :=
  .step (.multiplyA .here .here) .done

/-- One element with the components `s`. -/
def oneShare (s : Fin 3 → Word .int8_t) (i : Fin 3) : Env (Ty.Share 2 .int8_t) [.arith 1] :=
  Env.one ![fun _ => s i, fun _ => s (i - 1)]

/-- Party `0` cannot tell a shared `6` from a shared `11`. -/
theorem view_independent_square : ∃ Φ : Equiv.Perm (Fin 3 → ℕ → Word .int8_t),
    (∀ K i, i ≠ 1 → Φ K i = K i) ∧ ∀ K,
      Finishes .rendezvous (fun i => (squareProgram.run (protocol .int8_t (KeyPair .int8_t) i)
        (oneShare ![1, 2, 3] i)).run (keyPairs (fun _ _ => 0) K i)) fun a h =>
      Finishes .rendezvous (fun i => (squareProgram.run (protocol .int8_t (KeyPair .int8_t) i)
        (oneShare ![1, 7, 3] i)).run (keyPairs (fun _ _ => 0) (Φ K) i)) fun a' h' =>
      (a 0).1 = (a' 0).1 ∧ ∀ c, c.dest = 0 → h c = h' c :=
  view_independent 0 squareProgram ⟨trivial, trivial⟩ (oneShare ![1, 2, 3])
    (oneShare ![1, 7, 3]) rfl _

end Tva.Replicated3pc
