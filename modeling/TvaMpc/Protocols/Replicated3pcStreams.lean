import TvaMpc.Protocols.Replicated3pcOrder
import Mathlib.Algebra.BigOperators.Fin
import Mathlib.Algebra.BigOperators.Pi
import Mathlib.Tactic.Abel

/-!
# Protocols/Replicated3pcStreams — what keeps the zero sharings in step

With pairwise shared seeds the masks of the three parties cancel as long as all have drawn equally
much.  A division makes the parties `0` and `2` draw twice its length, and party `1` nothing;
`masks_cancel_iff` says for every sequence of calls what that does to the masks after it.
-/

namespace Tva.Replicated3pc

open Machinery Function PseudoRandomGenerator

variable {S : Type} {nrand48 : S → BitVec 64 × S} {n : ℕ} {d : DataType} {mode : SendMode}
variable {Γ Δ : List Ty}

/-- Element `t` of the stream that a seed generates, cut to the width. -/
def stream (nrand48 : S → BitVec 64 × S) (d : DataType) (s : S) (t : ℕ) : Word d :=
  (nrand48 ((nextSeed nrand48)^[t] s)).1.setWidth d.bits

theorem stream_add (s : S) (t T : ℕ) :
    stream nrand48 d ((nextSeed nrand48)^[T] s) t = stream nrand48 d s (T + t) := by
  rw [stream, stream, ← iterate_add_apply, Nat.add_comm]

theorem setWidth_sub {w v : ℕ} (hv : v ≤ w) (x y : BitVec w) :
    (x - y).setWidth v = x.setWidth v - y.setWidth v := by
  refine eq_sub_of_add_eq ?_
  rw [← BitVec.setWidth_add _ _ hv, sub_add_cancel]

/-! ## Draws -/

section Draw

variable {g : PseudoRandomGenerator nrand48}

/-- What channel `2` yields is the difference of the two shared streams. -/
theorem mask_two (j : Fin n) : mask d 2 n g j
    = stream nrand48 d (g.seeds 1) j - stream nrand48 d (g.seeds 2) j := by
  refine (fillNums_apply ..).trans ?_
  rw [if_pos j.isLt, PseudoRandomGenerator.draw, seeds_afterDraw]
  exact setWidth_sub (by cases d <;> decide) _ _

/-- What the other channels yield is their `^`. -/
theorem mask_of_ne_two {id : ℕ} (hid : id ≠ 2) (j : Fin n) : mask d id n g j
    = stream nrand48 d (g.seeds 1) j ^^^ stream nrand48 d (g.seeds 2) j := by
  refine (fillNums_apply ..).trans ?_
  rw [if_pos j.isLt, PseudoRandomGenerator.draw, seeds_afterDraw, if_neg hid, ite_self]
  exact BitVec.setWidth_xor

theorem mask_five (j : Fin n) : mask d 5 n g j
    = stream nrand48 d (g.seeds 1) j ^^^ stream nrand48 d (g.seeds 2) j :=
  mask_of_ne_two (by decide) j

end Draw

/-! ## Masks after a sequence of calls -/

/-- Party `i` has drawn `t` elements from its shared seeds since it was in state `g i`. -/
def DrawnSince (g : Fin 3 → PseudoRandomGenerator nrand48) (i : Fin 3) (t : ℕ)
    (g' : PseudoRandomGenerator nrand48) : Prop :=
  g'.seeds 1 = (nextSeed nrand48)^[t] ((g i).seeds 1) ∧
    g'.seeds 2 = (nextSeed nrand48)^[t] ((g i).seeds 2)

theorem counts_drawnSince (g : Fin 3 → PseudoRandomGenerator nrand48) :
    Counts d (DrawnSince g) where
  next {i t g'} id n h := by
    have hstate : (afterNext d id n g').seeds
        = ![g'.seeds 0, (nextSeed nrand48)^[n] (g'.seeds 1),
          (nextSeed nrand48)^[n] (g'.seeds 2)] := by
      rw [← seeds_afterDraw (d := d) id, ← fillNums_state]
      rfl
    rw [DrawnSince, hstate, Nat.add_comm, iterate_add_apply, iterate_add_apply, ← h.1, ← h.2]
    exact ⟨rfl, rfl⟩
  random {i t g'} n h := by
    have hstate : afterRandom d n g' = (afterDraw (PseudoRandomGenerator.drawRandom d))^[n] g' :=
      fillNums_state _ _ _ _
    rw [DrawnSince, hstate, (seeds_afterDrawRandom n).1, (seeds_afterDrawRandom n).2]
    exact h

/-- **The masks cancel**: what the parties draw for a product adds up to zero, and what they draw
for a boolean product cancels under `^`, at every size. -/
def MasksCancel (d : DataType) (g : Fin 3 → PseudoRandomGenerator nrand48) : Prop :=
  ∀ n, ∑ i, mask d 2 n (g i) = 0 ∧ mask d 5 n (g 0) ^^^ mask d 5 n (g 1) ^^^ mask d 5 n (g 2) = 0

/-- Two streams move equally, in both arithmetics, from any position after `T` to the same after
`T'`. -/
def MoveAlike (a b : ℕ → Word d) (T T' : ℕ) : Prop :=
  ∀ t, a (T' + t) - a (T + t) = b (T' + t) - b (T + t) ∧
    a (T' + t) ^^^ a (T + t) = b (T' + t) ^^^ b (T + t)

theorem moveAlike_self (a b : ℕ → Word d) (T : ℕ) : MoveAlike a b T T := fun t => by
  simp only [sub_self, BitVec.xor_self, and_self]

/-- Six terms around the ring, three of them in step. -/
theorem ring_cancel_iff {A : Type} [AddCommGroup A] (a a' b b' c : A) :
    (a' - c) + (b - a) + (c - b') = 0 ↔ a' - a = b' - b := by
  rw [← sub_eq_zero (a := a' - a)]
  have h : a' - c + (b - a) + (c - b') = a' - a - (b' - b) := by abel
  rw [h]

theorem xor_cancel_iff (a a' b b' c : Word d) :
    (a' ^^^ c) ^^^ (b ^^^ a) ^^^ (c ^^^ b') = 0 ↔ a' ^^^ a = b' ^^^ b :=
  @ring_cancel_iff (Word d) (boolRing d).toAddCommGroup a a' b b' c

theorem progDraws_two (prog : Prog (Call 3 d) Γ Δ) : progDraws 2 prog = progDraws 0 prog := by
  induction prog with
  | done => rfl
  | step call rest ih => exact congrArg₂ (· + ·) rfl ih

/-- Without divisions of non-empty vectors, all parties draw equally much. -/
theorem progDraws_one {prog : Prog (Call 3 d) Γ Δ} (hp : prog.All fun call => divDraws call = 0) :
    progDraws 1 prog = progDraws 0 prog := by
  induction prog with
  | done => rfl
  | step call rest ih =>
    have hcall : partyDraws 1 call = partyDraws 0 call := by
      simp only [partyDraws, show divDraws call = 0 from hp.1, ite_self]
    rw [progDraws, progDraws, hcall, ih hp.2]

theorem masksCancel_iff {g g' : Fin 3 → PseudoRandomGenerator nrand48}
    (hshared : ∀ i, (g i).seeds 1 = (g (i + 1)).seeds 2) {T : Fin 3 → ℕ} (hT : T 2 = T 0)
    (hg' : Drew (DrawnSince g) T g') :
    MasksCancel d g' ↔ MoveAlike (stream nrand48 d ((g 0).seeds 1))
      (stream nrand48 d ((g 1).seeds 1)) (T 1) (T 0) := by
  have h0 : (g 0).seeds 2 = (g 2).seeds 1 := (hshared 2).symm
  have h1 : (g 1).seeds 2 = (g 0).seeds 1 := (hshared 0).symm
  have h2 : (g 2).seeds 2 = (g 1).seeds 1 := (hshared 1).symm
  have hseeds : ∀ i, (g' i).seeds 1 = (nextSeed nrand48)^[T i] ((g i).seeds 1) ∧
    (g' i).seeds 2 = (nextSeed nrand48)^[T i] ((g i).seeds 2) := hg'
  let a := stream nrand48 d ((g 0).seeds 1)
  let b := stream nrand48 d ((g 1).seeds 1)
  have hA : ∀ n (j : Fin n), (∑ i, mask d 2 n (g' i)) j = 0 ↔
      a (T 0 + j) - a (T 1 + j) = b (T 0 + j) - b (T 1 + j) := fun n j => by
    rw [Finset.sum_apply, Fin.sum_univ_three, mask_two, mask_two, mask_two]
    simp only [(hseeds _).1, (hseeds _).2, stream_add, h0, h1, h2, hT]
    exact ring_cancel_iff ..
  have hB : ∀ n (j : Fin n), (mask d 5 n (g' 0) ^^^ mask d 5 n (g' 1) ^^^ mask d 5 n (g' 2)) j = 0 ↔
      a (T 0 + j) ^^^ a (T 1 + j) = b (T 0 + j) ^^^ b (T 1 + j) := fun n j => by
    rw [Vec.xor_apply, Vec.xor_apply, mask_five, mask_five, mask_five]
    simp only [(hseeds _).1, (hseeds _).2, stream_add, h0, h1, h2, hT]
    exact xor_cancel_iff ..
  constructor
  · intro h t
    have ht := h (t + 1)
    exact ⟨(hA (t + 1) (Fin.last t)).mp (congrFun ht.1 _),
      (hB (t + 1) (Fin.last t)).mp (congrFun ht.2 _)⟩
  · exact fun h n => ⟨funext fun j => (hA n j).mpr (h j).1, funext fun j => (hB n j).mpr (h j).2⟩

/-- The masks after a sequence of calls, whatever the interleaving. -/
theorem finishes_masksCancel_iff (g : Fin 3 → PseudoRandomGenerator nrand48)
    (hshared : ∀ i, (g i).seeds 1 = (g (i + 1)).seeds 2) (prog : Prog (Call 3 d) Γ Δ)
    (e : Fin 3 → Env (Ty.Share 2 d) Γ) (htraps : TrapFree mode prog e g) :
    Finishes mode (fun i => (prog.run (Call.run (protocol d _ i)) (e i)).run (g i)) fun a _ =>
      (MasksCancel d fun i => (a i).2) ↔ MoveAlike (stream nrand48 d ((g 0).seeds 1))
        (stream nrand48 d ((g 1).seeds 1)) (progDraws 1 prog) (progDraws 0 prog) := by
  have hstart : Drew (DrawnSince g) (fun _ => 0) g := fun i => ⟨rfl, rfl⟩
  have hdraws : Ensures mode (fun i => prog.run (Call.run (protocol d _ i)) (e i)) g fun _ g' _ =>
      Drew (DrawnSince g) (fun i => 0 + progDraws i prog) g' :=
    ensures_calls (counts_drawnSince g) hstart prog htraps
  simp only [Nat.zero_add] at hdraws
  exact (hdraws.mono fun _ _ _ hg' => masksCancel_iff hshared (progDraws_two prog) hg').finishes
    fun i => Prog.owned_run (ownedBy_protocol i).call prog (e i)

/-- **When the masks stay in step**: after a sequence of calls, none of which traps, all later masks
cancel exactly if the streams of the parties `0` and `1` move alike from the position of party `1`
to that of party `0` — in particular if no non-empty vector was divided. -/
theorem masks_cancel_iff (g : Fin 3 → PseudoRandomGenerator nrand48)
    (hshared : ∀ i, (g i).seeds 1 = (g (i + 1)).seeds 2) (prog : Prog (Call 3 d) Γ Δ)
    (e : Fin 3 → Env (Ty.Share 2 d) Γ) (htraps : TrapFree mode prog e g) :
    Finishes mode (fun i => (prog.run (Call.run (protocol d _ i)) (e i)).run (g i)) fun a _ =>
      ((MasksCancel d fun i => (a i).2) ↔ MoveAlike (stream nrand48 d ((g 0).seeds 1))
        (stream nrand48 d ((g 1).seeds 1)) (progDraws 1 prog) (progDraws 0 prog)) ∧
      ((prog.All fun call => divDraws call = 0) → MasksCancel d fun i => (a i).2) := by
  refine (finishes_masksCancel_iff g hshared prog e htraps).mono fun a h hiff =>
    ⟨hiff, fun hp => hiff.mpr ?_⟩
  rw [progDraws_one hp]
  exact moveAlike_self _ _ _

/-- Always the same number. -/
def steady (s : BitVec 64) : BitVec 64 × BitVec 64 := (s, s)

/-- The three pairs of parties share the seeds `1`, `2` and `3`. -/
def steadySeeds (i : Fin 3) : PseudoRandomGenerator steady where
  seeds := ![![0, 1, 3], ![0, 2, 1], ![0, 3, 2]] i

theorem stream_steady (s : BitVec 64) (t : ℕ) :
    stream steady .int8_t s t = s.setWidth DataType.int8_t.bits := by
  have hfixed : (nextSeed steady)^[t] s = s := Function.iterate_fixed rfl t
  rw [stream, hfixed, steady]

theorem safeCall_division {c : Word .int8_t} (hc : SafeDivisor c) :
    (divisionProgram c).All SafeCall := ⟨hc, trivial⟩

/-- Steady streams move alike: the masks still cancel after a division. -/
theorem masks_cancel_steady : Finishes .rendezvous (fun i => ((divisionProgram 2).run
      (Call.run (protocol .int8_t _ i)) (zeroShares i)).run (steadySeeds i)) fun a _ =>
    MasksCancel .int8_t fun i => (a i).2 := by
  have halike : MoveAlike (stream steady .int8_t ((steadySeeds 0).seeds 1))
      (stream steady .int8_t ((steadySeeds 1).seeds 1)) 0 2 := fun t => by
    simp only [stream_steady, sub_self, BitVec.xor_self, and_self]
  exact (masks_cancel_iff steadySeeds (by decide) (divisionProgram 2) zeroShares
    (trapFree_of_safe (safeCall_division (by decide)) _ _)).mono fun _ _ h => h.1.mpr halike

/-- Yield the seed, and double it. -/
def doubling (s : BitVec 64) : BitVec 64 × BitVec 64 := (s, s + s)

/-- The parties `0` and `1` share the seed `1`, the other pairs the seed `0`. -/
def doublingSeeds (i : Fin 3) : PseudoRandomGenerator doubling where
  seeds := ![![0, 1, 0], ![0, 0, 1], ![0, 0, 0]] i

/-- After the division, party `0` is two elements ahead of party `1`: the masks of the next product
add up to `4 - 1`. -/
theorem masks_differ_after_division : ¬ Finishes .rendezvous (fun i => ((divisionProgram 2).run
      (Call.run (protocol .int8_t _ i)) (zeroShares i)).run (doublingSeeds i)) fun a _ =>
    MasksCancel .int8_t fun i => (a i).2 := by
  intro h
  obtain ⟨a, k, hr, hcancel⟩ := h.runs
  have hiff := finishes_masksCancel_iff doublingSeeds (by decide) (divisionProgram 2) zeroShares
    (trapFree_of_safe (safeCall_division (by decide)) _ _)
    (Net.returned a k) hr (Net.terminal_returned a k)
  obtain ⟨a', k', he, hiff⟩ := hiff
  obtain ⟨rfl, rfl⟩ := Net.returned_inj he
  exact absurd (hiff.mp hcancel 0).1 (by decide)

end Tva.Replicated3pc
