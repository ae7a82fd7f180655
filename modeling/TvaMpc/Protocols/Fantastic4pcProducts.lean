import TvaMpc.Machinery.Sharing
import TvaMpc.Protocols.Fantastic4pcRounds
import Mathlib.Tactic.LinearCombination
import Mathlib.Tactic.Ring

/-!
# Protocols/Fantastic4pcProducts — the algebra of the four-party products

Over any ring: which copies a party compares (`first_agree_iff`, `second_agree_iff`), and what the
masks must satisfy for the outputs to be a sharing of the product (`shares_gateOutput_iff`).
-/

namespace Tva.Fantastic4pc

open Machinery

/-- The columns `1` and `2` of party `i` hold the components of the parties `i + 1` and `i + 2`. -/
def layout (i : Fin 4) (k : Fin 3) : Fin 4 := ![i, i + 1, i + 2] k

variable {W : Type} [CommRing W] {n : ℕ} {x y : Fin 4 → Fin 3 → Fin n → W} {u v : Fin n → W}

theorem replicated_one (hx : Shares layout x v) (i : Fin 4) : x i 1 = x (i + 1) 0 :=
  hx.replicated i 1

theorem replicated_two (hx : Shares layout x v) (i : Fin 4) : x i 2 = x (i + 2) 0 :=
  hx.replicated i 2

theorem sum_eq (hx : Shares layout x v) : x 0 0 + x 1 0 + x 2 0 + x 3 0 = v := by
  rw [← hx.value, Fin.sum_univ_four]

theorem shares_of_sum (hone : ∀ i, x i 1 = x (i + 1) 0) (htwo : ∀ i, x i 2 = x (i + 2) 0)
    (hsum : x 0 0 + x 1 0 + x 2 0 + x 3 0 = v) : Shares layout x v where
  replicated i k := by
    fin_cases k
    · rfl
    · exact hone i
    · exact htwo i
  value := by rw [Fin.sum_univ_four, hsum]

/-- The sharing of zeros. -/
theorem shares_zero : Shares layout (fun _ _ => 0 : Fin 4 → Fin 3 → Fin n → W) 0 :=
  shares_of_sum (fun _ => rfl) (fun _ => rfl) (by simp)

/-! ## Cross terms -/

/-- The product of the components `i` and `j` with one another. -/
def cross (x y : Fin 4 → Fin 3 → Fin n → W) (i j : Fin 4) : Fin n → W :=
  x i 0 * y j 0 + x j 0 * y i 0

theorem cross_comm (i j : Fin 4) : cross x y i j = cross x y j i := add_comm _ _

/-- `masked` with the operators of a ring. -/
abbrev maskedIn (x y : Fin 3 → Fin n → W) (i j : Fin 3) (r : Fin n → W) : Fin n → W :=
  masked (· * ·) (· + ·) (· - ·) x y i j r

theorem masked_first (hx : Shares layout x u) (hy : Shares layout y v) (i : Fin 4) (r : Fin n → W) :
    maskedIn (x i) (y i) 0 1 r = cross x y i (i + 1) - r := by
  simp only [masked, cross, replicated_one hx, replicated_one hy]

theorem masked_hash (hx : Shares layout x u) (hy : Shares layout y v) (i : Fin 4) (r : Fin n → W) :
    maskedIn (x i) (y i) 1 2 r = cross x y (i + 1) (i + 2) - r := by
  simp only [masked, cross, replicated_one hx, replicated_one hy, replicated_two hx,
    replicated_two hy]

theorem masked_second (hx : Shares layout x u) (hy : Shares layout y v) (i : Fin 4)
    (r : Fin n → W) : maskedIn (x i) (y i) 0 2 r = cross x y i (i + 2) - r := by
  simp only [masked, cross, replicated_two hx, replicated_two hy]

/-- **The copies of the first round agree exactly if their masks do.** -/
theorem first_agree_iff (hx : Shares layout x u) (hy : Shares layout y v) (i : Fin 4)
    (r r' : Fin n → W) : maskedIn (x (i + 2)) (y (i + 2)) 0 1 r
      = maskedIn (x (i + 1)) (y (i + 1)) 1 2 r' ↔ r = r' := by
  have hidx : i + 1 + 1 = i + 2 ∧ i + 1 + 2 = i + 2 + 1 := by decide +revert
  rw [masked_first hx hy, masked_hash hx hy, hidx.1, hidx.2, sub_right_inj]

/-- **The copies of the second round agree exactly if their masks do.** -/
theorem second_agree_iff (hx : Shares layout x u) (hy : Shares layout y v) (i : Fin 4)
    (r r' : Fin n → W) : maskedIn (x (i + 1)) (y (i + 1)) 0 2 r
      = maskedIn (x (i + 3)) (y (i + 3)) 0 2 r' ↔ r = r' := by
  have hidx : i + 1 + 2 = i + 3 ∧ i + 3 + 2 = i + 1 := by decide +revert
  rw [masked_second hx hy, masked_second hx hy, hidx.1, hidx.2, cross_comm, sub_right_inj]

/-! ## Outputs -/

/-- The outputs of a product without accusations, from the messages of the other parties. -/
def outputs (x y : Fin 4 → Fin 3 → Fin n → W) (m : Fin 4 → Masks (Fin n → W)) (i : Fin 4) :
    Fin 3 → Fin n → W :=
  gateOutput (· * ·) (· + ·) (· - ·) i (x i) (y i) (m i)
    (maskedIn (x (i + 2)) (y (i + 2)) 0 1 (m (i + 2)).r11)
    (if i = 2 ∨ i = 3 then maskedIn (x (i + 1)) (y (i + 1)) 0 2 (m (i + 1)).r2 else 0)

section Outputs

variable {m : Fin 4 → Masks (Fin n → W)}

/-- The component that party `i` and its two predecessors ought to hold. -/
theorem outputs_eq (hx : Shares layout x u) (hy : Shares layout y v) :
    outputs x y m 0 = ![x 0 0 * y 0 0 + cross x y 0 1 + cross x y 0 2 - (m 0).r2 + (m 0).r23,
      x 1 0 * y 1 0 + cross x y 1 2 + (m 0).r2,
      x 2 0 * y 2 0 + cross x y 2 3 - (m 2).r11 + (m 0).r13] ∧
    outputs x y m 1 = ![x 1 0 * y 1 0 + cross x y 1 2 + (m 1).r23,
      x 2 0 * y 2 0 + cross x y 2 3 + (m 1).r2,
      x 3 0 * y 3 0 + cross x y 3 0 - (m 3).r11 + (m 1).r13 + cross x y 1 3 - (m 1).r2] ∧
    outputs x y m 2 = ![x 2 0 * y 2 0 + cross x y 2 3,
      x 3 0 * y 3 0 + cross x y 3 0 + cross x y 1 3 - (m 3).r2 + (m 2).r2,
      x 0 0 * y 0 0 + cross x y 0 1 - (m 0).r11 + (m 2).r13 + cross x y 0 2 - (m 2).r2] ∧
    outputs x y m 3 = ![x 3 0 * y 3 0 + cross x y 3 0 + cross x y 1 3 - (m 3).r2,
      x 0 0 * y 0 0 + cross x y 0 1 + cross x y 0 2 - (m 0).r2 + (m 3).r2,
      x 1 0 * y 1 0 + cross x y 1 2 - (m 1).r11 + (m 3).r13] := by
  have hidx : (0 : Fin 4) + 1 = 1 ∧ (0 : Fin 4) + 2 = 2 ∧ (0 : Fin 4) + 3 = 3 ∧
      (1 : Fin 4) + 1 = 2 ∧ (1 : Fin 4) + 2 = 3 ∧ (1 : Fin 4) + 3 = 0 ∧ (2 : Fin 4) + 1 = 3 ∧
      (2 : Fin 4) + 2 = 0 ∧ (2 : Fin 4) + 3 = 1 ∧ (3 : Fin 4) + 1 = 0 ∧ (3 : Fin 4) + 2 = 1 ∧
      (3 : Fin 4) + 3 = 2 := by decide
  refine ⟨?_, ?_, ?_, ?_⟩ <;> funext k <;> fin_cases k <;>
    simp [outputs, gateOutput, gateShares, masked_first hx hy, masked_hash hx hy,
      masked_second hx hy, replicated_one hx, replicated_one hy, replicated_two hx,
      replicated_two hy, hidx, cross_comm (x := x) (y := y) 3 1,
      cross_comm (x := x) (y := y) 2 0] <;> ring

/-- **When the outputs are a sharing of the product**: the masks of the first round are taken off
where they were put on, and there is none in the second round. -/
theorem shares_outputs_iff (hx : Shares layout x u) (hy : Shares layout y v) (h₀ : (m 0).r23 = 0)
    (h₃₁ : (m 3).r2 = (m 1).r2) (h₀₂ : (m 0).r2 = (m 2).r2) :
    Shares layout (outputs x y m) (u * v) ↔
      (∀ i, (m i).r13 = (m (i + 2)).r11) ∧ (∀ i, (m i).r2 = 0) ∧ (m 1).r23 = 0 := by
  obtain ⟨e₀, e₁, e₂, e₃⟩ := outputs_eq (m := m) hx hy
  constructor
  · intro h
    have h01 : outputs x y m 0 1 = outputs x y m 1 0 := h.replicated 0 1
    have h11 : outputs x y m 1 1 = outputs x y m 2 0 := h.replicated 1 1
    have h21 : outputs x y m 2 1 = outputs x y m 3 0 := h.replicated 2 1
    have h02 : outputs x y m 0 2 = outputs x y m 2 0 := h.replicated 0 2
    have h12 : outputs x y m 1 2 = outputs x y m 3 0 := h.replicated 1 2
    have h22 : outputs x y m 2 2 = outputs x y m 0 0 := h.replicated 2 2
    have h32 : outputs x y m 3 2 = outputs x y m 1 0 := h.replicated 3 2
    simp only [e₀, e₁, e₂, e₃, Matrix.cons_val] at h01 h11 h21 h02 h12 h22 h32
    have r1 : (m 1).r2 = 0 := by linear_combination h11
    have r2 : (m 2).r2 = 0 := by linear_combination h21
    have r0 : (m 0).r2 = 0 := h₀₂.trans r2
    have r3 : (m 3).r2 = 0 := h₃₁.trans r1
    have r23 : (m 1).r23 = 0 := by linear_combination r0 - h01
    refine ⟨fun i => ?_, fun i => ?_, r23⟩
    · fin_cases i
      · change (m 0).r13 = (m 2).r11
        linear_combination h02
      · change (m 1).r13 = (m 3).r11
        linear_combination h12 + r1 - r3
      · change (m 2).r13 = (m 0).r11
        linear_combination h22 + r2 - r0 + h₀
      · change (m 3).r13 = (m 1).r11
        linear_combination h32 + r23
    · fin_cases i
      exacts [r0, r1, r2, r3]
  · rintro ⟨hr13, hr2, hr23⟩
    have hr0 : (m 0).r13 = (m 2).r11 := hr13 0
    have hr1 : (m 1).r13 = (m 3).r11 := hr13 1
    have hr2' : (m 2).r13 = (m 0).r11 := hr13 2
    have hr3 : (m 3).r13 = (m 1).r11 := hr13 3
    refine shares_of_sum (fun i => ?_) (fun i => ?_) ?_
    · fin_cases i
      · change outputs x y m 0 1 = outputs x y m 1 0
        simp only [e₀, e₁, Matrix.cons_val, hr2, hr23]
      · change outputs x y m 1 1 = outputs x y m 2 0
        simp only [e₁, e₂, Matrix.cons_val, hr2, add_zero]
      · change outputs x y m 2 1 = outputs x y m 3 0
        simp only [e₂, e₃, Matrix.cons_val, hr2, add_zero]
      · change outputs x y m 3 1 = outputs x y m 0 0
        simp only [e₀, e₃, Matrix.cons_val, hr2, h₀]
    · fin_cases i
      · change outputs x y m 0 2 = outputs x y m 2 0
        simp only [e₀, e₂, Matrix.cons_val, hr0, sub_add_cancel]
      · change outputs x y m 1 2 = outputs x y m 3 0
        simp only [e₁, e₃, Matrix.cons_val, hr1, hr2, sub_add_cancel]
      · change outputs x y m 2 2 = outputs x y m 0 0
        simp only [e₀, e₂, Matrix.cons_val, hr2', hr2, h₀, sub_add_cancel, sub_zero, add_zero]
      · change outputs x y m 3 2 = outputs x y m 1 0
        simp only [e₁, e₃, Matrix.cons_val, hr3, hr23, sub_add_cancel, add_zero]
    · rw [← sum_eq hx, ← sum_eq hy]
      simp only [e₀, e₁, e₂, e₃, Matrix.cons_val, hr2, hr23, h₀, cross]
      ring

end Outputs

/-! ## Rings of words

`multiply_a` and `and_b` are one product over two rings. -/

/-- **A ring on the words of a type**, with the zero of the words. -/
structure WordRing (d : DataType) where
  ring : CommRing (Word d)
  zero_eq : ring.zero = (0 : Word d)

namespace WordRing

variable {n : ℕ} {d : DataType} {G : Type}

/-- Addition and multiplication. -/
def arith : WordRing d := ⟨inferInstance, rfl⟩

/-- `^` and `&`. -/
def bool : WordRing d := ⟨boolRing d, rfl⟩

variable (R : WordRing d)

abbrev mul (a b : Vec n d) : Vec n d := fun j => R.ring.mul (a j) (b j)

abbrev add (a b : Vec n d) : Vec n d := fun j => R.ring.add (a j) (b j)

abbrev sub (a b : Vec n d) : Vec n d := fun j => R.ring.sub (a j) (b j)

/-- The product of a ring at one party. -/
abbrev product [RandomGenerator G d] (k : Fin 4) (x y : EVector 3 n d) :
    PartyM 4 d G (EVector 3 n d) :=
  gate R.mul R.add R.sub k x y

/-- A sharing under the addition of a ring. -/
abbrev SharesIn (x : Fin 4 → EVector 3 n d) (v : Vec n d) : Prop :=
  @Shares (Word d) R.ring 4 3 n _ layout x v

theorem zero_vec : (fun _ => R.ring.zero : Vec n d) = 0 := funext fun _ => R.zero_eq

theorem shares_zero : R.SharesIn (fun _ _ => (0 : Vec n d)) 0 := by
  rw [← R.zero_vec]
  exact @Fantastic4pc.shares_zero (Word d) R.ring n

/-- The outputs of a product without accusations. -/
abbrev output (x y : Fin 4 → EVector 3 n d) (m : Fin 4 → Masks (Vec n d)) :
    Fin 4 → EVector 3 n d := fun i =>
  gateOutput R.mul R.add R.sub i (x i) (y i) (m i)
    (masked R.mul R.add R.sub (x (i + 2)) (y (i + 2)) 0 1 (m (i + 2)).r11)
    (if i = 2 ∨ i = 3 then masked R.mul R.add R.sub (x (i + 1)) (y (i + 1)) 0 2 (m (i + 1)).r2
      else 0)

theorem output_eq (x y : Fin 4 → EVector 3 n d) (m : Fin 4 → Masks (Vec n d)) :
    R.output x y m = @outputs (Word d) R.ring n x y m :=
  congrArg (fun (zero : Vec n d) i => @gateOutput _ ⟨zero⟩ R.mul R.add R.sub i (x i) (y i) (m i)
    (masked R.mul R.add R.sub (x (i + 2)) (y (i + 2)) 0 1 (m (i + 2)).r11)
    (if i = 2 ∨ i = 3 then masked R.mul R.add R.sub (x (i + 1)) (y (i + 1)) 0 2 (m (i + 1)).r2
      else zero)) R.zero_vec.symm

variable {R} {x y : Fin 4 → EVector 3 n d} {u v : Vec n d} {m : Fin 4 → Masks (Vec n d)}

variable (R x y) in
/-- The product of the components `i` and `j` with one another. -/
abbrev cross (i j : Fin 4) : Vec n d := @Fantastic4pc.cross (Word d) R.ring n x y i j

theorem masked_first (hx : R.SharesIn x u) (hy : R.SharesIn y v) (i : Fin 4) (r : Vec n d) :
    masked R.mul R.add R.sub (x i) (y i) 0 1 r = R.sub (R.cross x y i (i + 1)) r :=
  @Fantastic4pc.masked_first (Word d) R.ring n x y u v hx hy i r

theorem masked_hash (hx : R.SharesIn x u) (hy : R.SharesIn y v) (i : Fin 4) (r : Vec n d) :
    masked R.mul R.add R.sub (x i) (y i) 1 2 r = R.sub (R.cross x y (i + 1) (i + 2)) r :=
  @Fantastic4pc.masked_hash (Word d) R.ring n x y u v hx hy i r

theorem masked_second (hx : R.SharesIn x u) (hy : R.SharesIn y v) (i : Fin 4) (r : Vec n d) :
    masked R.mul R.add R.sub (x i) (y i) 0 2 r = R.sub (R.cross x y i (i + 2)) r :=
  @Fantastic4pc.masked_second (Word d) R.ring n x y u v hx hy i r

theorem cross_comm (i j : Fin 4) : R.cross x y i j = R.cross x y j i :=
  @Fantastic4pc.cross_comm (Word d) R.ring n x y i j

/-- The same mask taken off both sides. -/
theorem sub_mask_inj {a b r : Vec n d} : R.sub a r = R.sub b r ↔ a = b :=
  @sub_left_inj (Fin n → Word d)
    (@Pi.addGroup (Fin n) (fun _ => Word d) fun _ => R.ring.toAddGroupWithOne.toAddGroup) r a b

/-- The same sum before both sides. -/
theorem add_share_inj {a b c : Vec n d} : R.add a b = R.add a c ↔ b = c := by
  have h := R.sub_mask_inj (a := R.add a b) (b := R.add a c) (r := a)
  have hsub : ∀ z : Vec n d, R.sub (R.add a z) a = z := fun z =>
    @add_sub_cancel_left (Fin n → Word d)
      (@Pi.addCommGroup (Fin n) (fun _ => Word d) fun _ => R.ring.toAddCommGroup) a z
  rw [hsub, hsub] at h
  exact h.symm

/-- The two copies in the first round of the receiver `i`. -/
theorem first_agree_iff (hx : R.SharesIn x u) (hy : R.SharesIn y v) (i : Fin 4) (r r' : Vec n d) :
    masked R.mul R.add R.sub (x (i + 2)) (y (i + 2)) 0 1 r
      = masked R.mul R.add R.sub (x (i + 1)) (y (i + 1)) 1 2 r' ↔ r = r' :=
  @Fantastic4pc.first_agree_iff (Word d) R.ring n x y u v hx hy i r r'

/-- The two copies in the second round of the receiver `i`. -/
theorem second_agree_iff (hx : R.SharesIn x u) (hy : R.SharesIn y v) (i : Fin 4) (r r' : Vec n d) :
    masked R.mul R.add R.sub (x (i + 1)) (y (i + 1)) 0 2 r
      = masked R.mul R.add R.sub (x (i + 3)) (y (i + 3)) 0 2 r' ↔ r = r' :=
  @Fantastic4pc.second_agree_iff (Word d) R.ring n x y u v hx hy i r r'

/-- **When the outputs are a sharing of the product.** -/
theorem shares_output_iff (hx : R.SharesIn x u) (hy : R.SharesIn y v) (h₀ : (m 0).r23 = 0)
    (h₃₁ : (m 3).r2 = (m 1).r2) (h₀₂ : (m 0).r2 = (m 2).r2) :
    R.SharesIn (R.output x y m) (R.mul u v) ↔
      (∀ i, (m i).r13 = (m (i + 2)).r11) ∧ (∀ i, (m i).r2 = 0) ∧ (m 1).r23 = 0 := by
  have hzero : ∀ r : Vec n d, r = (fun _ => R.ring.zero) ↔ r = 0 := fun r => by rw [R.zero_vec]
  have h := @shares_outputs_iff (Word d) R.ring n x y u v m hx hy ((hzero _).mpr h₀) h₃₁ h₀₂
  rw [output_eq]
  exact h.trans (and_congr_right fun _ => and_congr (forall_congr' fun i => hzero _) (hzero _))

end WordRing

end Tva.Fantastic4pc
