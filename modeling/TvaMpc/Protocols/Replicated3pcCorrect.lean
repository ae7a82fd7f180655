import TvaMpc.Protocols.Correct
import TvaMpc.Protocols.Replicated3pcRuns

/-!
# Protocols/Replicated3pcCorrect — the three-party protocol computes the plaintext program

The primitives meet the contract `Protocol.Correct` whenever the generators produce sharings of zero
(`ZeroSharing`).  The ring identities behind the gates, dealings and openings are proved once, over
any ring, and used for addition and for `^`.
-/

namespace Tva.Replicated3pc

open Machinery

variable {n : ℕ} {d : DataType} {G : Type} {mode : SendMode}

/-- Column `1` of party `i` holds the component of party `i - 1`. -/
def layout (i : Fin 3) (k : Fin 2) : Fin 3 := ![i, i - 1] k

/-! ## Over a ring -/

section Ring

variable {W : Type*} [CommRing W] {x y : Fin 3 → Fin 2 → Fin n → W} {u v : Fin n → W}

theorem replicated_eq (hx : Shares layout x v) (i : Fin 3) : x i 1 = x (i - 1) 0 :=
  hx.replicated i 1

theorem sum_eq (hx : Shares layout x v) : x 0 0 + x 1 0 + x 2 0 = v := by
  rw [← hx.value, Fin.sum_univ_three]

theorem shares_of_sum (hrep : ∀ i, x i 1 = x (i - 1) 0) (hsum : x 0 0 + x 1 0 + x 2 0 = v) :
    Shares layout x v where
  replicated i k := by
    fin_cases k
    · rfl
    · exact hrep i
  value := by rw [Fin.sum_univ_three, hsum]

/-- Everybody holds its own component and the predecessor's. -/
theorem shares_ring {z : Fin 3 → Fin n → W} (hz : ∑ i, z i = v) :
    Shares layout (fun i => ![z i, z (i - 1)]) v where
  replicated i k := by fin_cases k <;> rfl
  value := hz

/-- **The cross terms of the three parties add up to the product**, and the masks cancel. -/
theorem shares_product {r : Fin 3 → Fin n → W} (hx : Shares layout x u) (hy : Shares layout y v)
    (hr : ∑ i, r i = 0) :
    Shares layout (fun i =>
      ![x i 0 * y i 0 + x i 0 * y i 1 + x i 1 * y i 0 + r i,
        x (i - 1) 0 * y (i - 1) 0 + x (i - 1) 0 * y (i - 1) 1 + x (i - 1) 1 * y (i - 1) 0
          + r (i - 1)]) (u * v) := by
  refine shares_ring (z := fun i => x i 0 * y i 0 + x i 0 * y i 1 + x i 1 * y i 0 + r i) ?_
  rw [Finset.sum_add_distrib, hr, add_zero, ← hx.value, ← hy.value]
  simp only [replicated_eq hx, replicated_eq hy, Fin.sum_univ_three]
  change x 0 0 * y 0 0 + x 0 0 * y 2 0 + x 2 0 * y 0 0
      + (x 1 0 * y 1 0 + x 1 0 * y 0 0 + x 0 0 * y 1 0)
      + (x 2 0 * y 2 0 + x 2 0 * y 1 0 + x 1 0 * y 2 0)
    = (x 0 0 + x 1 0 + x 2 0) * (y 0 0 + y 1 0 + y 2 0)
  ring

/-- What a data party deals is a sharing. -/
theorem shares_dealt (s₁ s₂ s₃ : Fin n → W) (p : Fin 3) :
    Shares layout
      (fun i => (![![s₁, s₃], ![s₂, s₁], ![s₃, s₂]] : Fin 3 → Fin 2 → Fin n → W) (i - p))
      (s₁ + s₂ + s₃) where
  replicated i k := by fin_cases p <;> fin_cases i <;> fin_cases k <;> rfl
  value := by
    rw [Fin.sum_univ_three]
    fin_cases p
    · rfl
    · change s₃ + s₁ + s₂ = _; ring
    · change s₂ + s₃ + s₁ = _; ring

/-- The three components that a party has after an opening. -/
theorem open_eq (hx : Shares layout x v) (i : Fin 3) : x i 0 + x i 1 + x (i - 1) 1 = v := by
  rw [replicated_eq hx, replicated_eq hx, ← hx.value, Fin.sum_univ_three]
  fin_cases i
  · change x 0 0 + x 2 0 + x 1 0 = _; ring
  · change x 1 0 + x 0 0 + x 2 0 = _; ring
  · change x 2 0 + x 1 0 + x 0 0 = _; ring

end Ring

/-! ## Boolean sharings -/

theorem xor_eq {x : Fin 3 → EVector 2 n d} {v : Vec n d} (hx : SharesB layout x v) :
    x 0 0 ^^^ x 1 0 ^^^ x 2 0 = v :=
  @sum_eq n (Word d) (boolRing d) x v hx

theorem replicatedB_eq {x : Fin 3 → EVector 2 n d} {v : Vec n d} (hx : SharesB layout x v)
    (i : Fin 3) : x i 1 = x (i - 1) 0 :=
  @replicated_eq n (Word d) (boolRing d) x v hx i

theorem sharesB_of_xor {x : Fin 3 → EVector 2 n d} {v : Vec n d}
    (hrep : ∀ i, x i 1 = x (i - 1) 0) (hxor : x 0 0 ^^^ x 1 0 ^^^ x 2 0 = v) : SharesB layout x v :=
  @shares_of_sum n (Word d) (boolRing d) x v hrep hxor

theorem sharesB_notB {x : Fin 3 → EVector 2 n d} {v : Vec n d} (hx : SharesB layout x v) :
    SharesB layout (fun i => notB (x i)) (~~~v) := by
  refine sharesB_of_xor (fun i => congrArg (~~~·) (replicatedB_eq hx i)) ?_
  rw [← xor_eq hx]
  refine funext fun j => BitVec.eq_of_getLsbD_eq fun b hb => ?_
  change (~~~(x 0 0 j) ^^^ ~~~(x 1 0 j) ^^^ ~~~(x 2 0 j)).getLsbD b
    = (~~~(x 0 0 j ^^^ x 1 0 j ^^^ x 2 0 j)).getLsbD b
  simp only [BitVec.getLsbD_xor, BitVec.getLsbD_not, hb, decide_true, Bool.true_and]
  cases (x 0 0 j).getLsbD b <;> cases (x 1 0 j).getLsbD b <;>
    cases (x 2 0 j).getLsbD b <;> rfl

/-! ## Bits -/

section Bits

variable {x : Fin 3 → EVector 2 n d} {v : Vec n d}

theorem openedBit_eq (hx : SharesB layout x v) (i : Fin 3) : openedBit x i = lowBit v := by
  have hperm : packed x i ^^^ packed x (i - 1) ^^^ packed x (i - 1 - 1)
      = simpleBitCompress v 0 1 0 1 := by
    have h0 : ∀ z : Vec (compressedSize d n 0 1 0 1) d, z ^^^ 0 = z :=
      fun z => funext fun j => BitVec.xor_zero
    rw [← xor_eq hx, simpleBitCompress_xor, simpleBitCompress_xor]
    simp only [packed, h0]
    funext e
    simp only [Vec.xor_apply]
    fin_cases i
    · change simpleBitCompress (x 0 0) 0 1 0 1 e ^^^ simpleBitCompress (x 2 0) 0 1 0 1 e
        ^^^ simpleBitCompress (x 1 0) 0 1 0 1 e = _
      ac_rfl
    · change simpleBitCompress (x 1 0) 0 1 0 1 e ^^^ simpleBitCompress (x 0 0) 0 1 0 1 e
        ^^^ simpleBitCompress (x 2 0) 0 1 0 1 e = _
      ac_rfl
    · change simpleBitCompress (x 2 0) 0 1 0 1 e ^^^ simpleBitCompress (x 1 0) 0 1 0 1 e
        ^^^ simpleBitCompress (x 0 0) 0 1 0 1 e = _
      ac_rfl
  rw [openedBit, hperm, simpleBitDecompress_compress]

/-- **Party `1` carries the bit**, the others zero. -/
theorem bitShare_eq (hx : SharesB layout x v) (i : Fin 3) :
    bitShare x i = if i = 1 then lowBit v else 0 := by
  have hr : simpleBitDecompress (0 : Vec n d) (0 : Vec (compressedSize d n 0 1 0 1) d) 0 1 0 1
      = 0 := by
    have h0 : simpleBitCompress (0 : Vec n d) 0 1 0 1 = 0 := by
      have h := simpleBitCompress_xor (0 : Vec n d) 0
      have hself : ∀ {m : ℕ} (z : Vec m d), z ^^^ z = 0 := fun z => funext fun j => BitVec.xor_self
      rwa [hself, hself] at h
    rw [← h0, simpleBitDecompress_compress]
    exact funext fun j => BitVec.zero_and
  funext j
  have h1 : (BitVec.ofNat d.bits 1) = 1 := rfl
  rw [bitShare, hr, openedBit_eq hx, b2aBitLocal, lowBit]
  fin_cases i
  · simp
  · change (0 * (_ : Word d) + (v j &&& 1) * 1) &&& 1 = v j &&& 1
    rw [zero_mul, zero_add, mul_one, BitVec.and_assoc, BitVec.and_self]
  · simp

end Bits

/-! ## The contract -/

section Contract

variable [RandomGenerator G d]

/-- **What the generators must keep**: the masks of the two gates are sharings of zero, now and
after everything the parties draw. -/
structure ZeroSharing (d : DataType) [RandomGenerator G d] (Good : (Fin 3 → G) → Prop) : Prop where
  masksA {g : Fin 3 → G} (hg : Good g) (n : ℕ) : ∑ i, mask d 2 n (g i) = 0
  masksB {g : Fin 3 → G} (hg : Good g) (n : ℕ) :
    mask d 5 n (g 0) ^^^ mask d 5 n (g 1) ^^^ mask d 5 n (g 2) = 0
  afterA {g : Fin 3 → G} (hg : Good g) (n : ℕ) : Good fun i => afterNext d 2 n (g i)
  afterB {g : Fin 3 → G} (hg : Good g) (n : ℕ) : Good fun i => afterNext d 5 n (g i)
  afterDeal {g : Fin 3 → G} (hg : Good g) (n : ℕ) (p : Fin 3) : Good (afterDeal d n p g)

variable {Good : (Fin 3 → G) → Prop}

theorem freshShares_restA (data : Vec n d) (g : G) (p : Fin 3) :
    SharesA layout (fun i => freshShares restA data g (i - p)) data := by
  have h := shares_dealt (own d n g) (own d n (afterRandom d n g))
    (restA data (own d n g) (own d n (afterRandom d n g))) p
  have hsum : own d n g + own d n (afterRandom d n g)
      + restA data (own d n g) (own d n (afterRandom d n g)) = data := by rw [restA]; ring
  rw [hsum] at h
  exact h

theorem freshShares_restB (data : Vec n d) (g : G) (p : Fin 3) :
    SharesB layout (fun i => freshShares restB data g (i - p)) data := by
  have h := @shares_dealt n (Word d) (boolRing d) (own d n g) (own d n (afterRandom d n g))
    (restB data (own d n g) (own d n (afterRandom d n g))) p
  have hsum : own d n g ^^^ own d n (afterRandom d n g)
      ^^^ restB data (own d n g) (own d n (afterRandom d n g)) = data := by
    funext j
    change own d n g j ^^^ own d n (afterRandom d n g) j
      ^^^ (data j ^^^ own d n g j ^^^ own d n (afterRandom d n g) j) = data j
    generalize own d n g j = a
    generalize own d n (afterRandom d n g) j = b
    rw [BitVec.xor_assoc (data j), BitVec.xor_comm (data j), ← BitVec.xor_assoc, BitVec.xor_self,
      BitVec.zero_xor]
  have h' : SharesB layout (fun i => freshShares restB data g (i - p)) (own d n g
    ^^^ own d n (afterRandom d n g) ^^^ restB data (own d n g) (own d n (afterRandom d n g))) := h
  rwa [hsum] at h'

section Ops

variable {x y : Fin 3 → EVector 2 n d} {u v : Vec n d} {g : Fin 3 → G}

theorem ensures_multiplyA (hz : ZeroSharing d Good) (hg : Good g) (hx : SharesA layout x u)
    (hy : SharesA layout y v) :
    Ensures mode (fun i => multiplyA i (x i) (y i)) g fun z g' _ =>
      SharesA layout z (u * v) ∧ Good g' :=
  .of_yields (yields_gate _ _ x y) ⟨shares_product hx hy (hz.masksA hg n), hz.afterA hg n⟩

/-- Masks that cancel under `^` are a sharing of zero in the boolean ring. -/
theorem sum_masksB {r : Fin 3 → Vec n d} (hr : r 0 ^^^ r 1 ^^^ r 2 = 0) :
    @Finset.sum _ _ (@Pi.addCommMonoid _ _ fun _ => (boolRing d).toAddCommMonoid) .univ r = 0 :=
  (@Fin.sum_univ_three _ (@Pi.addCommMonoid _ _ fun _ => (boolRing d).toAddCommMonoid) r).trans hr

theorem ensures_andB (hz : ZeroSharing d Good) (hg : Good g) (hx : SharesB layout x u)
    (hy : SharesB layout y v) :
    Ensures mode (fun i => andB i (x i) (y i)) g fun z g' _ =>
      SharesB layout z (u &&& v) ∧ Good g' :=
  .of_yields (yields_gate _ _ x y)
    ⟨@shares_product n (Word d) (boolRing d) x y u v _ hx hy (sum_masksB (hz.masksB hg n)),
      hz.afterB hg n⟩

omit [RandomGenerator G d] in
theorem ensures_b2aBit (hg : Good g) (hx : SharesB layout x v) :
    Ensures mode (fun i => b2aBit i (x i)) g fun z g' _ =>
      SharesA layout z (lowBit v) ∧ Good g' := by
  obtain ⟨h, hy⟩ := yields_b2aBit mode g x
  have hshare : ∀ i, lowBit (bitShare x i) = bitShare x i := by
    intro i
    rw [bitShare_eq hx]
    split
    · exact funext fun j => by rw [lowBit, lowBit, BitVec.and_assoc, BitVec.and_self]
    · exact funext fun j => BitVec.zero_and
  refine .of_yields hy ⟨?_, hg⟩
  simp only [simpleBitDecompress_self, simpleBitDecompress_compress, hshare]
  refine shares_ring ?_
  rw [Fin.sum_univ_three]
  simp [bitShare_eq hx]

theorem ensures_redistributeSharesB (hz : ZeroSharing d Good) (hg : Good g)
    (hx : SharesA layout x v) :
    Ensures mode (fun i => redistributeSharesB i (x i)) g fun z g' _ =>
      (∃ u u', SharesB layout (fun i => (z i).1) u ∧ SharesB layout (fun i => (z i).2) u' ∧
        u + u' = v) ∧ Good g' := by
  obtain ⟨h, hy⟩ := yields_redistributeSharesB mode g x
  have h0 := freshShares_restB (x 0 0 + x 0 1) (g 0) 0
  simp only [sub_zero] at h0
  refine .of_yields hy ⟨⟨x 0 0 + x 0 1, x 1 0, h0, freshShares_restB _ _ 1, ?_⟩,
    hz.afterDeal (hz.afterDeal hg n 0) n 1⟩
  rw [replicated_eq hx, ← sum_eq hx]
  change x 0 0 + x 2 0 + x 1 0 = _
  ring

omit [RandomGenerator G d] in
theorem ensures_openSharesA (hx : SharesA layout x v) :
    Ensures mode (fun i => openSharesA i (x i)) g fun a _ _ => ∀ i, a i = v :=
  .of_yields (yields_openShares _ x) (open_eq hx)

omit [RandomGenerator G d] in
theorem ensures_openSharesB (hx : SharesB layout x v) :
    Ensures mode (fun i => openSharesB i (x i)) g fun a _ _ => ∀ i, a i = v :=
  .of_yields (yields_openShares _ x) (@open_eq n (Word d) (boolRing d) x v hx)

end Ops

/-- **The three-party protocol meets the contract**, under either send mode. -/
theorem correct (hz : ZeroSharing d Good) :
    Protocol.Correct (protocol d G) layout 0 (fun _ => True) Good mode where
  addA i x y := by funext k; fin_cases k <;> rfl
  subA i x y := by funext k; fin_cases k <;> rfl
  negA i x := by funext k; fin_cases k <;> rfl
  xorB i x y := by funext k; fin_cases k <;> rfl
  ltz i x := by funext k; fin_cases k <;> rfl
  notB := sharesB_notB
  multiplyA hg hx hy _ := ensures_multiplyA hz hg hx hy
  andB hg hx hy _ := ensures_andB hz hg hx hy
  b2aBit := ensures_b2aBit
  redistributeSharesB := ensures_redistributeSharesB hz
  openSharesA := ensures_openSharesA
  openSharesB := ensures_openSharesB
  secretShareA {n p data g} _ hg :=
    .of_yields (yields_secretShare_fresh restA (fun _ => data) p)
      ⟨freshShares_restA data (g p) p, hz.afterDeal hg n p⟩
  secretShareB {n p data g} _ hg :=
    .of_yields (yields_secretShare_fresh restB (fun _ => data) p)
      ⟨freshShares_restB data (g p) p, hz.afterDeal hg n p⟩

end Contract

end Tva.Replicated3pc
