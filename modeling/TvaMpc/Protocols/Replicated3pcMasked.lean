import TvaMpc.Machinery.SingleBit
import TvaMpc.Protocols.Replicated3pcBits

/-!
# Protocols/Replicated3pcMasked — what masks leave in the components of a comparison

The masks of `and_b` are whole words.  They cancel in what is shared, so a comparison shares the
right bit (`compares`), but not in the components: those of `operator>` are bits up to the masks of
its last two products (`ensures_gt_components`).  Their lowest bits can be anything: with opposite
signs they are the signs of the second operand, but for the masks.
-/

namespace Tva.Replicated3pc

open Machinery

variable {n : ℕ} {d : DataType} {G : Type} {mode : SendMode}

/-! ## Components -/

/-- The sharing with the components `c`. -/
def components (c : Fin 3 → Vec n d) (i : Fin 3) : EVector 2 n d := fun k => c (layout i k)

theorem sharesB_components (c : Fin 3 → Vec n d) :
    SharesB layout (components c) (c 0 ^^^ c 1 ^^^ c 2) := sharesB_of_xor (fun _ => rfl) rfl

theorem eq_components {x : Fin 3 → EVector 2 n d} {v : Vec n d} (hx : SharesB layout x v) :
    x = components fun i => x i 0 := by
  funext i k
  fin_cases k
  exacts [rfl, replicatedB_eq hx i]

theorem xorB_components (a b : Fin 3 → Vec n d) (i : Fin 3) :
    xorB (components a i) (components b i) = components (fun i => a i ^^^ b i) i := by
  funext k
  fin_cases k <;> rfl

theorem notB_components (a : Fin 3 → Vec n d) (i : Fin 3) :
    notB (components a i) = components (fun i => ~~~a i) i := by
  funext k
  fin_cases k <;> rfl

theorem notB1_components (a : Fin 3 → Vec n d) (i : Fin 3) :
    notB1 (components a i) = components (fun i => logicalNot (a i)) i := by
  funext k
  fin_cases k <;> rfl

/-- The component of a product, before it is masked. -/
def cross (a b : Fin 3 → Vec n d) (i : Fin 3) : Vec n d :=
  (a i &&& b i) ^^^ (a i &&& b (i - 1)) ^^^ (a (i - 1) &&& b i)

/-- It for bits. -/
def crossBit (a b : Fin 3 → Fin n → Bool) (i : Fin 3) (j : Fin n) : Bool :=
  (a i j && b i j) ^^ (a i j && b (i - 1) j) ^^ (a (i - 1) j && b i j)

theorem cross_bits (a b : Fin 3 → Fin n → Bool) (i : Fin 3) :
    cross (fun i => bits d (a i)) (fun i => bits d (b i)) i = bits d (crossBit a b i) := by
  funext j
  rw [bits, crossBit, bit_xor, bit_xor, bit_and, bit_and, bit_and]
  rfl

theorem upper_cross (a b : Fin 3 → Vec n d) (i : Fin 3) (j : Fin n) :
    upper (cross a b i j) = cross (fun i j => upper (a i j)) (fun i j => upper (b i j)) i j := by
  change upper ((a i j &&& b i j) ^^^ (a i j &&& b (i - 1) j) ^^^ (a (i - 1) j &&& b i j)) = _
  rw [upper_xor, upper_xor, upper_and, upper_and, upper_and]
  rfl

theorem cross_zero (a : Fin 3 → Vec n d) (i : Fin 3) (j : Fin n) :
    cross a (fun _ _ => 0#d.bits) i j = 0#d.bits := by
  change (a i j &&& 0#d.bits) ^^^ (a i j &&& 0#d.bits) ^^^ (a (i - 1) j &&& 0#d.bits) = 0#d.bits
  simp only [BitVec.and_zero, BitVec.xor_zero]

/-- The bits of `a` in a product of which they are all zero. -/
theorem getLsbD_cross {a : Fin 3 → Vec n d} {t : ℕ} {j : Fin n}
    (ha : ∀ i, (a i j).getLsbD t = false) (b : Fin 3 → Vec n d) (i : Fin 3) :
    (cross a b i j).getLsbD t = false := by
  change ((a i j &&& b i j) ^^^ (a i j &&& b (i - 1) j) ^^^ (a (i - 1) j &&& b i j)).getLsbD t = _
  simp only [BitVec.getLsbD_xor, BitVec.getLsbD_and, ha, Bool.false_and, Bool.xor_false]

theorem getLsbD_bit_zero (b : Bool) : (bit d b).getLsbD 0 = b := by
  rw [getLsbD_bit, decide_eq_true rfl, Bool.true_and]

theorem upper_bit (b : Bool) : upper (bit d b) = 0#d.bits :=
  BitVec.eq_of_getLsbD_eq fun t _ => by
    rw [getLsbD_upper, getLsbD_bit, BitVec.getLsbD_zero]
    cases t <;> simp

/-- A sharing of bits whose components have nothing above their lowest bits. -/
theorem sharesBit_of_upper {c : Fin 3 → Vec n d} {b : Fin n → Bool}
    (hc : SharesB layout (components c) (bits d b)) (hup : ∀ i j, upper (c i j) = 0#d.bits) :
    SharesBit layout (components c) b := by
  refine ⟨hc, fun i k => ⟨fun j => (c (layout i k) j).getLsbD 0, funext fun j => ?_⟩⟩
  refine eq_of_upper ?_ ((hup _ j).trans (upper_bit _).symm)
  rw [bits, getLsbD_bit_zero]
  rfl

/-! ## Comparisons under masks -/

section Masks

variable [RandomGenerator G d] {Good : (Fin 3 → G) → Prop} {g : Fin 3 → G}

variable (mode) in
/-- **Comparisons share the right bits, whatever the masks**, as their products do. -/
theorem compares (hz : ZeroSharing d Good) :
    Protocol.Compares (protocol d G) layout 0 (fun _ => True) Good mode
      fun _ x b => SharesB layout x (bits d b) where
  toCorrect := correct hz
  notB1 := sharesBit_notB1
  setBits := sharesB_setBits
  ofBit hx := hx.shares
  xor hx hy := by
    rw [bits_xor]
    exact hx.xor hy
  andK hg hx hy _ := by
    simp only [bits_and]
    exact ensures_andB hz hg hx hy

/-- The masks of a product of boolean vectors. -/
def andMask (d : DataType) [RandomGenerator G d] (n : ℕ) (g : Fin 3 → G) (i : Fin 3) : Vec n d :=
  mask d 5 n (g i)

/-- The generators after it. -/
def afterAnd (d : DataType) [RandomGenerator G d] (n : ℕ) (g : Fin 3 → G) : Fin 3 → G :=
  fun i => afterNext d 5 n (g i)

theorem ensures_andB_components (a b : Fin 3 → Vec n d) :
    Ensures mode (fun i => andB i (components a i) (components b i)) g fun z g' _ =>
      z = components (fun i => cross a b i ^^^ andMask d n g i) ∧ g' = afterAnd d n g := by
  refine .of_yields (yields_gate _ _ (components a) (components b)) ⟨?_, rfl⟩
  funext i k
  fin_cases k <;> rfl

/-- The number of levels of a comparison. -/
def levels (d : DataType) : ℕ := (Protocol.adderLevels d.maxBitsNumber d.maxBitsNumber 2).length

theorem ensures_bitSame_components (cx cy : Fin 3 → Vec n d) :
    Ensures mode (fun i => (protocol d G i).bitSame (components cx i) (components cy i)) g
      fun z g' _ => (∃ c, z = components c) ∧ g' = (afterAnd d n)^[levels d] g := by
  refine Ensures.foldlM (fun pre z g' => (∃ c, z = components c) ∧
    g' = (afterAnd d n)^[pre.length] g) _ ⟨⟨fun i => ~~~(cx i ^^^ cy i), ?_⟩, rfl⟩ ?_
  · funext i
    rw [← notB_components, ← xorB_components]
    rfl
  · rintro pre l - z g' ⟨⟨c, rfl⟩, rfl⟩
    refine (ensures_andB_components (fun i => bitLevelShift l (c i)) c).mono fun z g' _ h => ?_
    refine ⟨⟨_, h.1⟩, ?_⟩
    rw [h.2, List.length_append, List.length_singleton, Function.iterate_succ_apply']

/-- What the masks of its last two products leave in the components of a comparison. -/
def comparisonMask (d : DataType) [RandomGenerator G d] (n : ℕ) (g : Fin 3 → G) (i : Fin 3) :
    Vec n d :=
  andMask d n ((afterAnd d n)^[levels d + 2] g) i ^^^ andMask d n
    ((afterAnd d n)^[levels d + 3] g) i

/-- **The components of a greater-than** of `cx` and `cy`, masked by `M`. -/
structure Residue (cx cy M c : Fin 3 → Vec n d) : Prop where
  upper : ∀ i j, upper (c i j) = upper (M i j)
  low : (∀ i j, (cx i j).msb = !(cy i j).msb) →
    ∀ i j, (c i j).getLsbD 0 = ((cy (i - 1) j).msb ^^ (M i j).getLsbD 0)

/-- The bits of a comparison's components, without the masks. -/
def signedBit (sx sy ρ : Fin 3 → Fin n → Bool) (i : Fin 3) (j : Fin n) : Bool :=
  crossBit (fun i j => sx i j ^^ sy i j) sy i j ^^ crossBit (fun i j => !(sx i j ^^ sy i j)) ρ i j

theorem signedBit_of_opposite {sx sy : Fin 3 → Fin n → Bool} (h : ∀ i j, sx i j = !sy i j)
    (ρ : Fin 3 → Fin n → Bool) (i : Fin 3) (j : Fin n) : signedBit sx sy ρ i j = sy (i - 1) j := by
  have hdiff : ∀ i, (sx i j ^^ sy i j) = true := fun i => by rw [h]; cases sy i j <;> rfl
  simp only [signedBit, crossBit, hdiff, Bool.not_true, Bool.true_and, Bool.false_and,
    Bool.xor_false]
  cases sy i j <;> cases sy (i - 1) j <;> rfl

theorem residue_bits (cx cy M : Fin 3 → Vec n d) (ρ : Fin 3 → Fin n → Bool) :
    Residue cx cy M fun i => bits d (signedBit (fun i j => (cx i j).msb) (fun i j => (cy i j).msb)
      ρ i) ^^^ M i where
  upper i j := by
    rw [Vec.xor_apply, upper_xor, bits, upper_bit, BitVec.zero_xor]
  low h i j := by
    rw [Vec.xor_apply, BitVec.getLsbD_xor, bits, getLsbD_bit_zero, signedBit_of_opposite h]

theorem ensures_treatSigns_components (cx cy : Fin 3 → Vec n d) (ρ : Fin 3 → Fin n → Bool) :
    Ensures mode (fun i => (protocol d G i).treatSigns (components cx i) (components cy i)
        (components (fun i => bits d (ρ i)) i)) g fun z g' _ =>
      (∃ c, z = components c ∧
        Residue cx cy (fun i => andMask d n g i ^^^ andMask d n (afterAnd d n g) i) c) ∧
      g' = (afterAnd d n)^[2] g := by
  let sx : Fin 3 → Fin n → Bool := fun i j => (cx i j).msb
  let sy : Fin 3 → Fin n → Bool := fun i j => (cy i j).msb
  have hsign : ∀ (c : Fin 3 → Vec n d) i, (fun k => bitRightShift d.digits (components c i k))
      = components (fun i => bits d fun j => (c i j).msb) i := fun c i =>
    funext fun k => bitRightShift_digits _
  have hdiff : ∀ i, xorB (components (fun i => bits d (sx i)) i)
      (components (fun i => bits d (sy i)) i)
      = components (fun i => bits d fun j => sx i j ^^ sy i j) i := fun i => by
    simp only [xorB_components, bits_xor]
  have hsame : ∀ i, notB1 (components (fun i => bits d fun j => sx i j ^^ sy i j) i)
      = components (fun i => bits d fun j => !(sx i j ^^ sy i j)) i := fun i => by
    simp only [notB1_components, logicalNot_bits]
  have hrun : ∀ i, (protocol d G i).treatSigns (components cx i) (components cy i)
      (components (fun i => bits d (ρ i)) i) = (do
        let different ← (protocol d G i).andB
          (components (fun i => bits d fun j => sx i j ^^ sy i j) i)
          (components (fun i => bits d (sy i)) i)
        let same ← (protocol d G i).andB
          (components (fun i => bits d fun j => !(sx i j ^^ sy i j)) i)
          (components (fun i => bits d (ρ i)) i)
        return xorB different same) := fun i => by
    rw [← hsame, ← hdiff, ← hsign cx, ← hsign cy]
    rfl
  simp only [hrun]
  refine (ensures_andB_components _ _).bind fun z g₁ _ h₁ => ?_
  obtain ⟨rfl, rfl⟩ := h₁
  refine (ensures_andB_components _ _).bind fun z g₂ _ h₂ => Ensures.pure ?_
  obtain ⟨rfl, rfl⟩ := h₂
  refine ⟨⟨_, ?_, residue_bits cx cy _ ρ⟩, rfl⟩
  funext i
  rw [xorB_components]
  refine congrFun (congrArg components (funext fun i => funext fun j => ?_)) i
  simp only [cross_bits, Vec.xor_apply]
  rw [bits, bits, bits, signedBit, bit_xor]
  ac_rfl

/-- A parity is a bit in every component. -/
theorem bitXor_components (c : Fin 3 → Vec n d) (i : Fin 3) : (fun k => bitXor (components c i k))
    = components (fun i => bits d fun j => parity d.digits (c i j).getLsbD) i :=
  funext fun _ => bitXor_eq _

/-- **The components of `operator>`.** -/
theorem ensures_gt_components (cx cy : Fin 3 → Vec n d) :
    Ensures mode (fun i => (protocol d G i).gt (components cx i) (components cy i)) g fun z g' _ =>
      (∃ c, z = components c ∧ Residue cx cy (comparisonMask d n g) c) ∧
        g' = (afterAnd d n)^[levels d + 4] g := by
  refine (ensures_bitSame_components cx cy).bind fun z g₁ _ h₁ => ?_
  obtain ⟨⟨c, rfl⟩, rfl⟩ := h₁
  have hnot : ∀ i, (protocol d G i).notB (components c i) = components (fun i => ~~~c i) i :=
    fun i => notB_components c i
  simp only [hnot]
  refine (ensures_andB_components (fun i => bitRightShift 1 (c i)) _).bind fun z g₂ _ h₂ => ?_
  obtain ⟨rfl, rfl⟩ := h₂
  refine (ensures_andB_components _ cx).bind fun z g₃ _ h₃ => ?_
  obtain ⟨rfl, rfl⟩ := h₃
  simp only [bitXor_components]
  refine (ensures_treatSigns_components cx cy _).mono fun z g₄ _ h₄ => ?_
  obtain ⟨hz, rfl⟩ := h₄
  simp only [← Function.iterate_succ_apply', ← Function.iterate_add_apply] at hz ⊢
  exact ⟨hz, by rw [Nat.add_comm]⟩

/-! ## Components at will -/

/-- The smallest number or zero, by its sign. -/
def signWord (d : DataType) (s : Bool) : Word d := if s then BitVec.intMin d.bits else 0#d.bits

theorem msb_signWord (s : Bool) : (signWord d s).msb = s := by
  rw [signWord]
  cases s with
  | true => rw [if_pos rfl, BitVec.msb_intMin, decide_eq_true d.bits_pos]
  | false => rw [if_neg Bool.false_ne_true, BitVec.msb_zero]

/-- Components of the second operand by which the components of the result become `z`. -/
def signsFor (M z : Fin 3 → Vec n d) (i : Fin 3) : Vec n d := fun j =>
  signWord d ((z (i + 1) j).getLsbD 0 ^^ (M (i + 1) j).getLsbD 0)

theorem msb_not_signsFor (M z : Fin 3 → Vec n d) (i : Fin 3) (j : Fin n) :
    ((~~~signsFor M z i) j).msb = !(signsFor M z i j).msb := by
  change (~~~(signsFor M z i j)).msb = _
  rw [BitVec.msb_not, decide_eq_true d.bits_pos, Bool.true_and]

/-- **Everything that the mask leaves open is attained**, by an operand and its complement. -/
theorem Residue.eq_of_signsFor {M z c : Fin 3 → Vec n d}
    (h : Residue (fun i => ~~~signsFor M z i) (signsFor M z) M c)
    (hz : ∀ i j, Machinery.upper (z i j) = Machinery.upper (M i j)) : c = z := by
  funext i j
  refine eq_of_upper ?_ ((h.upper i j).trans (hz i j).symm)
  rw [h.low (msb_not_signsFor M z), signsFor, msb_signWord, sub_add_cancel, Bool.xor_assoc,
    Bool.xor_self, Bool.xor_false]

variable (mode) in
/-- The components and the value of `operator>`. -/
theorem ensures_gt_masked (hz : ZeroSharing d Good) (hg : Good g) (cx cy : Fin 3 → Vec n d) :
    Ensures mode (fun i => (protocol d G i).gt (components cx i) (components cy i)) g fun z g' _ =>
      ∃ c, z = components c ∧ Residue cx cy (comparisonMask d n g) c ∧
        SharesB layout (components c) (bits d fun j =>
          ((cy 0 ^^^ cy 1 ^^^ cy 2) j).slt ((cx 0 ^^^ cx 1 ^^^ cx 2) j)) ∧ Good g' := by
  have hvalue := (compares mode hz).ensures_gt hg (sharesB_components cx)
    (sharesB_components cy) (Nat.zero_le _)
  refine (hvalue.and (ensures_gt_components cx cy) fun i => (ownedBy_protocol i).gt _ _).mono
    fun z g' _ h => ?_
  obtain ⟨⟨hshares, hg'⟩, ⟨c, rfl, hres⟩, -⟩ := h
  exact ⟨c, rfl, hres, hshares, hg'⟩

/-- Any components at one place of a vector that is masked by `M`. -/
theorem exists_masked (M : Fin 3 → Vec n d) (j : Fin n) {w : Fin 3 → Word d}
    (hw : ∀ i, upper (w i) = upper (M i j)) : ∃ z : Fin 3 → Vec n d, (∀ i, z i j = w i) ∧
      ∀ i j, upper (z i j) = upper (M i j) := by
  refine ⟨fun i => Function.update (M i) j (w i), fun i => Function.update_self .., fun i j' => ?_⟩
  by_cases hj : j' = j
  · subst hj
    simp only [Function.update_self, hw]
  · simp only [Function.update_of_ne hj]

/-- Any components that differ from the mask in their lowest bits only, at one place of the vector.
-/
theorem exists_gt_components (mode : SendMode) (hz : ZeroSharing d Good) (hg : Good g) (j : Fin n)
    {w : Fin 3 → Word d} (hw : ∀ i, upper (w i) = upper (comparisonMask d n g i j)) :
    ∃ cx cy : Fin 3 → Vec n d,
      Ensures mode (fun i => (protocol d G i).gt (components cx i) (components cy i)) g
        fun z g' _ => ∃ c, z = components c ∧ (∀ i, c i j = w i) ∧
          SharesB layout (components c) (bits d fun j =>
            ((cy 0 ^^^ cy 1 ^^^ cy 2) j).slt ((cx 0 ^^^ cx 1 ^^^ cx 2) j)) ∧ Good g' := by
  obtain ⟨z, hzj, hzup⟩ := exists_masked _ j hw
  let cy := signsFor (comparisonMask d n g) z
  refine ⟨fun i => ~~~cy i, cy, (ensures_gt_masked mode hz hg _ cy).mono fun z' g' _ h => ?_⟩
  obtain ⟨c, rfl, hres, hshares, hg'⟩ := h
  obtain rfl := hres.eq_of_signsFor hzup
  exact ⟨c, rfl, hzj, hshares, hg'⟩

theorem getLsbD_xor_of_shares {c : Fin 3 → Vec n d} {b : Fin n → Bool}
    (hc : SharesB layout (components c) (bits d b)) (j : Fin n) :
    (c 0 j ^^^ c 1 j ^^^ c 2 j).getLsbD 0 = b j := by
  have h := congrFun (xor_eq hc) j
  change c 0 j ^^^ c 1 j ^^^ c 2 j = bit d (b j) at h
  rw [h, getLsbD_bit_zero]

/-! ## Negated comparisons -/

/-- Negated components that share the negated bits. -/
theorem isZero_xor_of_shares {c : Fin 3 → Vec n d} {b : Fin n → Bool}
    (hc : SharesB layout (components c) (bits d b))
    (hnot : SharesB layout (components fun i => logicalNot (c i)) (bits d fun j => !b j))
    (j : Fin n) : (isZero (c 0 j) ^^^ isZero (c 1 j) ^^^ isZero (c 2 j)).getLsbD 0
      = !(c 0 j ^^^ c 1 j ^^^ c 2 j).getLsbD 0 := by
  rw [getLsbD_xor_of_shares hc]
  exact getLsbD_xor_of_shares hnot j

variable (mode) in
/-- **`operator<=` is right on all operands exactly if the masks of its last two products leave
single bits.** -/
theorem le_iff (hz : ZeroSharing d Good) (hg : Good g) :
    (∀ (x y : Fin 3 → EVector 2 n d) (u v : Vec n d), SharesB layout x u → SharesB layout y v →
      Finishes mode (fun i => ((protocol d G i).le (x i) (y i)).run (g i)) fun out _ =>
        SharesB layout (fun i => (out i).1) (bits d fun j => !(v j).slt (u j))) ↔
      ∀ i j, upper (comparisonMask d n g i j) = 0#d.bits := by
  constructor
  · intro h i j
    refine upper_eq_zero_of_isZero (r := fun i => comparisonMask d n g i j) d.bits_pos
      (fun w hw => ?_) i
    obtain ⟨cx, cy, hgt⟩ := exists_gt_components mode hz hg j hw
    have hle : Ensures mode (fun i => (protocol d G i).le (components cx i) (components cy i)) g
        fun z _ _ => ∃ c, z = components (fun i => logicalNot (c i)) ∧ (∀ i, c i j = w i) ∧
          SharesB layout (components c) (bits d fun j =>
            ((cy 0 ^^^ cy 1 ^^^ cy 2) j).slt ((cx 0 ^^^ cx 1 ^^^ cx 2) j)) := by
      refine hgt.bind fun z g' _ hc => Ensures.pure ?_
      obtain ⟨c, rfl, hcj, hshares, -⟩ := hc
      exact ⟨c, funext fun i => notB1_components c i, hcj, hshares⟩
    obtain ⟨_, _, _, -, ⟨c, rfl, hcj, hshares⟩, hnot⟩ := hle.exists_of_finishes
      (h _ _ _ _ (sharesB_components cx) (sharesB_components cy))
    have hbit := isZero_xor_of_shares hshares hnot j
    rwa [hcj, hcj, hcj] at hbit
  · intro hM x y u v hx hy
    have hle : Ensures mode (fun i => (protocol d G i).le (x i) (y i)) g fun z _ _ =>
        SharesB layout z (bits d fun j => !(v j).slt (u j)) := by
      have hgt := ensures_gt_masked mode hz hg (fun i => x i 0) fun i => y i 0
      rw [← eq_components hx, ← eq_components hy, xor_eq hx, xor_eq hy] at hgt
      refine hgt.bind fun z g' _ hc => Ensures.pure ?_
      obtain ⟨c, rfl, hres, hshares, -⟩ := hc
      have hsingle := sharesBit_of_upper hshares fun i j => (hres.upper i j).trans (hM i j)
      exact (sharesBit_notB1 hsingle).shares
    exact hle.finishes fun i => ((ownedBy_protocol i).gt _ _).bind fun _ => .pure _

end Masks

end Tva.Replicated3pc
