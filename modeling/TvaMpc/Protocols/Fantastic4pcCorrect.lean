import TvaMpc.Protocols.Correct
import TvaMpc.Protocols.Fantastic4pcProducts
import TvaMpc.Protocols.Fantastic4pcRuns

/-!
# Protocols/Fantastic4pcCorrect — the four-party protocol computes the plaintext program

With buffered sends, and generators whose masks are all zero, the primitives meet the contract
`Protocol.Correct`, the products from three elements on.  The products need no more than that the
masks agree where two parties compute the same message (`yields_product`).
-/

namespace Tva.Fantastic4pc

open Machinery

variable {n : ℕ} {d : DataType} {G : Type} {mode : SendMode}

/-! ## Over a ring -/

section Ring

variable {W : Type} [CommRing W] {x : Fin 4 → Fin 3 → Fin n → W} {v : Fin n → W}

/-- Everybody holds its own component and the next two. -/
theorem shares_deal (c : Fin 4 → Fin n → W) :
    Shares layout (fun i => ![c i, c (i + 1), c (i + 2)]) (c 0 + c 1 + c 2 + c 3) :=
  shares_of_sum (fun _ => rfl) (fun _ => rfl) rfl

/-- The components that a data party makes add up to its data. -/
theorem dealt_eq (data s₁ s₂ s₃ : Fin n → W) : s₂ + s₃ + (data - s₁ - s₂ - s₃) + s₁ = data := by
  ring

/-- The four components that a party has after an opening. -/
theorem open_eq (hx : Shares layout x v) (i : Fin 4) :
    x i 0 + x i 1 + x i 2 + x (i + 3) 0 = v := by
  rw [replicated_one hx, replicated_two hx, ← sum_eq hx]
  fin_cases i
  · rfl
  · change x 1 0 + x 2 0 + x 3 0 + x 0 0 = _; ring
  · change x 2 0 + x 3 0 + x 0 0 + x 1 0 = _; ring
  · change x 3 0 + x 0 0 + x 1 0 + x 2 0 = _; ring

/-- **An input is a sharing** of the mask and the message, when its holders draw one mask. -/
theorem shares_inpOutput (i : Fin 4) (r m : Fin n → W) :
    Shares layout (fun k => inpOutput i k r m) (r + m) := by
  have hcols : ∀ k, inpOutput i k r m = fun c =>
      if layout k c = i then r else if layout k c = i + 1 then m else 0 := by
    intro k
    funext c
    fin_cases i <;> fin_cases k <;> fin_cases c <;> rfl
  refine ⟨fun k c => ?_, ?_⟩
  · simp only [hcols]
    rfl
  · rw [Fin.sum_univ_four]
    fin_cases i
    · change r + m + 0 + 0 = _; ring
    · change 0 + r + m + 0 = _; ring
    · change 0 + 0 + r + m = _; ring
    · change m + 0 + 0 + r = _; ring

end Ring

/-! ## Products -/

section Products

variable [RandomGenerator G d] {R : WordRing d} {x y : Fin 4 → EVector 3 n d} {u v : Vec n d}
variable {g : Fin 4 → G}

/-- **A product whose masks agree** where its messages are compared. -/
theorem yields_product (hn : 3 ≤ n) (hx : R.SharesIn x u) (hy : R.SharesIn y v)
    (hfirst : ∀ i, (gateMasks d n i (g i)).r12 = (gateMasks d n (i + 1) (g (i + 1))).r11)
    (h₃₁ : (gateMasks d n 3 (g 3)).r2 = (gateMasks d n 1 (g 1)).r2)
    (h₀₂ : (gateMasks d n 0 (g 0)).r2 = (gateMasks d n 2 (g 2)).r2) : ∃ h,
    Yields .buffered (fun i => R.product i (x i) (y i)) g
      (R.output x y fun i => gateMasks d n i (g i)) (fun i => afterGate d n i (g i)) h := by
  refine yields_gate hn
    (fun i => masked R.mul R.add R.sub (x i) (y i) 0 1 (gateMasks d n i (g i)).r11)
    (fun i => masked R.mul R.add R.sub (x i) (y i) 1 2 (gateMasks d n i (g i)).r12)
    (fun i => masked R.mul R.add R.sub (x i) (y i) 0 2 (gateMasks d n i (g i)).r2)
    (fun _ => rfl) (fun _ => rfl) (fun _ => rfl) (fun i => ?_) fun i hi => ?_
  · refine (WordRing.first_agree_iff hx hy i _ _).mpr ?_
    have h := hfirst (i + 1)
    rw [add_one_one] at h
    exact h.symm
  · refine (WordRing.second_agree_iff hx hy i _ _).mpr ?_
    rcases hi with rfl | rfl
    · exact h₃₁
    · exact h₀₂

end Products

/-! ## Boolean sharings -/

section Bool

variable {x : Fin 4 → EVector 3 n d} {v : Vec n d}

theorem sharesB_notB (hx : SharesB layout x v) : SharesB layout (fun i => notB i (x i)) (~~~v) := by
  have hone : ∀ i, x i 1 = x (i + 1) 0 := @replicated_one (Word d) (boolRing d) n x v hx
  have htwo : ∀ i, x i 2 = x (i + 2) 0 := @replicated_two (Word d) (boolRing d) n x v hx
  have hsum : x 0 0 ^^^ x 1 0 ^^^ x 2 0 ^^^ x 3 0 = v := @sum_eq (Word d) (boolRing d) n x v hx
  refine @shares_of_sum (Word d) (boolRing d) n _ _ (fun i => ?_) (fun i => ?_) ?_
  · fin_cases i
    exacts [hone 0, congrArg (~~~·) (hone 1), hone 2, hone 3]
  · fin_cases i
    exacts [congrArg (~~~·) (htwo 0), htwo 1, htwo 2, htwo 3]
  · rw [← hsum]
    refine funext fun j => BitVec.eq_of_getLsbD_eq fun b hb => ?_
    change (x 0 0 j ^^^ x 1 0 j ^^^ ~~~(x 2 0 j) ^^^ x 3 0 j).getLsbD b
      = (~~~(x 0 0 j ^^^ x 1 0 j ^^^ x 2 0 j ^^^ x 3 0 j)).getLsbD b
    simp only [BitVec.getLsbD_xor, BitVec.getLsbD_not, hb, decide_true, Bool.true_and, Bool.xor_not,
      Bool.not_xor]

/-- What the parties open in `b2a_bit` is the packed value. -/
theorem packed_eq (hx : SharesB layout x v) (i : Fin 4) :
    packed (x i) 0 ^^^ packed (x i) 1 ^^^ packed (x i) 2 ^^^ packed (x (i + 3)) 0
      = simpleBitCompress v 0 1 0 1 := by
  have hcol : ∀ z : Vec n d, simpleBitCompress (lowBit (z ^^^ 0)) 0 1 0 1
      = simpleBitCompress z 0 1 0 1 := fun z => by
    rw [simpleBitCompress_lowBit, show z ^^^ 0 = z from funext fun _ => BitVec.xor_zero]
  have h := hx.map (fun z => simpleBitCompress z 0 1 0 1) simpleBitCompress_xor
  simp only [packed, hcol]
  exact @open_eq _ (Word d) (boolRing d) _ _ h i

theorem bitShares_eq (i : Fin 4) (o : Vec n d) : bitShares i o =
    ![if i = 0 then lowBit o else 0, if i + 1 = 0 then lowBit o else 0,
      if i + 2 = 0 then lowBit o else 0] := by
  have hone : b2aBitColumn o 0 true = lowBit o := funext fun j => by
    simp [b2aBitColumn, lowBit]
  have hzero : b2aBitColumn o 0 false = 0 := funext fun j => by simp [b2aBitColumn]
  funext c
  fin_cases i <;> fin_cases c
  exacts [hone, hzero, hzero, hzero, hzero, hzero, hzero, hzero, hone, hzero, hone, hzero]

end Bool

/-! ## The contract -/

section Contract

variable [RandomGenerator G d]

/-- **A generator without masks**: in a `Good` state every channel yields zeros, and the next state
is good again. -/
structure ZeroMasks (d : DataType) [RandomGenerator G d] (Good : G → Prop) : Prop where
  drawn {g : G} (hg : Good g) (n id size : ℕ) :
    (drawn d n id size g).1 = 0 ∧ Good (drawn d n id size g).2
  random {g : G} (hg : Good g) (n : ℕ) : Good (random d n g).2

variable {Good : G → Prop} {g : Fin 4 → G}

namespace ZeroMasks

theorem gate (hz : ZeroMasks d Good) (n : ℕ) (k : Fin 4) {g : G} (hg : Good g) :
    gateMasks d n k g = ⟨0, 0, 0, 0, 0⟩ ∧ Good (afterGate d n k g) := by
  have h₁ := hz.drawn hg n n 1
  have h₂ := hz.drawn h₁.2 n n 2
  have h₃ := hz.drawn h₂.2 n n 3
  have hthird : (if k = 1 then Fantastic4pc.drawn d n n 2 (afterFirst d n g)
        else (0, afterFirst d n g)).1 = 0 ∧
      Good (if k = 1 then Fantastic4pc.drawn d n n 2 (afterFirst d n g)
        else (0, afterFirst d n g)).2 := by
    split
    · exact hz.drawn h₃.2 n n 2
    · exact ⟨rfl, h₃.2⟩
  have hlast := hz.drawn hthird.2 n n (if k = 0 ∨ k = 3 then 3 else 1)
  refine ⟨?_, hlast.2⟩
  rw [gateMasks, h₁.1, h₂.1, h₃.1, secondMasks]
  exact congrArg₂ (Masks.mk 0 0 0) hthird.1 hlast.1

theorem inpMask (hz : ZeroMasks d Good) (n : ℕ) (i k : Fin 4) {g : G} (hg : Good g) :
    (inpMask d n i k g).1 = 0 ∧ Good (inpMask d n i k g).2 := by
  rw [Fantastic4pc.inpMask]
  split
  · exact hz.drawn hg _ _ _
  split
  · exact hz.drawn hg _ _ _
  split
  · exact hz.drawn hg _ _ _
  · exact ⟨rfl, hg⟩

theorem afterDeal (hz : ZeroMasks d Good) (n : ℕ) (hg : ∀ i, Good (g i)) (i : Fin 4) :
    Good (afterDeal d n g i) := by
  rw [Fantastic4pc.afterDeal]
  by_cases hi : i = 0
  · subst hi
    rw [Function.update_self]
    exact hz.random (hz.random (hz.random (hg 0) n) n) n
  · rw [Function.update_of_ne hi]
    exact hg i

end ZeroMasks

section Ops

variable {x y : Fin 4 → EVector 3 n d} {u v : Vec n d}

/-- **A product without masks**: its outputs, and what they share. -/
theorem ensures_output {R : WordRing d} (hz : ZeroMasks d Good) (hg : ∀ i, Good (g i))
    (hx : R.SharesIn x u) (hy : R.SharesIn y v) (hn : 3 ≤ n) :
    Ensures .buffered (fun i => R.product i (x i) (y i)) g fun z g' _ =>
      z = R.output x y (fun _ => ⟨0, 0, 0, 0, 0⟩) ∧ R.SharesIn z (R.mul u v) ∧
        ∀ i, Good (g' i) := by
  have hm : (fun i => gateMasks d n i (g i)) = fun _ => ⟨0, 0, 0, 0, 0⟩ :=
    funext fun i => (hz.gate n i (hg i)).1
  have hm' : ∀ i, gateMasks d n i (g i) = ⟨0, 0, 0, 0, 0⟩ := congrFun hm
  obtain ⟨h, hy'⟩ := yields_product (g := g) hn hx hy (fun i => by rw [hm', hm']) (by rw [hm', hm'])
    (by rw [hm', hm'])
  rw [hm] at hy'
  refine .of_yields hy' ⟨rfl, ?_, fun i => (hz.gate n i (hg i)).2⟩
  exact (WordRing.shares_output_iff hx hy rfl rfl rfl).mpr ⟨fun _ => rfl, fun _ => rfl, rfl⟩

theorem ensures_product {R : WordRing d} (hz : ZeroMasks d Good) (hg : ∀ i, Good (g i))
    (hx : R.SharesIn x u) (hy : R.SharesIn y v) (hn : 3 ≤ n) :
    Ensures .buffered (fun i => R.product i (x i) (y i)) g fun z g' _ =>
      R.SharesIn z (R.mul u v) ∧ ∀ i, Good (g' i) :=
  (ensures_output hz hg hx hy hn).mono fun _ _ _ h => h.2

/-- An input of `z`, from two parties that both know it. -/
theorem ensures_inp (hz : ZeroMasks d Good) (hg : ∀ i, Good (g i)) (i : Fin 4)
    {sub : Vec n d → Vec n d → Vec n d} {x : Fin 4 → Vec n d} {z : Vec n d} (hsub : sub z 0 = z)
    (hself : x i = z) (hthree : x (i + 3) = z) :
    Ensures .buffered (fun k => inp sub k (x k) i (i + 3) (i + 1) (i + 2)) g fun z' g' _ =>
      (z' = fun k => inpOutput i k 0 z) ∧ ∀ i, Good (g' i) := by
  have hm : ∀ k, (inpMask d n i k (g k)).1 = 0 := fun k => (hz.inpMask n i k (hg k)).1
  have hown : z = inpMessage sub x g i i := by rw [inpMessage, hm, hself, hsub]
  have hthird : z = inpMessage sub x g i (i + 3) := by rw [inpMessage, hm, hthree, hsub]
  obtain ⟨h, hy⟩ := yields_inp i hown hthird
  simp only [hm] at hy
  exact .of_yields hy ⟨rfl, fun k => (hz.inpMask n i k (hg k)).2⟩

theorem ensures_inpB (hz : ZeroMasks d Good) (hg : ∀ i, Good (g i)) (i : Fin 4)
    {x : Fin 4 → Vec n d} {z : Vec n d} (hself : x i = z) (hthree : x (i + 3) = z) :
    Ensures .buffered (fun k => inpB k (x k) i (i + 3) (i + 1) (i + 2)) g fun z' g' _ =>
      SharesB layout z' z ∧ ∀ i, Good (g' i) := by
  refine (ensures_inp hz hg i (funext fun _ => BitVec.xor_zero) hself hthree).mono
    fun z' g' _ h => ?_
  have hsum : (0 : Vec n d) ^^^ z = z := funext fun _ => BitVec.zero_xor
  have hshare : SharesB layout (fun k => inpOutput i k 0 z) (0 ^^^ z) :=
    @shares_inpOutput n (Word d) (boolRing d) i 0 z
  rw [hsum] at hshare
  exact ⟨h.1 ▸ hshare, h.2⟩

theorem ensures_inpA (hz : ZeroMasks d Good) (hg : ∀ i, Good (g i)) (i : Fin 4)
    {x : Fin 4 → Vec n d} {z : Vec n d} (hself : x i = z) (hthree : x (i + 3) = z) :
    Ensures .buffered (fun k => inpA k (x k) i (i + 3) (i + 1) (i + 2)) g fun z' g' _ =>
      SharesA layout z' z ∧ ∀ i, Good (g' i) := by
  refine (ensures_inp hz hg i (sub_zero z) hself hthree).mono fun z' g' _ h => ?_
  have hshare := shares_inpOutput (n := n) (W := Word d) i 0 z
  rw [zero_add] at hshare
  exact ⟨h.1 ▸ hshare, h.2⟩

theorem ensures_redistributeSharesB (hz : ZeroMasks d Good) (hg : ∀ i, Good (g i))
    (hx : SharesA layout x v) :
    Ensures .buffered (fun i => redistributeSharesB i (x i)) g fun z g' _ =>
      (∃ u u', SharesB layout (fun i => (z i).1) u ∧ SharesB layout (fun i => (z i).2) u' ∧
        u + u' = v) ∧ ∀ i, Good (g' i) := by
  let res (i : Fin 4) : Vec n d := if i = 0 ∨ i = 2 then x i 0 + x i 1 else x i 1 + x i 2
  have hone := replicated_one hx
  have htwo := replicated_two hx
  have h₃ : res 3 = x 0 0 + x 1 0 := congrArg₂ (· + ·) (hone 3) (htwo 3)
  have h₀ : res 0 = x 0 0 + x 1 0 := congrArg₂ (· + ·) rfl (hone 0)
  have h₂ : res 2 = x 2 0 + x 3 0 := congrArg₂ (· + ·) rfl (hone 2)
  have h₁ : res 1 = x 2 0 + x 3 0 := congrArg₂ (· + ·) (hone 1) (htwo 1)
  refine (ensures_inpB hz hg 0 h₀ h₃).bind fun z₁ g₁ _ hz₁ => ?_
  refine (ensures_inpB hz hz₁.2 2 h₂ h₁).bind fun z₂ g₂ _ hz₂ => Ensures.pure ⟨?_, hz₂.2⟩
  refine ⟨_, _, hz₁.1, hz₂.1, ?_⟩
  rw [← sum_eq hx]
  ring

omit [RandomGenerator G d] in
/-- **An opening of a sharing**, over any ring. -/
theorem ensures_openShares {R : WordRing d} (hx : R.SharesIn x v) :
    Ensures mode (fun i => openShares R.add i (x i)) g fun a _ _ => ∀ i, a i = v :=
  .of_yields (yields_openShares _ x) (@open_eq n (Word d) R.ring x v hx)

omit [RandomGenerator G d] in
theorem ensures_b2aBit (hg : ∀ i, Good (g i)) (hx : SharesB layout x v) :
    Ensures mode (fun i => b2aBit i (x i)) g fun z g' _ =>
      SharesA layout z (lowBit v) ∧ ∀ i, Good (g' i) := by
  refine .of_yields (yields_b2aBit x) ⟨?_, hg⟩
  have hopened : unpacked n (simpleBitCompress v 0 1 0 1) = lowBit v :=
    simpleBitDecompress_compress v
  have hlow : lowBit (lowBit v) = lowBit v :=
    funext fun j => by rw [lowBit, lowBit, BitVec.and_assoc, BitVec.and_self]
  simp only [packed_eq hx, hopened, bitShares_eq, hlow]
  have hsum := shares_deal fun i : Fin 4 => if i = 0 then lowBit v else 0
  simpa using hsum

/-- The components that a data party makes share its data. -/
theorem shares_freshComponents {R : WordRing d} (data : Vec n d) (g : G) :
    R.SharesIn (fun i => ![freshComponents R.sub data g i, freshComponents R.sub data g (i + 1),
      freshComponents R.sub data g (i + 2)]) data := by
  have h : R.SharesIn _ (R.add (R.add (R.add (freshComponents R.sub data g 0)
      (freshComponents R.sub data g 1)) (freshComponents R.sub data g 2))
      (freshComponents R.sub data g 3)) :=
    @shares_deal n (Word d) R.ring (freshComponents R.sub data g)
  have hsum : R.add (R.add (R.add (freshComponents R.sub data g 0) (freshComponents R.sub data g 1))
      (freshComponents R.sub data g 2)) (freshComponents R.sub data g 3) = data :=
    @dealt_eq n (Word d) R.ring data _ _ _
  rwa [hsum] at h

theorem ensures_secretShare {R : WordRing d} (hz : ZeroMasks d Good) (hg : ∀ i, Good (g i))
    (data : Vec n d) : Ensures mode (fun i => secretShare R.sub i data 0) g fun z g' _ =>
      R.SharesIn z data ∧ ∀ i, Good (g' i) :=
  .of_yields (yields_secretShare _ fun _ => data)
    ⟨shares_freshComponents _ _, hz.afterDeal n hg⟩

end Ops

/-- **The four-party protocol meets the contract**, with buffered sends and without masks. -/
theorem correct (hz : ZeroMasks d Good) :
    Protocol.Correct (protocol d G) layout 3 (· = 0) (fun g => ∀ i, Good (g i)) .buffered where
  addA i x y := by funext k; fin_cases k <;> rfl
  subA i x y := by funext k; fin_cases k <;> rfl
  negA i x := by funext k; fin_cases k <;> rfl
  xorB i x y := by funext k; fin_cases k <;> rfl
  ltz i x := by funext k; fin_cases k <;> rfl
  notB := sharesB_notB
  multiplyA hg hx hy hn := ensures_product (R := .arith) hz hg hx hy hn
  andB hg hx hy hn := ensures_product (R := .bool) hz hg hx hy hn
  b2aBit := ensures_b2aBit
  redistributeSharesB := ensures_redistributeSharesB hz
  openSharesA hx := ensures_openShares (R := .arith) hx
  openSharesB hx := ensures_openShares (R := .bool) hx
  secretShareA hp hg := by subst hp; exact ensures_secretShare (R := .arith) hz hg _
  secretShareB hp hg := by subst hp; exact ensures_secretShare (R := .bool) hz hg _

end Contract

end Tva.Fantastic4pc
