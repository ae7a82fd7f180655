import TvaMpc.Containers.BSharedVector
import TvaMpc.Protocols.Correct

/-!
# Protocols/CorrectBits — comparisons compute bits, for every protocol that keeps bits

Some functions of the comparisons are not linear: `operator!` on the components, `set_bits`, and the
extension of a bit.  They act on a sharing as they should if every **component** is a single bit
(`SharesBit`).  `Protocol.CorrectBits` adds to the contract what this needs; from it alone the
comparisons give the bits of the signed comparisons (`ensures_gt`).
-/

namespace Tva

open Machinery

variable {N ρ n m least : ℕ} [NeZero ρ] {d : DataType} {G : Type} {layout : Fin N → Fin ρ → Fin N}

/-- **A sharing of bits by bits.** -/
structure SharesBit (layout : Fin N → Fin ρ → Fin N) (x : Fin N → EVector ρ n d)
    (b : Fin n → Bool) : Prop where
  shares : SharesB layout x (bits d b)
  single : ∀ i k, ∃ c : Fin n → Bool, x i k = bits d c

/-- The contract, with the functions that need bits. -/
structure Protocol.CorrectBits (P : Fin N → Protocol N ρ d G) (layout : Fin N → Fin ρ → Fin N)
    (least : ℕ) (dataParty : Fin N → Prop) (Good : (Fin N → G) → Prop) (mode : SendMode) : Prop
    extends Protocol.Correct P layout least dataParty Good mode where
  notB1 {n : ℕ} {x : Fin N → EVector ρ n d} {b : Fin n → Bool} (hx : SharesBit layout x b) :
    SharesBit layout (fun i => (P i).notB1 (x i)) fun j => !b j
  andBit {n : ℕ} {x y : Fin N → EVector ρ n d} {a b : Fin n → Bool} {g : Fin N → G} (hg : Good g)
    (hx : SharesBit layout x a) (hy : SharesBit layout y b) (hn : least ≤ n) :
    Ensures mode (fun i => (P i).andB (x i) (y i)) g fun z g' _ =>
      SharesBit layout z (fun j => a j && b j) ∧ Good g'
  setBits {n : ℕ} {x : Fin N → EVector ρ n d} {v : Vec n d} (m : Word d) (hx : SharesB layout x v) :
    SharesB layout (fun i k => Tva.setBits m (x i k)) (Tva.setBits m v)

/-- **What the comparison operators need**: the contract, `operator!` on sharings by bits, and a
kind `K` of sharings of bits, which has those by bits and which the products keep. -/
structure Protocol.KeepsKind (P : Fin N → Protocol N ρ d G) (layout : Fin N → Fin ρ → Fin N)
    (least : ℕ) (dataParty : Fin N → Prop) (Good : (Fin N → G) → Prop) (mode : SendMode)
    (K : (n : ℕ) → (Fin N → EVector ρ n d) → (Fin n → Bool) → Prop) : Prop
    extends Protocol.Correct P layout least dataParty Good mode where
  notB1 {n : ℕ} {x : Fin N → EVector ρ n d} {b : Fin n → Bool} (hx : SharesBit layout x b) :
    SharesBit layout (fun i => (P i).notB1 (x i)) fun j => !b j
  ofBit {n : ℕ} {x : Fin N → EVector ρ n d} {b : Fin n → Bool} (hx : SharesBit layout x b) : K n x b
  xor {n : ℕ} {x y : Fin N → EVector ρ n d} {a b : Fin n → Bool} (hx : K n x a) (hy : K n y b) :
    K n (fun i k => x i k ^^^ y i k) fun j => a j ^^ b j
  andK {n : ℕ} {x y : Fin N → EVector ρ n d} {a b : Fin n → Bool} {g : Fin N → G} (hg : Good g)
    (hx : K n x a) (hy : K n y b) (hn : least ≤ n) :
    Ensures mode (fun i => (P i).andB (x i) (y i)) g fun z g' _ =>
      K n z (fun j => a j && b j) ∧ Good g'

/-- The contract of the operators on bits, where products of sharings by bits are by bits again. -/
abbrev Protocol.KeepsBits (P : Fin N → Protocol N ρ d G) (layout : Fin N → Fin ρ → Fin N)
    (least : ℕ) (dataParty : Fin N → Prop) (Good : (Fin N → G) → Prop) (mode : SendMode) : Prop :=
  Protocol.KeepsKind P layout least dataParty Good mode fun _ => SharesBit layout

/-- What the fused comparison needs besides: setting bits in the components sets them in the
value. -/
structure Protocol.Compares (P : Fin N → Protocol N ρ d G) (layout : Fin N → Fin ρ → Fin N)
    (least : ℕ) (dataParty : Fin N → Prop) (Good : (Fin N → G) → Prop) (mode : SendMode)
    (K : (n : ℕ) → (Fin N → EVector ρ n d) → (Fin n → Bool) → Prop) : Prop
    extends Protocol.KeepsKind P layout least dataParty Good mode K where
  setBits {n : ℕ} {x : Fin N → EVector ρ n d} {v : Vec n d} (m : Word d) (hx : SharesB layout x v) :
    SharesB layout (fun i k => Tva.setBits m (x i k)) (Tva.setBits m v)

/-! ## Sharings of bits -/

theorem bits_xor (a b : Fin n → Bool) : bits d (fun j => a j ^^ b j) = bits d a ^^^ bits d b :=
  funext fun _ => bit_xor _ _

theorem bits_and (a b : Fin n → Bool) : bits d (fun j => a j && b j) = bits d a &&& bits d b :=
  funext fun _ => bit_and _ _

/-- The arithmetic value of bits. -/
theorem lowBit_bits (s : Fin n → Bool) : lowBit (bits d s) = bits d s := by
  funext j
  have h1 : (1 : Word d) = bit d true := rfl
  rw [lowBit, h1, bits, ← bit_and, Bool.and_true]

theorem bits_inj {a b : Fin n → Bool} (h : bits d a = bits d b) : a = b :=
  funext fun j => bit_inj (congrFun h j)

/-- A linear map whose values are bits makes a sharing of bits. -/
theorem SharesB.mapBit {x : Fin N → EVector ρ n d} {v : Vec n d} (hx : SharesB layout x v)
    {f : Vec n d → Vec m d} (hf : ∀ a b, f (a ^^^ b) = f a ^^^ f b)
    {c : Vec n d → Fin m → Bool} (hc : ∀ a, f a = bits d (c a)) :
    SharesBit layout (fun i k => f (x i k)) (c v) where
  shares := hc v ▸ hx.map f hf
  single i k := ⟨c (x i k), hc _⟩

namespace SharesBit

variable {x y : Fin N → EVector ρ n d} {a b : Fin n → Bool}

theorem xor (hx : SharesBit layout x a) (hy : SharesBit layout y b) :
    SharesBit layout (fun i k => x i k ^^^ y i k) fun j => a j ^^ b j where
  shares := by rw [bits_xor]; exact hx.shares.xor hy.shares
  single i k := by
    obtain ⟨c, hc⟩ := hx.single i k
    obtain ⟨c', hc'⟩ := hy.single i k
    exact ⟨fun j => c j ^^ c' j, by rw [hc, hc', bits_xor]⟩

/-- Some of the bits. -/
theorem comp (hx : SharesBit layout x a) (p : Fin m → Fin n) :
    SharesBit layout (fun i k j => x i k (p j)) fun j => a (p j) where
  shares := @Shares.comp (Word d) (boolRing d) N ρ n m _ layout x _ hx.shares p
  single i k := by
    obtain ⟨c, hc⟩ := hx.single i k
    exact ⟨fun j => c (p j), by rw [hc]; rfl⟩

/-- Bits of two sharings put together. -/
theorem elim {l : ℕ} {z : Fin N → EVector ρ m d} {c : Fin m → Bool} (hx : SharesBit layout x a)
    (hz : SharesBit layout z c) (pick : Fin l → Fin n ⊕ Fin m) :
    SharesBit layout (fun i k j => Sum.elim (x i k) (z i k) (pick j))
      fun j => Sum.elim a c (pick j) where
  shares := by
    have hbits : bits d (fun j => Sum.elim a c (pick j))
        = fun j => Sum.elim (bits d a) (bits d c) (pick j) := by
      funext j
      rw [bits]
      cases pick j <;> rfl
    rw [hbits]
    exact @Shares.elim (Word d) (boolRing d) N ρ n m _ layout x _ l z _ hx.shares hz.shares pick
  single i k := by
    obtain ⟨a', ha'⟩ := hx.single i k
    obtain ⟨c', hc'⟩ := hz.single i k
    refine ⟨fun j => Sum.elim a' c' (pick j), funext fun j => ?_⟩
    rw [ha', hc', bits]
    cases pick j <;> rfl

/-- All bits of a word to the lowest one. -/
def spread (x : Word d) : Word d := if x.getLsbD 0 then BitVec.allOnes _ else 0

theorem spread_xor (x y : Word d) : spread (x ^^^ y) = spread x ^^^ spread y := by
  have h0 : (0 : Word d) = 0#d.bits := rfl
  rw [spread, spread, spread, BitVec.getLsbD_xor, h0]
  cases x.getLsbD 0 <;> cases y.getLsbD 0 <;> simp

theorem extendLsb_eq_spread (c : Fin n → Bool) : extendLsb (bits d c) = fun j => spread (bits d c j)
    := by
  rw [extendLsb_bits]
  funext j
  rw [spread, bits, getLsbD_bit]
  rfl

/-- **Extending the components of a bit extends the bit.** -/
theorem extendLsb (hx : SharesBit layout x b) : SharesB layout (fun i k => Tva.extendLsb (x i k))
    fun j => if b j then BitVec.allOnes _ else 0 := by
  have hspread := hx.shares.map (fun v j => spread (v j)) fun _ _ => funext fun _ => spread_xor _ _
  have hcomp : (fun i k => Tva.extendLsb (x i k)) = fun i k j => spread (x i k j) := by
    funext i k
    obtain ⟨c, hc⟩ := hx.single i k
    rw [hc, extendLsb_eq_spread]
  rw [hcomp, ← extendLsb_bits, extendLsb_eq_spread]
  exact hspread

end SharesBit

theorem Protocol.CorrectBits.compares {P : Fin N → Protocol N ρ d G} {dataParty : Fin N → Prop}
    {Good : (Fin N → G) → Prop} {mode : SendMode}
    (hP : Protocol.CorrectBits P layout least dataParty Good mode) :
    Protocol.Compares P layout least dataParty Good mode fun _ => SharesBit layout where
  toCorrect := hP.toCorrect
  notB1 := hP.notB1
  setBits := hP.setBits
  ofBit := id
  xor := SharesBit.xor
  andK hg hx hy hn := hP.andBit hg hx hy hn

theorem Protocol.CorrectBits.keepsBits {P : Fin N → Protocol N ρ d G} {dataParty : Fin N → Prop}
    {Good : (Fin N → G) → Prop} {mode : SendMode}
    (hP : Protocol.CorrectBits P layout least dataParty Good mode) :
    Protocol.KeepsBits P layout least dataParty Good mode := hP.compares.toKeepsKind

/-! ## Comparisons -/

namespace Protocol.Correct

variable {P : Fin N → Protocol N ρ d G} {dataParty : Fin N → Prop} {Good : (Fin N → G) → Prop}
variable {mode : SendMode} {x y : Fin N → EVector ρ n d} {u v : Vec n d} {g : Fin N → G}

/-- **The loop over the levels**: from prefixes of blocks of `s` to the prefix of the word. -/
theorem ensures_sameLevels (hP : Correct P layout least dataParty Good mode) (hn : least ≤ n)
    {z : Vec n d} (k : ℕ) :
    ∀ (fuel s : ℕ) (same : Fin N → EVector ρ n d) {g : Fin N → G} {w : Vec n d},
      0 < s → d.bits = s * 2 ^ k → k ≤ fuel → Good g → SharesB layout same w →
      (∀ j, Prefix (z j) (w j) s) →
      Ensures mode (fun i => (Protocol.adderLevels d.bits fuel (2 * s)).foldlM
        (fun sameBit levelSize => (P i).andB (fun k => bitLevelShift levelSize (sameBit k)) sameBit)
        (same i)) g fun r g' _ =>
        (∃ w, SharesB layout r w ∧ ∀ j, Prefix (z j) (w j) d.bits) ∧ Good g' := by
  induction k with
  | zero =>
    intro fuel s same g w hs hbits _ hg hw hpre
    have hlevels : Protocol.adderLevels d.bits fuel (2 * s) = [] := by
      cases fuel with
      | zero => rfl
      | succ fuel => rw [Protocol.adderLevels, if_neg (by omega)]
    rw [hlevels]
    rw [Nat.pow_zero, Nat.mul_one] at hbits
    exact Ensures.pure ⟨⟨w, hw, hbits ▸ hpre⟩, hg⟩
  | succ k ih =>
    intro fuel s same g w hs hbits hfuel hg hw hpre
    obtain ⟨fuel, rfl⟩ : ∃ f, fuel = f + 1 := ⟨fuel - 1, by omega⟩
    have hbits' : d.bits = 2 * s * 2 ^ k := by rw [hbits, Nat.pow_succ]; ring
    have hle : 2 * s ≤ d.bits := hbits' ▸ Nat.le_mul_of_pos_right _ (Nat.two_pow_pos k)
    have hdvd : 2 * s ∣ d.bits := ⟨2 ^ k, hbits'⟩
    have hshift : (2 * s) <<< 1 = 2 * (2 * s) := by rw [Nat.shiftLeft_eq]; ring
    have hlevels : Protocol.adderLevels d.bits (fuel + 1) (2 * s)
        = 2 * s :: Protocol.adderLevels d.bits fuel (2 * (2 * s)) := by
      rw [Protocol.adderLevels, if_pos hle, hshift]
    simp only [hlevels, List.foldlM_cons]
    refine (hP.andB hg (hw.map (bitLevelShift (2 * s)) (bitLevelShift_xor hs hdvd)) hw hn).bind
      fun r g' h hr => ?_
    refine (ih fuel (2 * s) r (by omega) hbits' (by omega) hr.2 hr.1 fun j => ?_).mono
      fun _ _ _ => id
    refine (hpre j).double hs hdvd fun b hb => ?_
    rw [Vec.and_apply, BitVec.getLsbD_and, bitLevelShift, getLsbD_bitLevelShiftWord hs hdvd _ hb]

/-- **The same-bits prefix.** -/
theorem ensures_bitSame (hP : Correct P layout least dataParty Good mode) (hg : Good g)
    (hx : SharesB layout x u) (hy : SharesB layout y v) (hn : least ≤ n) :
    Ensures mode (fun i => (P i).bitSame (x i) (y i)) g fun z g' _ =>
      (∃ s, SharesB layout z s ∧ ∀ j, SameBits (u j) (v j) (s j)) ∧ Good g' := by
  obtain ⟨k, hk, hkb⟩ : ∃ k, d.bits = 1 * 2 ^ k ∧ k ≤ d.bits := by
    cases d
    exacts [⟨3, rfl, by decide⟩, ⟨5, rfl, by decide⟩, ⟨6, rfl, by decide⟩]
  have hsame : SharesB layout (fun i => (P i).notB ((P i).xorB (x i) (y i))) (~~~(u ^^^ v)) := by
    refine hP.notB ?_
    simp only [hP.xorB]
    exact hx.xor hy
  simp only [Protocol.bitSame, d.maxBitsNumber_eq]
  exact hP.ensures_sameLevels hn k d.bits 1 _ one_pos hk hkb hg hsame fun j => Prefix.one _

/-- **Equality.**  Its result is a bit whatever the components were. -/
theorem ensures_eq (hP : Correct P layout least dataParty Good mode) (hg : Good g)
    (hx : SharesB layout x u) (hy : SharesB layout y v) (hn : least ≤ n) :
    Ensures mode (fun i => (P i).eq (x i) (y i)) g fun z g' _ =>
      SharesBit layout z (fun j => decide (u j = v j)) ∧ Good g' := by
  refine (hP.ensures_bitSame hg hx hy hn).bind fun z g' h hz => ?_
  obtain ⟨⟨s, hs, hsame⟩, hg'⟩ := hz
  have hbit := hs.mapBit (mask_xor 1) mask_one
  have heq : (fun j => (s j).getLsbD 0) = fun j => decide (u j = v j) := by
    refine bits_inj (d := d) ?_
    rw [← mask_one]
    exact funext fun j => (hsame j).and_one
  exact Ensures.pure ⟨heq ▸ hbit, hg'⟩

end Protocol.Correct

theorem bitXor_eq (v : Vec n d) : bitXor v = bits d fun j => parity d.digits (v j).getLsbD :=
  funext fun _ => bitXorWord_eq _

theorem bitRightShift_digits (v : Vec n d) : bitRightShift d.digits v = bits d fun j => (v j).msb :=
  funext fun _ => ushiftRight_digits _

namespace Protocol.KeepsKind

variable {P : Fin N → Protocol N ρ d G} {dataParty : Fin N → Prop} {Good : (Fin N → G) → Prop}
variable {mode : SendMode} {x y : Fin N → EVector ρ n d} {u v : Vec n d} {g : Fin N → G}
variable {K : (n : ℕ) → (Fin N → EVector ρ n d) → (Fin n → Bool) → Prop}

/-- The signs as bits. -/
theorem sharesBit_signs (hx : SharesB layout x v) :
    SharesBit layout (fun i k => bitRightShift d.digits (x i k)) fun j => (v j).msb :=
  hx.mapBit (bitRightShift_xor _) bitRightShift_digits

/-- **Different signs decide**, otherwise the bits `res` stay. -/
theorem ensures_treatSigns_value (hP : KeepsKind P layout least dataParty Good mode K) (hg : Good g)
    (hx : SharesB layout x u) (hy : SharesB layout y v) {res : Fin N → EVector ρ n d}
    {r : Fin n → Bool} (hres : SharesBit layout res r) (hn : least ≤ n) :
    Ensures mode (fun i => (P i).treatSigns (x i) (y i) (res i)) g fun z g' _ =>
      K n z (fun j => (((u j).msb ^^ (v j).msb) && (v j).msb)
        ^^ (!((u j).msb ^^ (v j).msb) && r j)) ∧ Good g' := by
  have hdiffs := (sharesBit_signs hx).xor (sharesBit_signs hy)
  simp only [Protocol.treatSigns, hP.xorB]
  refine (hP.andK hg (hP.ofBit hdiffs) (hP.ofBit (sharesBit_signs hy)) hn).bind fun z g' h hz => ?_
  refine (hP.andK hz.2 (hP.ofBit (hP.notB1 hdiffs)) (hP.ofBit hres) hn).bind fun z' g'' h' hz' => ?_
  exact Ensures.pure ⟨hP.xor hz.1 hz'.1, hz'.2⟩

theorem ensures_treatSigns (hP : KeepsKind P layout least dataParty Good mode K) (hg : Good g)
    (hx : SharesB layout x u) (hy : SharesB layout y v) {res : Fin N → EVector ρ n d}
    {r : Fin n → Bool} (hres : SharesBit layout res r)
    (hr : ∀ j, (u j).msb = (v j).msb → r j = (v j).slt (u j)) (hn : least ≤ n) :
    Ensures mode (fun i => (P i).treatSigns (x i) (y i) (res i)) g fun z g' _ =>
      K n z (fun j => (v j).slt (u j)) ∧ Good g' := by
  have h := hP.ensures_treatSigns_value hg hx hy hres hn
  simp only [slt_of_signs (hr _)] at h
  exact h

/-- **Greater-than** of signed elements. -/
theorem ensures_gt (hP : KeepsKind P layout least dataParty Good mode K) (hg : Good g)
    (hx : SharesB layout x u) (hy : SharesB layout y v) (hn : least ≤ n) :
    Ensures mode (fun i => (P i).gt (x i) (y i)) g fun z g' _ =>
      K n z (fun j => (v j).slt (u j)) ∧ Good g' := by
  refine (hP.ensures_bitSame hg hx hy hn).bind fun same g₁ h₁ hsame => ?_
  obtain ⟨⟨s, hs, hagree⟩, hg₁⟩ := hsame
  refine (hP.andB hg₁ (hs.map _ (bitRightShift_xor 1)) (hP.notB hs) hn).bind fun e g₂ h₂ he => ?_
  refine (hP.andB he.2 he.1 hx hn).bind fun e' g₃ h₃ he' => ?_
  refine (hP.ensures_treatSigns he'.2 hx hy (he'.1.mapBit bitXor_xor bitXor_eq)
    (fun j hsign => ?_) hn).mono fun _ _ _ => id
  exact bit_inj ((bitXorWord_eq _).symm.trans ((hagree j).gt hsign))

/-- **Inequality.** -/
theorem ensures_ne (hP : KeepsKind P layout least dataParty Good mode K) (hg : Good g)
    (hx : SharesB layout x u) (hy : SharesB layout y v) (hn : least ≤ n) :
    Ensures mode (fun i => (P i).ne (x i) (y i)) g fun z g' _ =>
      SharesBit layout z (fun j => !decide (u j = v j)) ∧ Good g' :=
  (hP.ensures_eq hg hx hy hn).bind fun _ _ _ hz => Ensures.pure ⟨hP.notB1 hz.1, hz.2⟩

end Protocol.KeepsKind

namespace Protocol.KeepsBits

variable {P : Fin N → Protocol N ρ d G} {dataParty : Fin N → Prop} {Good : (Fin N → G) → Prop}
variable {mode : SendMode} {x y : Fin N → EVector ρ n d} {u v : Vec n d} {g : Fin N → G}

/-- **Greater-or-equal.** -/
theorem ensures_ge (hP : KeepsBits P layout least dataParty Good mode) (hg : Good g)
    (hx : SharesB layout x u) (hy : SharesB layout y v) (hn : least ≤ n) :
    Ensures mode (fun i => (P i).ge (x i) (y i)) g fun z g' _ =>
      SharesBit layout z (fun j => !(u j).slt (v j)) ∧ Good g' :=
  (hP.ensures_gt hg hy hx hn).bind fun _ _ _ hz => Ensures.pure ⟨hP.notB1 hz.1, hz.2⟩

/-- **Less-or-equal.** -/
theorem ensures_le (hP : KeepsBits P layout least dataParty Good mode) (hg : Good g)
    (hx : SharesB layout x u) (hy : SharesB layout y v) (hn : least ≤ n) :
    Ensures mode (fun i => (P i).le (x i) (y i)) g fun z g' _ =>
      SharesBit layout z (fun j => !(v j).slt (u j)) ∧ Good g' :=
  (hP.ensures_gt hg hx hy hn).bind fun _ _ _ hz => Ensures.pure ⟨hP.notB1 hz.1, hz.2⟩

end Protocol.KeepsBits

/-! ## Ownership -/

namespace Protocol.OwnedBy

variable {i : Fin N} {P : Protocol N ρ d G}

omit [NeZero ρ]

theorem bitSame (hP : OwnedBy i P) (x y : EVector ρ n d) : Tva.OwnedBy i (P.bitSame x y) :=
  foldlM (fun _ _ => hP.andB _ _) _ _

theorem eq (hP : OwnedBy i P) (x y : EVector ρ n d) : Tva.OwnedBy i (P.eq x y) :=
  (hP.bitSame x y).bind fun _ => .pure _

theorem treatSigns (hP : OwnedBy i P) (x y res : EVector ρ n d) :
    Tva.OwnedBy i (P.treatSigns x y res) :=
  (hP.andB _ _).bind fun _ => (hP.andB _ _).bind fun _ => .pure _

theorem ne (hP : OwnedBy i P) (x y : EVector ρ n d) : Tva.OwnedBy i (P.ne x y) :=
  (hP.eq x y).bind fun _ => .pure _

theorem gt (hP : OwnedBy i P) (x y : EVector ρ n d) : Tva.OwnedBy i (P.gt x y) :=
  (hP.bitSame x y).bind fun _ => (hP.andB _ _).bind fun _ => (hP.andB _ _).bind fun _ =>
    hP.treatSigns _ _ _

end Protocol.OwnedBy

end Tva
