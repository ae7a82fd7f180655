import TvaMpc.Protocols.CorrectBits
import TvaMpc.Protocols.Fantastic4pcCorrect

/-!
# Protocols/Fantastic4pcBits — four components of a bit

`operator!` acts on one component, so it negates a bit that is shared by bits (`sharesBit_notB1`).
`set_bits` acts on all four, and an even number of set bits is no set bit: it **clears** the bits in
the value (`sharesB_setBits`).  Without masks, products of sharings by bits are by bits
(`keepsBits`).
-/

namespace Tva.Fantastic4pc

open Machinery

variable {n : ℕ} {d : DataType} {G : Type} [RandomGenerator G d]

section Bits

variable {x : Fin 4 → EVector 3 n d} {v : Vec n d} {b : Fin n → Bool}

theorem replicatedB_one (hx : SharesB layout x v) (i : Fin 4) : x i 1 = x (i + 1) 0 :=
  @replicated_one (Word d) (boolRing d) n x v hx i

theorem replicatedB_two (hx : SharesB layout x v) (i : Fin 4) : x i 2 = x (i + 2) 0 :=
  @replicated_two (Word d) (boolRing d) n x v hx i

theorem xor_eq (hx : SharesB layout x v) : x 0 0 ^^^ x 1 0 ^^^ x 2 0 ^^^ x 3 0 = v :=
  @sum_eq (Word d) (boolRing d) n x v hx

theorem sharesB_of_xor (hone : ∀ i, x i 1 = x (i + 1) 0) (htwo : ∀ i, x i 2 = x (i + 2) 0)
    (hxor : x 0 0 ^^^ x 1 0 ^^^ x 2 0 ^^^ x 3 0 = v) : SharesB layout x v :=
  @shares_of_sum (Word d) (boolRing d) n x v hone htwo hxor

theorem sharesBit_notB1 (hx : SharesBit layout x b) :
    SharesBit layout (fun i => notB1 i (x i)) fun j => !b j := by
  have hone := replicatedB_one hx.shares
  have htwo := replicatedB_two hx.shares
  refine ⟨sharesB_of_xor (fun i => ?_) (fun i => ?_) ?_, fun i k => ?_⟩
  · fin_cases i
    exacts [hone 0, congrArg logicalNot (hone 1), hone 2, hone 3]
  · fin_cases i
    exacts [congrArg logicalNot (htwo 0), htwo 1, htwo 2, htwo 3]
  · have hxor := xor_eq hx.shares
    obtain ⟨c₀, h₀⟩ := hx.single 0 0
    obtain ⟨c₁, h₁⟩ := hx.single 1 0
    obtain ⟨c₂, h₂⟩ := hx.single 2 0
    obtain ⟨c₃, h₃⟩ := hx.single 3 0
    rw [h₀, h₁, h₂, h₃, ← bits_xor, ← bits_xor, ← bits_xor] at hxor
    change x 0 0 ^^^ x 1 0 ^^^ logicalNot (x 2 0) ^^^ x 3 0 = _
    rw [h₀, h₁, h₂, h₃, logicalNot_bits, ← bits_xor, ← bits_xor, ← bits_xor, ← bits_inj hxor]
    refine congrArg (bits d) (funext fun j => ?_)
    rw [Bool.xor_not, Bool.not_xor]
  · obtain ⟨c, hc⟩ := hx.single i k
    obtain ⟨c', hc'⟩ : ∃ c', logicalNot (x i k) = bits d c' := ⟨_, by rw [hc, logicalNot_bits]⟩
    fin_cases i <;> fin_cases k
    exacts [⟨c, hc⟩, ⟨c, hc⟩, ⟨c', hc'⟩, ⟨c, hc⟩, ⟨c', hc'⟩, ⟨c, hc⟩, ⟨c', hc'⟩, ⟨c, hc⟩, ⟨c, hc⟩,
      ⟨c, hc⟩, ⟨c, hc⟩, ⟨c, hc⟩]

/-- **Four components with a bit set have it cleared in their `^`.** -/
theorem sharesB_setBits (m : Word d) (hx : SharesB layout x v) :
    SharesB layout (fun i k => setBits m (x i k)) fun j => v j &&& ~~~m := by
  refine sharesB_of_xor (fun i => congrArg (setBits m) (replicatedB_one hx i))
    (fun i => congrArg (setBits m) (replicatedB_two hx i)) ?_
  rw [← xor_eq hx]
  refine funext fun j => BitVec.eq_of_getLsbD_eq fun t ht => ?_
  change ((x 0 0 j ||| m) ^^^ (x 1 0 j ||| m) ^^^ (x 2 0 j ||| m) ^^^ (x 3 0 j ||| m)).getLsbD t
    = ((x 0 0 j ^^^ x 1 0 j ^^^ x 2 0 j ^^^ x 3 0 j) &&& ~~~m).getLsbD t
  simp only [BitVec.getLsbD_xor, BitVec.getLsbD_or, BitVec.getLsbD_and, BitVec.getLsbD_not, ht,
    decide_true, Bool.true_and]
  cases m.getLsbD t with
  | true => simp only [Bool.or_true, Bool.xor_self, Bool.false_xor, Bool.not_true, Bool.and_false]
  | false => simp only [Bool.or_false, Bool.not_false, Bool.and_true]

end Bits

variable {Good : G → Prop}

section Products

omit [RandomGenerator G d] in
/-- What holds of the components and of all messages, and is kept by the operators, holds of the
sums that a party returns. -/
theorem gateShares_closed {V : Type} {p : V → Prop} {mul add : V → V → V}
    (hmul : ∀ {a b}, p a → p b → p (mul a b)) (hadd : ∀ {a b}, p a → p b → p (add a b))
    {x y : Fin 3 → V} (hx : ∀ k, p (x k)) (hy : ∀ k, p (y k)) {a₁ r₁ a₂ r₂ a₃ r₃ : V}
    (ha₁ : p a₁) (hr₁ : p r₁) (ha₂ : p a₂) (hr₂ : p r₂) (ha₃ : p a₃) (hr₃ : p r₃) {s : Second V}
    (h₁ : p s.r21) (h₂ : p s.r22) (h₃ : p s.r23) (h₄ : p s.shares21) (h₅ : p s.shares22)
    (i : Fin 4) (k : Fin 3) : p (gateShares mul add i x y a₁ r₁ a₂ r₂ a₃ r₃ s k) := by
  have hbase : ∀ {a r : V} (k : Fin 3), p a → p r → p (add (add (mul (x k) (y k)) a) r) :=
    fun k ha hr => hadd (hadd (hmul (hx k) (hy k)) ha) hr
  have b₁ := hbase 0 ha₁ hr₁
  have b₂ := hbase 1 ha₂ hr₂
  have b₃ := hbase 2 ha₃ hr₃
  fin_cases i <;> fin_cases k
  exacts [hadd (hadd b₁ h₄) h₃, hadd b₂ h₁, b₃, hadd b₁ h₃, hadd b₂ h₂, hadd b₃ h₄, b₁,
    hadd (hadd b₂ h₅) h₂, hadd b₃ h₄, hadd b₁ h₄, hadd (hadd b₂ h₅) h₁, b₃]

variable {x y : Fin 4 → EVector 3 n d} {a b : Fin n → Bool} {Good : G → Prop} {g : Fin 4 → G}

omit [RandomGenerator G d] in
/-- **The outputs are bits**, if the components are and there are no masks. -/
theorem single_output (hx : ∀ i k, ∃ c : Fin n → Bool, x i k = bits d c)
    (hy : ∀ i k, ∃ c : Fin n → Bool, y i k = bits d c) (i : Fin 4) (k : Fin 3) :
    ∃ c : Fin n → Bool, WordRing.bool.output x y (fun _ => ⟨0, 0, 0, 0, 0⟩) i k = bits d c := by
  let p (v : Vec n d) : Prop := ∃ c : Fin n → Bool, v = bits d c
  have hand : ∀ {u v}, p u → p v → p (u &&& v) := by
    rintro _ _ ⟨c, rfl⟩ ⟨c', rfl⟩
    exact ⟨_, (bits_and c c').symm⟩
  have hxor : ∀ {u v}, p u → p v → p (u ^^^ v) := by
    rintro _ _ ⟨c, rfl⟩ ⟨c', rfl⟩
    exact ⟨_, (bits_xor c c').symm⟩
  have hzero : p 0 := ⟨fun _ => false, rfl⟩
  have hmasked : ∀ i j l, p (masked (· &&& ·) (· ^^^ ·) (· ^^^ ·) (x i) (y i) j l 0) :=
    fun i j l => hxor (hxor (hand (hx i j) (hy i l)) (hand (hx i l) (hy i j))) hzero
  have hite : ∀ (c : Prop) [Decidable c] {u v}, p u → p v → p (if c then u else v) := by
    intro c _ u v hu hv
    split
    exacts [hu, hv]
  exact gateShares_closed (p := p) hand hxor (hx i) (hy i) (hmasked i 0 1) hzero (hmasked i 1 2)
    hzero (hmasked (i + 2) 0 1) hzero (hite _ hzero hzero) (hite _ hzero hzero) hzero
    (hmasked i 0 2) (hite _ (hmasked (i + 1) 0 2) hzero) i k

theorem ensures_andBit (hz : ZeroMasks d Good) (hg : ∀ i, Good (g i)) (hx : SharesBit layout x a)
    (hy : SharesBit layout y b) (hn : 3 ≤ n) :
    Ensures .buffered (fun i => andB i (x i) (y i)) g fun z g' _ =>
      SharesBit layout z (fun j => a j && b j) ∧ ∀ i, Good (g' i) := by
  refine (ensures_output (R := .bool) hz hg hx.shares hy.shares hn).mono fun z g' _ h => ?_
  obtain ⟨rfl, hshares, hg'⟩ := h
  refine ⟨⟨?_, single_output hx.single hy.single⟩, hg'⟩
  rw [bits_and]
  exact hshares

/-- **Products keep bits**, without masks. -/
theorem keepsBits (hz : ZeroMasks d Good) : Protocol.KeepsBits (protocol d G) layout 3 (· = 0)
    (fun g => ∀ i, Good (g i)) .buffered where
  toCorrect := correct hz
  notB1 := sharesBit_notB1
  ofBit := id
  xor := SharesBit.xor
  andK hg hx hy hn := ensures_andBit hz hg hx hy hn

end Products

/-- The sharing in which party `0`'s component is the value itself. -/
def plain (v : Vec n d) (i : Fin 4) : EVector 3 n d := fun k => if layout i k = 0 then v else 0

omit [RandomGenerator G d] in
theorem sharesB_plain (v : Vec n d) : SharesB layout (plain v) v := by
  refine sharesB_of_xor (fun i => rfl) (fun i => rfl) (funext fun j => ?_)
  change v j ^^^ 0#d.bits ^^^ 0#d.bits ^^^ 0#d.bits = v j
  simp only [BitVec.xor_zero]

end Tva.Fantastic4pc
