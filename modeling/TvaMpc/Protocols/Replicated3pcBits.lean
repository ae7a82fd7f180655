import TvaMpc.Containers.References
import TvaMpc.Protocols.CorrectBits
import TvaMpc.Protocols.Replicated3pcCorrect

/-!
# Protocols/Replicated3pcBits — with zero masks, bits stay bits

A gate masks its result with whole words, so a sharing of bits need not have bits as components.
It has when the masks of `and_b` are zero (`ZeroMasks`): then the three-party protocol meets the
contract with bits (`correctBits`).
-/

namespace Tva.Replicated3pc

open Machinery

variable {n : ℕ} {d : DataType} {G : Type} {mode : SendMode}

section Bits

variable {x y : Fin 3 → EVector 2 n d} {a b : Fin n → Bool}

theorem sharesBit_notB1 (hx : SharesBit layout x b) :
    SharesBit layout (fun i => notB1 (x i)) fun j => !b j := by
  have hsingle : ∀ i k, ∃ c : Fin n → Bool, notB1 (x i) k = bits d c := by
    intro i k
    obtain ⟨c, hc⟩ := hx.single i k
    refine ⟨fun j => !c j, ?_⟩
    rw [← logicalNot_bits, ← hc]
    fin_cases k <;> rfl
  refine ⟨sharesB_of_xor (fun i => congrArg logicalNot (replicatedB_eq hx.shares i)) ?_, hsingle⟩
  have hxor := xor_eq hx.shares
  obtain ⟨c₀, h₀⟩ := hx.single 0 0
  obtain ⟨c₁, h₁⟩ := hx.single 1 0
  obtain ⟨c₂, h₂⟩ := hx.single 2 0
  rw [h₀, h₁, h₂, ← bits_xor, ← bits_xor] at hxor
  have hb := bits_inj hxor
  change logicalNot (x 0 0) ^^^ logicalNot (x 1 0) ^^^ logicalNot (x 2 0) = _
  rw [h₀, h₁, h₂, logicalNot_bits, logicalNot_bits, logicalNot_bits, ← bits_xor, ← bits_xor, ← hb]
  refine congrArg (bits d) (funext fun j => ?_)
  change ((!c₀ j) ^^ (!c₁ j) ^^ !c₂ j) = !(c₀ j ^^ c₁ j ^^ c₂ j)
  cases c₀ j <;> cases c₁ j <;> cases c₂ j <;> rfl

/-- Three components with a bit set have it set in their `^`. -/
theorem sharesB_setBits {v : Vec n d} (m : Word d) (hx : SharesB layout x v) :
    SharesB layout (fun i k => setBits m (x i k)) (setBits m v) := by
  refine sharesB_of_xor (fun i => congrArg (setBits m) (replicatedB_eq hx i)) ?_
  rw [← xor_eq hx]
  refine funext fun j => BitVec.eq_of_getLsbD_eq fun b _ => ?_
  change ((x 0 0 j ||| m) ^^^ (x 1 0 j ||| m) ^^^ (x 2 0 j ||| m)).getLsbD b
    = ((x 0 0 j ^^^ x 1 0 j ^^^ x 2 0 j) ||| m).getLsbD b
  simp only [BitVec.getLsbD_xor, BitVec.getLsbD_or]
  cases (x 0 0 j).getLsbD b <;> cases (x 1 0 j).getLsbD b <;>
    cases (x 2 0 j).getLsbD b <;> cases m.getLsbD b <;> rfl

end Bits

variable [RandomGenerator G d] {Good : (Fin 3 → G) → Prop}

/-- **Zero masks**: what `and_b` draws is zero, now and after everything the parties draw. -/
structure ZeroMasks (d : DataType) [RandomGenerator G d] (Good : (Fin 3 → G) → Prop) : Prop
    extends ZeroSharing d Good where
  zeroB {g : Fin 3 → G} (hg : Good g) (n : ℕ) (i : Fin 3) : mask d 5 n (g i) = 0

/-- Without masks, products of bits are bits. -/
theorem ensures_andBit (hz : ZeroMasks d Good) {x y : Fin 3 → EVector 2 n d} {a b : Fin n → Bool}
    {g : Fin 3 → G} (hg : Good g) (hx : SharesBit layout x a) (hy : SharesBit layout y b) :
    Ensures mode (fun i => andB i (x i) (y i)) g fun z g' _ =>
      SharesBit layout z (fun j => a j && b j) ∧ Good g' := by
  have hmasks := sum_masksB (r := fun i => mask d 5 n (g i)) (hz.masksB hg n)
  refine .of_yields (yields_gate _ _ x y) ⟨⟨?_, fun i k => ?_⟩, hz.afterB hg n⟩
  · rw [bits_and]
    exact @shares_product n (Word d) (boolRing d) x y _ _ _ hx.shares hy.shares hmasks
  have hgate : ∀ i, ∃ c : Fin n → Bool, gateShare 5 (fun x y r => (x 0 &&& y 0) ^^^ (x 0 &&& y 1)
      ^^^ (x 1 &&& y 0) ^^^ r) x y g i = bits d c := by
    intro i
    obtain ⟨a₀, ha₀⟩ := hx.single i 0
    obtain ⟨a₁, ha₁⟩ := hx.single i 1
    obtain ⟨b₀, hb₀⟩ := hy.single i 0
    obtain ⟨b₁, hb₁⟩ := hy.single i 1
    refine ⟨fun j => (a₀ j && b₀ j) ^^ (a₀ j && b₁ j) ^^ (a₁ j && b₀ j), ?_⟩
    rw [gateShare, hz.zeroB hg, ha₀, ha₁, hb₀, hb₁]
    funext j
    rw [bits, Bool.xor_assoc, ← Bool.xor_assoc, bit_xor, bit_xor, bit_and, bit_and, bit_and]
    exact BitVec.xor_zero
  fin_cases k
  exacts [hgate i, hgate (i - 1)]

/-- **The three-party protocol with zero masks keeps bits.** -/
theorem correctBits (hz : ZeroMasks d Good) :
    Protocol.CorrectBits (protocol d G) layout 0 (fun _ => True) Good mode where
  toCorrect := correct hz.toZeroSharing
  notB1 := sharesBit_notB1
  andBit hg hx hy _ := ensures_andBit hz hg hx hy
  setBits := sharesB_setBits

/-! ## A generator of zeros -/

/-- The streams are zero, but for the parties' own randomness. -/
def ZeroStreams (g : Fin 3 → Streams d) : Prop := ∀ i id t, (g i).channel id t = 0

theorem mask_channel (id n : ℕ) (g : Streams d) : mask d id n g = fun j : Fin n =>
    g.channel id j := by
  funext j
  refine (fillNums_apply ..).trans ?_
  rw [if_pos j.isLt, Streams.afterDraw_iterate]
  simp only [Streams.draw, Function.update_self, Nat.zero_add]

theorem channel_afterNext (id n : ℕ) (g : Streams d) (id' t : ℕ) :
    (afterNext d id n g).channel id' t = g.channel id' (if id' = id then t + n else t) := by
  have hstate : afterNext d id n g = (afterDraw (Streams.draw id))^[n] g := fillNums_state _ _ _ _
  rw [hstate, Streams.afterDraw_iterate]
  by_cases h : id' = id
  · subst h
    simp only [Function.update_self, if_true]
  · simp only [Function.update_of_ne h, if_neg h]

theorem mask_streams {g : Fin 3 → Streams d} (hg : ZeroStreams g) (id n : ℕ) (i : Fin 3) :
    mask d id n (g i) = 0 := by
  rw [mask_channel]
  exact funext fun j => hg i id j

theorem zeroStreams_afterNext {g : Fin 3 → Streams d} (hg : ZeroStreams g) (id n : ℕ) :
    ZeroStreams fun i => afterNext d id n (g i) := fun i id' t => by
  rw [channel_afterNext]
  exact hg i id' _

theorem channel_afterRandom (g : Streams d) (n : ℕ) : (afterRandom d n g).channel = g.channel := by
  have hstate : afterRandom d n g = (afterDraw Streams.drawRandom)^[n] g := fillNums_state _ _ _ _
  rw [hstate]
  induction n with
  | zero => rfl
  | succ n ih =>
    rw [Function.iterate_succ_apply']
    exact ih (fillNums_state _ _ _ _)

theorem channel_afterDeal (g : Fin 3 → Streams d) (n : ℕ) (p i : Fin 3) :
    (afterDeal d n p g i).channel = (g i).channel := by
  rw [afterDeal]
  by_cases h : i = p
  · subst h
    rw [Function.update_self, channel_afterRandom, channel_afterRandom]
  · rw [Function.update_of_ne h]

theorem zeroMasks_streams : ZeroMasks d (ZeroStreams (d := d)) where
  masksA hg n := by simp only [mask_streams hg, Finset.sum_const_zero]
  masksB hg n := by
    simp only [mask_streams hg]
    exact funext fun j => by simp
  afterA hg n := zeroStreams_afterNext hg 2 n
  afterB hg n := zeroStreams_afterNext hg 5 n
  afterDeal {g} hg n p i id t := by
    rw [channel_afterDeal]
    exact hg i id t
  zeroB hg n i := mask_streams hg 5 n i

theorem zeroStreams_zero : ZeroStreams (zeroStreams d) := fun _ _ _ => rfl

/-- The sharing in which party `0`'s component is the value itself. -/
def plain (v : Vec n d) (i : Fin 3) : EVector 2 n d := fun k => if layout i k = 0 then v else 0

theorem shares_plain (c : Column) (v : Vec n d) : SharesC layout c (plain v) v := by
  have hrep : ∀ i : Fin 3, ∀ k, plain v i k = plain v (layout i k) 0 := fun i k => rfl
  cases c with
  | a => exact shares_of_sum (fun i => hrep i 1) (by simp [plain, layout])
  | b =>
    refine sharesB_of_xor (fun i => hrep i 1) (funext fun j => ?_)
    change v j ^^^ 0#d.bits ^^^ 0#d.bits = v j
    rw [BitVec.xor_zero, BitVec.xor_zero]

theorem sharesB_plain (v : Vec n d) : SharesB layout (plain v) v := shares_plain (.b 0) v

end Tva.Replicated3pc
