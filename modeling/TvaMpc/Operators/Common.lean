import TvaMpc.Protocols.CorrectBits

/-!
# Operators/Common — oblivious choice

`multiplex` picks from two vectors by a shared bit, the boolean one by extending the bit to a mask,
the arithmetic one by multiplying with it.
-/

namespace Tva.Operators

open Machinery

variable {N ρ n least : ℕ} {d : DataType} {G : Type}

/-- **Room for rounds**: the rounds of a sort or an aggregation work on half of the rows, unless
there is one row only. -/
def RoomForRounds (least n : ℕ) : Prop := n ≤ 1 ∨ 2 * least ≤ n + 1

instance (least n : ℕ) : Decidable (RoomForRounds least n) := inferInstanceAs (Decidable (_ ∨ _))

theorem roomForRounds_zero (n : ℕ) : RoomForRounds 0 n := .inr (by omega)

section Model

variable (P : Protocol N ρ d G)

/-- `multiplex` of boolean shared vectors: `b` where `sel` is set, `a` elsewhere. -/
def multiplexB (sel a b : EVector ρ n d) : PartyM N d G (EVector ρ n d) := do
  let selExtended := fun k => extendLsb (sel k)
  let left ← P.andB (P.notB selExtended) a
  let right ← P.andB selExtended b
  return P.xorB left right

/-- `multiplex` of arithmetic shared vectors. -/
def multiplexA (sel a b : EVector ρ n d) : PartyM N d G (EVector ρ n d) := do
  let left ← P.multiplyA sel a
  let right ← P.multiplyA sel b
  return P.addA (P.subA a left) right

end Model

/-! ## What they choose -/

/-- Choosing through an extended bit. -/
theorem choose_extended (s : Fin n → Bool) (u v : Vec n d) :
    (~~~(fun j => if s j then BitVec.allOnes d.bits else 0 : Vec n d) &&& u)
      ^^^ ((fun j => if s j then BitVec.allOnes d.bits else 0 : Vec n d) &&& v)
      = fun j => if s j then v j else u j := by
  funext j
  change (~~~(if s j then BitVec.allOnes d.bits else 0) &&& u j)
    ^^^ ((if s j then BitVec.allOnes d.bits else 0) &&& v j) = if s j then v j else u j
  have h0 : (0 : Word d) = 0#d.bits := rfl
  cases s j <;> simp [h0]

variable [NeZero ρ] {layout : Fin N → Fin ρ → Fin N} {P : Fin N → Protocol N ρ d G}
variable {dataParty : Fin N → Prop} {Good : (Fin N → G) → Prop} {mode : SendMode}
variable {g : Fin N → G} {x y sel : Fin N → EVector ρ n d} {u v : Vec n d} {s : Fin n → Bool}

/-- Whatever the extended components share, it chooses bit by bit. -/
theorem ensures_chooseB (hP : Protocol.Correct P layout least dataParty Good mode) (hg : Good g)
    {e : Vec n d} (hs : SharesB layout (fun i k => extendLsb (sel i k)) e)
    (hx : SharesB layout x u) (hy : SharesB layout y v) (hn : least ≤ n) :
    Ensures mode (fun i => multiplexB (P i) (sel i) (x i) (y i)) g fun z g' _ =>
      SharesB layout z ((~~~e &&& u) ^^^ (e &&& v)) ∧ Good g' := by
  refine (hP.andB hg (hP.notB hs) hx hn).bind fun l g₁ _ hl => ?_
  refine (hP.andB hl.2 hs hy hn).bind fun r g₂ _ hr => Ensures.pure ⟨?_, hr.2⟩
  simp only [hP.xorB]
  exact hl.1.xor hr.1

theorem ensures_multiplexB (hP : Protocol.Correct P layout least dataParty Good mode) (hg : Good g)
    (hs : SharesBit layout sel s) (hx : SharesB layout x u) (hy : SharesB layout y v)
    (hn : least ≤ n) :
    Ensures mode (fun i => multiplexB (P i) (sel i) (x i) (y i)) g fun z g' _ =>
      SharesB layout z (fun j => if s j then v j else u j) ∧ Good g' := by
  rw [← choose_extended s u v]
  exact ensures_chooseB hP hg hs.extendLsb hx hy hn

theorem ensures_multiplexA (hP : Protocol.Correct P layout least dataParty Good mode) (hg : Good g)
    (hs : SharesA layout sel (bits d s)) (hx : SharesA layout x u) (hy : SharesA layout y v)
    (hn : least ≤ n) :
    Ensures mode (fun i => multiplexA (P i) (sel i) (x i) (y i)) g fun z g' _ =>
      SharesA layout z (fun j => if s j then v j else u j) ∧ Good g' := by
  refine (hP.multiplyA hg hs hx hn).bind fun l g₁ _ hl => ?_
  refine (hP.multiplyA hl.2 hs hy hn).bind fun r g₂ _ hr => Ensures.pure ⟨?_, hr.2⟩
  simp only [hP.addA, hP.subA]
  have hvalue : u - bits d s * u + bits d s * v = fun j => if s j then v j else u j := by
    funext j
    change u j - bit d (s j) * u j + bit d (s j) * v j = _
    cases s j with
    | true => rw [bit, if_pos rfl, if_pos rfl]; ring
    | false => rw [bit, if_neg Bool.false_ne_true, if_neg Bool.false_ne_true]; ring
  exact hvalue ▸ (hx.sub hl.1).add hr.1

/-! ## Ownership -/

section Ownership

variable {i : Fin N} {Q : Protocol N ρ d G}

omit [NeZero ρ] in
theorem ownedBy_multiplexB (hQ : Protocol.OwnedBy i Q) (sel a b : EVector ρ n d) :
    OwnedBy i (multiplexB Q sel a b) :=
  (hQ.andB _ _).bind fun _ => (hQ.andB _ _).bind fun _ => .pure _

omit [NeZero ρ] in
theorem ownedBy_multiplexA (hQ : Protocol.OwnedBy i Q) (sel a b : EVector ρ n d) :
    OwnedBy i (multiplexA Q sel a b) :=
  (hQ.multiplyA _ _).bind fun _ => (hQ.multiplyA _ _).bind fun _ => .pure _

end Ownership

end Tva.Operators
