import Mathlib.Data.Fin.VecNotation
import Mathlib.Tactic.FinCases
import Mathlib.Data.Fintype.Basic

/-!
# Machinery/SingleBit — two functions that are linear on single bits only

A bit is shared by three words: it is the lowest bit of their `^`, whatever stands above the lowest
bits (`upper`).  The test for zero and the negation, applied to each of the three words, negate and
extend the bit if nothing stands above.  Exactly how much may stand above:

    the test for zero negates   ↔   all upper parts are zero             (`upper_eq_zero_of_isZero`)
    the negation extends        ↔   all upper parts are their negations  (`neg_extends_iff`)
-/

namespace Machinery

variable {w : ℕ}

/-- The bits above the lowest one. -/
def upper (x : BitVec w) : BitVec w := x &&& ~~~1#w

theorem getLsbD_upper (x : BitVec w) (b : ℕ) :
    (upper x).getLsbD b = (decide (0 < b) && x.getLsbD b) := by
  rw [upper, BitVec.getLsbD_and, BitVec.getLsbD_not, BitVec.getLsbD_one]
  by_cases hb : b < w
  · rcases Nat.eq_zero_or_pos b with rfl | hpos
    · simp [hb]
    · simp [hb, hpos, hpos.ne']
  · simp [BitVec.getLsbD_of_ge x b (not_lt.mp hb)]

@[simp] theorem upper_zero : upper 0#w = 0#w := BitVec.zero_and

theorem upper_xor (x y : BitVec w) : upper (x ^^^ y) = upper x ^^^ upper y :=
  BitVec.eq_of_getLsbD_eq fun b _ => by
    simp only [getLsbD_upper, BitVec.getLsbD_xor, Bool.and_xor_distrib_left]

theorem upper_and (x y : BitVec w) : upper (x &&& y) = upper x &&& upper y :=
  BitVec.eq_of_getLsbD_eq fun b _ => by
    simp only [getLsbD_upper, BitVec.getLsbD_and]
    cases decide (0 < b) <;> rfl

@[simp] theorem upper_upper (x : BitVec w) : upper (upper x) = upper x :=
  BitVec.eq_of_getLsbD_eq fun b _ => by
    rw [getLsbD_upper, getLsbD_upper, ← Bool.and_assoc, Bool.and_self]

/-- The lowest bit and the others determine a word. -/
theorem eq_of_upper {x y : BitVec w} (hlow : x.getLsbD 0 = y.getLsbD 0) (hup : upper x = upper y) :
    x = y := by
  refine BitVec.eq_of_getLsbD_eq fun b _ => ?_
  cases b with
  | zero => exact hlow
  | succ b =>
    have hb := congrArg (fun z : BitVec w => z.getLsbD (b + 1)) hup
    simpa only [getLsbD_upper, Nat.succ_pos, decide_true, Bool.true_and] using hb

/-- A word with the given lowest bit below the upper part of `u`. -/
def withLow (l : Bool) (u : BitVec w) : BitVec w := upper u ||| if l then 1#w else 0#w

theorem upper_withLow (l : Bool) (u : BitVec w) : upper (withLow l u) = upper u := by
  refine BitVec.eq_of_getLsbD_eq fun b _ => ?_
  rw [getLsbD_upper, withLow, BitVec.getLsbD_or, getLsbD_upper]
  cases b with
  | zero => rfl
  | succ b => cases l <;> simp

theorem getLsbD_withLow (hw : 0 < w) (l : Bool) (u : BitVec w) : (withLow l u).getLsbD 0 = l := by
  rw [withLow, BitVec.getLsbD_or, getLsbD_upper]
  cases l <;> simp [hw]

theorem withLow_self (hw : 0 < w) (x : BitVec w) : withLow (x.getLsbD 0) x = x :=
  eq_of_upper (getLsbD_withLow hw _ _) (upper_withLow _ _)

/-! ## The test for zero -/

/-- The test for zero, as a word. -/
def isZero (x : BitVec w) : BitVec w := if x = 0#w then 1#w else 0#w

theorem getLsbD_isZero (hw : 0 < w) (x : BitVec w) :
    (isZero x).getLsbD 0 = (!x.getLsbD 0 && decide (upper x = 0#w)) := by
  have hzero : x = 0#w ↔ x.getLsbD 0 = false ∧ upper x = 0#w :=
    ⟨fun h => by simp [h], fun h => eq_of_upper (by simpa using h.1) (by rw [h.2, upper_zero])⟩
  rw [isZero]
  split
  · rename_i hx
    obtain ⟨hlow, hup⟩ := hzero.mp hx
    rw [hlow, hup]
    simp [hw]
  · rename_i hx
    rw [BitVec.getLsbD_zero, eq_comm, Bool.and_eq_false_iff, Bool.not_eq_false',
      decide_eq_false_iff_not]
    by_contra hboth
    rw [not_or, Bool.not_eq_true, not_not] at hboth
    exact hx (hzero.mpr hboth)

variable {r : Fin 3 → BitVec w}

/-- **Where the test for zero negates a shared bit**, whatever the lowest bits of its components,
nothing stands above them. -/
theorem upper_eq_zero_of_isZero (hw : 0 < w)
    (h : ∀ z : Fin 3 → BitVec w, (∀ i, upper (z i) = upper (r i)) →
      (isZero (z 0) ^^^ isZero (z 1) ^^^ isZero (z 2)).getLsbD 0
        = !(z 0 ^^^ z 1 ^^^ z 2).getLsbD 0) (i : Fin 3) : upper (r i) = 0#w := by
  have hlow : ∀ l : Fin 3 → Bool,
      (((!l 0 && decide (upper (r 0) = 0#w)) ^^ (!l 1 && decide (upper (r 1) = 0#w)))
        ^^ (!l 2 && decide (upper (r 2) = 0#w))) = !(l 0 ^^ l 1 ^^ l 2) := by
    intro l
    have hz := h (fun i => withLow (l i) (r i)) fun i => upper_withLow _ _
    simpa only [BitVec.getLsbD_xor, getLsbD_isZero hw, getLsbD_withLow hw, upper_withLow] using hz
  -- three choices of the lowest bits are enough
  have h000 := hlow ![false, false, false]
  have h100 := hlow ![true, false, false]
  have h010 := hlow ![false, true, false]
  have hall : decide (upper (r 0) = 0#w) = true ∧ decide (upper (r 1) = 0#w) = true ∧
      decide (upper (r 2) = 0#w) = true := by
    revert h000 h100 h010
    generalize decide (upper (r 0) = 0#w) = a
    generalize decide (upper (r 1) = 0#w) = b
    generalize decide (upper (r 2) = 0#w) = c
    revert a b c
    decide
  simp only [decide_eq_true_eq] at hall
  fin_cases i
  exacts [hall.1, hall.2.1, hall.2.2]

/-! ## The negation -/

theorem neg_withLow (l : Bool) (u : BitVec w) :
    -withLow l u = if l then ~~~upper u else -upper u := by
  -- below the upper part there is no carry
  have hdisjoint : upper u &&& (if l then 1#w else 0#w) = 0#w := by
    refine BitVec.eq_of_getLsbD_eq fun b _ => ?_
    rw [BitVec.getLsbD_and, getLsbD_upper]
    cases l <;> cases b <;> simp
  rw [withLow, ← BitVec.add_eq_or_of_and_eq_zero _ _ hdisjoint]
  cases l with
  | false => rw [if_neg Bool.false_ne_true, if_neg Bool.false_ne_true, BitVec.add_zero]
  | true => rw [if_pos rfl, if_pos rfl, BitVec.not_eq_neg_add, BitVec.neg_add]

/-- All bits equal to `l`. -/
def spreadBit (w : ℕ) (l : Bool) : BitVec w := if l then BitVec.allOnes w else 0#w

theorem not_eq_xor_spreadBit (l : Bool) (u : BitVec w) :
    (if l then ~~~u else u) = u ^^^ spreadBit w l := by
  cases l with
  | false => exact BitVec.xor_zero.symm
  | true => exact BitVec.xor_allOnes.symm

theorem spreadBit_xor (k l : Bool) : spreadBit w (k ^^ l) = spreadBit w k ^^^ spreadBit w l := by
  cases k <;> cases l <;> simp [spreadBit]

theorem not_xor_not (x y : BitVec w) : ~~~x ^^^ ~~~y = x ^^^ y := by
  rw [← BitVec.not_xor_left, ← BitVec.not_xor_right, BitVec.not_not]

/-- Two upper parts complemented, the third negated. -/
theorem neg_eq_of_xor {a b c : BitVec w} (hr : a ^^^ b ^^^ c = 0#w)
    (h : ~~~a ^^^ ~~~b ^^^ -c = 0#w) : -c = c := by
  rw [not_xor_not, BitVec.xor_eq_zero_iff] at h
  exact h.symm.trans (BitVec.xor_eq_zero_iff.mp hr)

/-- **Where the negation extends a shared bit**: exactly if the upper parts, which cancel, are their
own negations. -/
theorem neg_extends_iff (hw : 0 < w) (hr : upper (r 0) ^^^ upper (r 1) ^^^ upper (r 2) = 0#w) :
    (∀ z : Fin 3 → BitVec w, (∀ i, upper (z i) = upper (r i)) →
      -z 0 ^^^ -z 1 ^^^ -z 2 = spreadBit w ((z 0 ^^^ z 1 ^^^ z 2).getLsbD 0)) ↔
      ∀ i, -upper (r i) = upper (r i) := by
  constructor
  · intro h
    have hlow : ∀ l : Fin 3 → Bool, (if l 0 then ~~~upper (r 0) else -upper (r 0))
        ^^^ (if l 1 then ~~~upper (r 1) else -upper (r 1))
        ^^^ (if l 2 then ~~~upper (r 2) else -upper (r 2)) = spreadBit w (l 0 ^^ l 1 ^^ l 2) := by
      intro l
      have hz := h (fun i => withLow (l i) (r i)) fun i => upper_withLow _ _
      simpa only [BitVec.getLsbD_xor, getLsbD_withLow hw, neg_withLow] using hz
    -- one component without the bit: its negation must cancel against the other two
    have h011 : -upper (r 0) ^^^ ~~~upper (r 1) ^^^ ~~~upper (r 2) = 0#w :=
      hlow ![false, true, true]
    have h101 : ~~~upper (r 0) ^^^ -upper (r 1) ^^^ ~~~upper (r 2) = 0#w :=
      hlow ![true, false, true]
    have h110 : ~~~upper (r 0) ^^^ ~~~upper (r 1) ^^^ -upper (r 2) = 0#w :=
      hlow ![true, true, false]
    have h0 : -upper (r 0) = upper (r 0) :=
      neg_eq_of_xor (a := upper (r 1)) (b := upper (r 2)) (by rw [← hr]; ac_rfl)
        (by rw [← h011]; ac_rfl)
    have h1 : -upper (r 1) = upper (r 1) :=
      neg_eq_of_xor (a := upper (r 0)) (b := upper (r 2)) (by rw [← hr]; ac_rfl)
        (by rw [← h101]; ac_rfl)
    have h2 : -upper (r 2) = upper (r 2) := neg_eq_of_xor hr h110
    intro i
    fin_cases i
    exacts [h0, h1, h2]
  · intro h z hz
    have hneg : ∀ i, -z i = upper (r i) ^^^ spreadBit w ((z i).getLsbD 0) := fun i => by
      conv_lhs => rw [← withLow_self hw (z i)]
      rw [neg_withLow, hz, h, not_eq_xor_spreadBit]
    rw [hneg, hneg, hneg, BitVec.getLsbD_xor, BitVec.getLsbD_xor, spreadBit_xor, spreadBit_xor]
    calc _ = (upper (r 0) ^^^ upper (r 1) ^^^ upper (r 2)) ^^^ (spreadBit w ((z 0).getLsbD 0)
          ^^^ spreadBit w ((z 1).getLsbD 0) ^^^ spreadBit w ((z 2).getLsbD 0)) := by ac_rfl
      _ = _ := by rw [hr, BitVec.zero_xor]

/-! ### A shared one

The three words need not be bits: then the negation of a shared `1` is a mask of its own. -/

/-- A bit is set below position `b`. -/
def setBelow (x : BitVec w) (b : ℕ) : Bool := decide (∃ j < b, x.getLsbD j = true)

theorem getLsbD_neg_setBelow {x : BitVec w} {b : ℕ} (hb : b < w) :
    (-x).getLsbD b = (x.getLsbD b ^^ setBelow x b) := by
  rw [BitVec.getLsbD_neg, decide_eq_true hb, Bool.true_and, setBelow]

theorem setBelow_zero (x : BitVec w) : setBelow x 0 = false :=
  decide_eq_false fun ⟨_, hj, _⟩ => Nat.not_lt_zero _ hj

theorem getLsbD_neg_xor {x y z : BitVec w} (h : x ^^^ y ^^^ z = 1#w) {b : ℕ} (hb : b < w) :
    (-x ^^^ -y ^^^ -z).getLsbD b
      = (decide (b = 0) ^^ (setBelow x b ^^ setBelow y b ^^ setBelow z b)) := by
  have hone : (x.getLsbD b ^^ y.getLsbD b ^^ z.getLsbD b) = decide (b = 0) := by
    rw [← BitVec.getLsbD_xor, ← BitVec.getLsbD_xor, h, BitVec.getLsbD_one,
      decide_eq_true (Nat.zero_lt_of_lt hb), Bool.true_and]
  rw [BitVec.getLsbD_xor, BitVec.getLsbD_xor, getLsbD_neg_setBelow hb, getLsbD_neg_setBelow hb,
    getLsbD_neg_setBelow hb, ← hone]
  simp only [Bool.xor_assoc, Bool.xor_left_comm]

/-- **The negation extends a shared one** exactly if everywhere above the lowest bit an odd number
of the three words has a bit set below. -/
theorem neg_xor_eq_allOnes_iff {x y z : BitVec w} (h : x ^^^ y ^^^ z = 1#w) :
    -x ^^^ -y ^^^ -z = BitVec.allOnes w ↔
      ∀ b < w, 0 < b → (setBelow x b ^^ setBelow y b ^^ setBelow z b) = true := by
  constructor
  · intro he b hb hpos
    have hbit := getLsbD_neg_xor h hb
    rw [he, BitVec.getLsbD_allOnes, decide_eq_true hb, decide_eq_false hpos.ne',
      Bool.false_xor] at hbit
    exact hbit.symm
  · intro hodd
    refine BitVec.eq_of_getLsbD_eq fun b hb => ?_
    rw [getLsbD_neg_xor h hb, BitVec.getLsbD_allOnes, decide_eq_true hb]
    rcases Nat.eq_zero_or_pos b with rfl | hpos
    · simp only [setBelow_zero, decide_true, Bool.xor_false]
    · rw [hodd b hb hpos, decide_eq_false hpos.ne', Bool.false_xor]

end Machinery
