import Mathlib.Data.BitVec
import Mathlib.Tactic.Linarith
import Mathlib.Tactic.Ring

/-!
# Machinery/SplitDivision — dividing a number that is split in two summands

Each summand is divided on its own, towards zero and then one down if it is negative.  The two
remainders tell whether the sum of the quotients is one too small (`ediv_add`), unless both summands
are negative.

A summand may also be moved by the divisor **before** it is divided.  As a word it can wrap then,
and `wrapped_ediv_add_iff` says where the result is right all the same.
-/

namespace Machinery

/-! ## Integers -/

section Integers

variable {a b c : ℤ}

/-- The quotient of a summand: towards zero, and one less if it is negative. -/
def roundedQuotient (a c : ℤ) : ℤ := a.tdiv c - if a < 0 then 1 else 0

/-- The remainder that goes with it. -/
def roundedRemainder (a c : ℤ) : ℤ := a.tmod c + (if a < 0 then 1 else 0) * c

theorem rounded_eq (a c : ℤ) : roundedQuotient a c * c + roundedRemainder a c = a := by
  have h := Int.tdiv_mul_add_tmod a c
  rw [roundedQuotient, roundedRemainder, sub_mul]
  linarith

theorem roundedRemainder_of_nonneg (ha : 0 ≤ a) : roundedRemainder a c = a % c := by
  rw [roundedRemainder, if_neg (not_lt.mpr ha), zero_mul, add_zero, Int.tmod_eq_emod_of_nonneg ha]

theorem roundedQuotient_of_nonneg (ha : 0 ≤ a) : roundedQuotient a c = a / c := by
  rw [roundedQuotient, if_neg (not_lt.mpr ha), sub_zero, Int.tdiv_eq_ediv_of_nonneg ha]

/-- A negative summand leaves at least one. -/
theorem roundedRemainder_of_neg (hc : 0 < c) (ha : a < 0) :
    0 < roundedRemainder a c ∧ roundedRemainder a c ≤ c := by
  have h := Int.emod_nonneg (-a) hc.ne'
  have h' := Int.emod_lt_of_pos (-a) hc
  have hneg : a.tmod c = -(-a % c) := by
    rw [← Int.tmod_eq_emod_of_nonneg (neg_nonneg.mpr ha.le), Int.neg_tmod, neg_neg]
  rw [roundedRemainder, if_pos ha, one_mul, hneg]
  omega

/-- **A quotient that is right, or one too small**: the error tells. -/
theorem ediv_of_error {x q e : ℤ} (hc : 0 < c) (hx : x = (q + 1) * c + e) (hlo : -c ≤ e)
    (hhi : e < c) : x / c = q + if e < 0 then 0 else 1 := by
  rw [Int.ediv_eq_iff_of_pos hc]
  split
  all_goals constructor <;> linarith

/-- The remainders of two summands, not both negative, miss the divisor by less than itself. -/
theorem rounded_error_range (hc : 0 < c) (h : 0 ≤ a ∨ 0 ≤ b) :
    -c ≤ roundedRemainder a c + roundedRemainder b c - c ∧
      roundedRemainder a c + roundedRemainder b c - c < c := by
  have hrange : ∀ z : ℤ, 0 ≤ roundedRemainder z c ∧ roundedRemainder z c ≤ c ∧
      (0 ≤ z → roundedRemainder z c < c) := by
    intro z
    rcases lt_or_ge z 0 with hz | hz
    · obtain ⟨hpos, hle⟩ := roundedRemainder_of_neg hc hz
      exact ⟨hpos.le, hle, fun h => absurd h (not_le.mpr hz)⟩
    · rw [roundedRemainder_of_nonneg hz]
      have hlt := Int.emod_lt_of_pos z hc
      exact ⟨Int.emod_nonneg z hc.ne', hlt.le, fun _ => hlt⟩
  obtain ⟨ha, ha', ha''⟩ := hrange a
  obtain ⟨hb, hb', hb''⟩ := hrange b
  refine ⟨by linarith, ?_⟩
  rcases h with h | h
  · linarith [ha'' h]
  · linarith [hb'' h]

/-- **The quotient of a sum** from the quotients of its summands, not both of which are negative. -/
theorem ediv_add (hc : 0 < c) (h : 0 ≤ a ∨ 0 ≤ b) : (a + b) / c
    = roundedQuotient a c + roundedQuotient b c
      + if roundedRemainder a c + roundedRemainder b c - c < 0 then 0 else 1 := by
  have hsum : a + b = (roundedQuotient a c + roundedQuotient b c + 1) * c
      + (roundedRemainder a c + roundedRemainder b c - c) := by
    have ha := rounded_eq a c
    have hb := rounded_eq b c
    linarith
  obtain ⟨hlo, hhi⟩ := rounded_error_range hc h
  exact ediv_of_error hc hsum hlo hhi

/-- Moving a negative summand by the divisor first. -/
theorem rounded_sub (ha : a < 0) (hc : 0 < c) :
    (a - c).tdiv c = roundedQuotient a c ∧ (a - c).tmod c + c = roundedRemainder a c := by
  have hdiv : (a - c).tdiv c = roundedQuotient a c := by
    have hneg : ∀ z : ℤ, z < 0 → z.tdiv c = -(-z / c) := fun z hz => by
      rw [← Int.tdiv_eq_ediv_of_nonneg (neg_nonneg.mpr hz.le), Int.neg_tdiv, neg_neg]
    have hshift : -(a - c) / c = -a / c + 1 := by
      rw [show -(a - c) = -a + 1 * c by ring, Int.add_mul_ediv_right _ _ hc.ne']
    rw [roundedQuotient, if_pos ha, hneg a ha, hneg (a - c) (by linarith), hshift]
    ring
  refine ⟨hdiv, ?_⟩
  have h := Int.tdiv_mul_add_tmod (a - c) c
  have h' := rounded_eq a c
  rw [hdiv] at h
  linarith

/-- **Where a wrapped summand does no harm**: `a` has become `a - c + 2 * m`, which is positive.
The result is right only if it is `0` and neither part reaches the divisor. -/
theorem wrapped_ediv_add_iff {m : ℤ} (hc : 0 < c) (hcm : c < m) (ha : a < 0) (hb : b < m)
    (hover : a - c < -m) (hx : 0 ≤ a + b) :
    (a - c + 2 * m) / c + b / c + (if (a - c + 2 * m) % c + b % c < m then 1 else 0) = (a + b) / c ↔
      a - c + 2 * m < c ∧ b < c := by
  set a' := a - c + 2 * m with ha'
  have hpos : 0 ≤ a' := by omega
  have hbpos : 0 ≤ b := by linarith only [ha, hx]
  have hdiv := Int.ediv_mul_add_emod a' c
  have hdiv' := Int.ediv_mul_add_emod b c
  have hx' := Int.ediv_mul_add_emod (a + b) c
  have hmod := Int.emod_nonneg (a + b) hc.ne'
  have hlt := Int.emod_lt_of_pos a' hc
  have hlt' := Int.emod_lt_of_pos b hc
  constructor
  · intro h
    -- what the quotients leave is at least `2 * m - c`
    have hlarge : 2 * m ≤ a' % c + b % c + if a' % c + b % c < m then 0 else c := by
      have hmul := congrArg (· * c) h
      split at hmul <;> simp only [add_mul, one_mul, zero_mul] at hmul
      · rw [if_pos ‹_›]
        omega
      · rw [if_neg ‹_›]
        omega
    split at hlarge
    · omega
    · -- so both remainders exceed half of the range, and their quotients are zero
      have hsmall : ∀ z : ℤ, 0 ≤ z → z < m → m ≤ z % c + (c - 1) → z < c := by
        intro z hz hzm hz'
        by_contra hge
        have hz'' := Int.ediv_mul_add_emod z c
        have hone : 1 ≤ z / c := (Int.le_ediv_iff_mul_le hc).mpr (by omega)
        have hmul := mul_le_mul_of_nonneg_right hone hc.le
        omega
      exact ⟨hsmall a' hpos (by omega) (by omega), hsmall b hbpos hb (by omega)⟩
  · rintro ⟨hsmall, hsmall'⟩
    rw [Int.ediv_eq_zero_of_lt hpos hsmall, Int.ediv_eq_zero_of_lt hbpos hsmall',
      Int.ediv_eq_zero_of_lt hx (by omega), Int.emod_eq_of_lt hpos hsmall,
      Int.emod_eq_of_lt hbpos hsmall', if_neg (by omega)]
    rfl

end Integers

/-! ## Words -/

section Words

variable {w : ℕ} {x y c : BitVec w}

theorem sdiv_eq_ofInt (x c : BitVec w) : x.sdiv c = BitVec.ofInt w (x.toInt.tdiv c.toInt) :=
  BitVec.eq_of_toInt_eq (by rw [BitVec.toInt_sdiv, BitVec.toInt_ofInt])

theorem srem_eq_ofInt (x c : BitVec w) : x.srem c = BitVec.ofInt w (x.toInt.tmod c.toInt) := by
  rw [← BitVec.toInt_srem, BitVec.ofInt_toInt]

/-- The sign of a word, as a word. -/
def negWord (x : BitVec w) : BitVec w := if x.slt 0#w then 1#w else 0#w

theorem negWord_eq_ofInt (x : BitVec w) :
    negWord x = BitVec.ofInt w (if x.toInt < 0 then 1 else 0) := by
  have hiff : x.slt 0#w = true ↔ x.toInt < 0 := by
    rw [BitVec.slt_iff_toInt_lt, BitVec.toInt_zero]
  rw [negWord]
  by_cases h : x.toInt < 0
  · rw [if_pos (hiff.mpr h), if_pos h]
    rfl
  · rw [if_neg (mt hiff.mp h), if_neg h]
    rfl

theorem ofInt_sub (m n : ℤ) : BitVec.ofInt w (m - n) = BitVec.ofInt w m - BitVec.ofInt w n := by
  rw [Int.sub_eq_add_neg, BitVec.ofInt_add, BitVec.ofInt_neg, BitVec.sub_eq_add_neg]

/-- The parts of a summand as words. -/
theorem roundedQuotient_word (x c : BitVec w) :
    x.sdiv c - negWord x = BitVec.ofInt w (roundedQuotient x.toInt c.toInt) := by
  rw [roundedQuotient, ofInt_sub, ← sdiv_eq_ofInt, ← negWord_eq_ofInt]

theorem roundedRemainder_word (x c : BitVec w) :
    x.srem c + negWord x * c = BitVec.ofInt w (roundedRemainder x.toInt c.toInt) := by
  rw [roundedRemainder, BitVec.ofInt_add, BitVec.ofInt_mul, ← srem_eq_ofInt, ← negWord_eq_ofInt,
    BitVec.ofInt_toInt]

/-- A sum that is not negative, of words not both of which are, does not wrap. -/
theorem toInt_add_of_nonneg (hxy : 0 ≤ (x + y).toInt) (h : 0 ≤ x.toInt ∨ 0 ≤ y.toInt) :
    (x + y).toInt = x.toInt + y.toInt := by
  cases w with
  | zero => rw [Subsingleton.elim x 0#0, Subsingleton.elim y 0#0]; rfl
  | succ w =>
    have hpow : (2 : ℤ) ^ (w + 1) = 2 * 2 ^ w := by ring
    have hx := x.le_toInt
    have hy := y.le_toInt
    have hx' := x.toInt_lt
    have hy' := y.toInt_lt
    simp only [Nat.add_one_sub_one] at hx hy hx' hy'
    have hcast : (((2 ^ (w + 1) : ℕ)) : ℤ) = 2 * 2 ^ w := by push_cast; exact hpow
    rw [BitVec.toInt_add] at hxy ⊢
    by_cases hover : x.toInt + y.toInt < 2 ^ w
    · refine Int.bmod_eq_of_le_mul_two ?_ ?_ <;> rw [hcast] <;> omega
    · have hwrap : (x.toInt + y.toInt).bmod (2 ^ (w + 1)) = x.toInt + y.toInt - 2 * 2 ^ w := by
        rw [← Int.sub_bmod_right, hcast]
        refine Int.bmod_eq_of_le_mul_two ?_ ?_ <;> rw [hcast] <;> omega
      omega

/-- Adding one unless the error is negative. -/
theorem add_correction (hw : 0 < w) (q : ℤ) {e : ℤ} (hlo : -2 ^ (w - 1) ≤ e)
    (hhi : e < 2 ^ (w - 1)) :
    BitVec.ofInt w q + (if (BitVec.ofInt w e).slt 0#w then 0#w else 1#w)
      = BitVec.ofInt w (q + if e < 0 then 0 else 1) := by
  have hiff : (BitVec.ofInt w e).slt 0#w = true ↔ e < 0 := by
    rw [BitVec.slt_iff_toInt_lt, BitVec.toInt_zero, BitVec.toInt_ofInt_eq_self hw hlo hhi]
  rw [BitVec.ofInt_add]
  by_cases h : e < 0
  · rw [if_pos (hiff.mpr h), if_pos h]
    rfl
  · rw [if_neg (mt hiff.mp h), if_neg h]
    rfl

/-- **The words of a split division**: the sum of the quotients, corrected by the sign of the error,
is the quotient of the sum. -/
theorem split_sdiv (hw : 0 < w) (hc : 0 < c.toInt) (hxy : 0 ≤ (x + y).toInt)
    (h : 0 ≤ x.toInt ∨ 0 ≤ y.toInt) {q e : BitVec w}
    (hq : q = BitVec.ofInt w (roundedQuotient x.toInt c.toInt + roundedQuotient y.toInt c.toInt))
    (he : e = BitVec.ofInt w
      (roundedRemainder x.toInt c.toInt + roundedRemainder y.toInt c.toInt - c.toInt)) :
    q + (if e.slt 0#w then 0#w else 1#w) = BitVec.ofInt w ((x + y).toInt / c.toInt) := by
  obtain ⟨hlo, hhi⟩ := rounded_error_range hc h
  have hmax := c.toInt_lt
  rw [hq, he, add_correction hw _ (by linarith) (by linarith), toInt_add_of_nonneg hxy h,
    ediv_add hc h]

/-- Moving a negative word by the divisor first, where that does not wrap. -/
theorem moved_word (hw : 0 < w) (hc : 0 < c.toInt)
    (h : 0 ≤ x.toInt ∨ -2 ^ (w - 1) ≤ x.toInt - c.toInt) :
    (x - negWord x * c).sdiv c = BitVec.ofInt w (roundedQuotient x.toInt c.toInt) ∧
      (x - negWord x * c).srem c + negWord x * c
        = BitVec.ofInt w (roundedRemainder x.toInt c.toInt) := by
  by_cases hneg : x.toInt < 0
  · have hsign : negWord x * c = c := by
      rw [negWord_eq_ofInt, if_pos hneg]
      exact BitVec.one_mul c
    have hmoved : (x - c).toInt = x.toInt - c.toInt := by
      rw [← BitVec.toInt_ofInt_eq_self hw (h.resolve_left (not_le.mpr hneg))
        (by linarith [x.toInt_lt]), ofInt_sub, BitVec.ofInt_toInt, BitVec.ofInt_toInt]
    obtain ⟨hdiv, hmod⟩ := rounded_sub hneg hc
    rw [hsign, sdiv_eq_ofInt, srem_eq_ofInt, hmoved, hdiv, ← hmod, BitVec.ofInt_add,
      BitVec.ofInt_toInt]
    exact ⟨rfl, rfl⟩
  · have hsign : negWord x = 0#w := by
      rw [negWord_eq_ofInt, if_neg hneg]
      rfl
    rw [← roundedQuotient_word, ← roundedRemainder_word, hsign, BitVec.zero_mul, BitVec.sub_zero,
      BitVec.sub_zero]
    exact ⟨rfl, rfl⟩

/-- A negative word that wraps when it is moved. -/
theorem toInt_moved_of_wraps (hw : 0 < w) (hc : 0 < c.toInt) (hx : x.toInt < 0)
    (hover : x.toInt - c.toInt < -2 ^ (w - 1)) :
    (x - negWord x * c).toInt = x.toInt - c.toInt + 2 * 2 ^ (w - 1) := by
  obtain ⟨w, rfl⟩ := Nat.exists_eq_succ_of_ne_zero hw.ne'
  have hcast : (((2 ^ (w + 1) : ℕ)) : ℤ) = 2 * 2 ^ w := by push_cast; ring
  have hsign : negWord x * c = c := by
    rw [negWord_eq_ofInt, if_pos hx]
    exact BitVec.one_mul c
  have hx' := x.le_toInt
  have hc' := c.toInt_lt
  simp only [Nat.succ_eq_add_one, Nat.add_one_sub_one] at hx' hc' hover ⊢
  rw [hsign, BitVec.toInt_sub, ← Int.add_bmod_right, hcast]
  refine Int.bmod_eq_of_le_mul_two ?_ ?_ <;> rw [hcast] <;> omega

/-- Words of integers in the range of the word. -/
theorem ofInt_inj_of_range {m n : ℤ} (hm : 0 ≤ m) (hm' : m < 2 ^ w) (hn : 0 ≤ n) (hn' : n < 2 ^ w) :
    BitVec.ofInt w m = BitVec.ofInt w n ↔ m = n := by
  refine ⟨fun h => ?_, fun h => h ▸ rfl⟩
  have hnat := congrArg BitVec.toNat h
  rw [BitVec.toNat_ofInt, BitVec.toNat_ofInt] at hnat
  push_cast at hnat
  rw [Int.emod_eq_of_lt hm hm', Int.emod_eq_of_lt hn hn'] at hnat
  omega

/-- The words that may be moved by the divisor `c` before they are divided: they do not wrap, or it
does no harm to the sum with `y`. -/
def MovesSafely (x y c : BitVec w) : Prop :=
  0 ≤ x.toInt ∨ -2 ^ (w - 1) ≤ x.toInt - c.toInt ∨
    x.toInt + 2 ^ w < 2 * c.toInt ∧ y.toInt < c.toInt

instance (x y c : BitVec w) : Decidable (MovesSafely x y c) :=
  inferInstanceAs (Decidable (_ ∨ _))

/-- The sign of a word that exceeds half of the range. -/
theorem slt_zero_ofInt (hw : 0 < w) {s : ℤ} (hs : 0 ≤ s) (hs' : s < 2 * 2 ^ (w - 1)) :
    (BitVec.ofInt w s).slt 0#w = true ↔ ¬ s < 2 ^ (w - 1) := by
  obtain ⟨w, rfl⟩ := Nat.exists_eq_succ_of_ne_zero hw.ne'
  have hcast : (((2 ^ (w + 1) : ℕ)) : ℤ) = 2 * 2 ^ w := by push_cast; ring
  simp only [Nat.succ_eq_add_one, Nat.add_one_sub_one] at hs' ⊢
  rw [BitVec.slt_iff_toInt_lt, BitVec.toInt_zero, BitVec.toInt_ofInt]
  by_cases h : s < 2 ^ w
  · rw [Int.bmod_eq_of_le_mul_two (by rw [hcast]; omega) (by rw [hcast]; omega)]
    omega
  · rw [← Int.sub_bmod_right, hcast,
      Int.bmod_eq_of_le_mul_two (by push_cast; omega) (by push_cast; omega)]
    omega

/-- What the wrapped parts come to, as words. -/
theorem wrapped_words (hw : 0 < w) (hc : 0 < c.toInt) (hx : x.toInt < 0) (hy : 0 ≤ y.toInt)
    (hover : x.toInt - c.toInt < -2 ^ (w - 1)) {a : ℤ}
    (ha : a = x.toInt - c.toInt + 2 * 2 ^ (w - 1)) :
    (x - negWord x * c).sdiv c + BitVec.ofInt w (roundedQuotient y.toInt c.toInt)
        = BitVec.ofInt w (a / c.toInt + y.toInt / c.toInt) ∧
      ((x - negWord x * c).srem c + negWord x * c)
          + (BitVec.ofInt w (roundedRemainder y.toInt c.toInt) - c)
        = BitVec.ofInt w (a % c.toInt + y.toInt % c.toInt) := by
  have hmoved := (toInt_moved_of_wraps hw hc hx hover).trans ha.symm
  have hpos : 0 ≤ a := by linarith [x.le_toInt, c.toInt_lt]
  have hsign : negWord x * c = c := by
    rw [negWord_eq_ofInt, if_pos hx]
    exact BitVec.one_mul c
  rw [sdiv_eq_ofInt, srem_eq_ofInt, hmoved, hsign, Int.tdiv_eq_ediv_of_nonneg hpos,
    Int.tmod_eq_emod_of_nonneg hpos, roundedQuotient_of_nonneg hy, roundedRemainder_of_nonneg hy,
    BitVec.ofInt_add, BitVec.ofInt_add]
  exact ⟨rfl, by ring⟩

/-- The correction of an error that may exceed half of the range. -/
theorem add_wrapped_correction (hw : 0 < w) (q : ℤ) {s : ℤ} (hs : 0 ≤ s)
    (hs' : s < 2 * 2 ^ (w - 1)) :
    BitVec.ofInt w q + (if (BitVec.ofInt w s).slt 0#w then 0#w else 1#w)
      = BitVec.ofInt w (q + if s < 2 ^ (w - 1) then 1 else 0) := by
  have hslt := slt_zero_ofInt hw hs hs'
  rw [BitVec.ofInt_add]
  by_cases h : s < 2 ^ (w - 1)
  · rw [if_neg (fun h' => hslt.mp h' h), if_pos h]
    rfl
  · rw [if_pos (hslt.mpr h), if_neg h]
    rfl

/-- **A split division that moves one summand first** is exact exactly if it moves safely. -/
theorem moved_sdiv_iff (hw : 0 < w) (hc : 0 < c.toInt) (hxy : 0 ≤ (x + y).toInt)
    (h : 0 ≤ x.toInt ∨ 0 ≤ y.toInt) {q e : BitVec w}
    (hq : q = (x - negWord x * c).sdiv c + (y.sdiv c - negWord y))
    (he : e = ((x - negWord x * c).srem c + negWord x * c) + (y.srem c + negWord y * c - c)) :
    q + (if e.slt 0#w then 0#w else 1#w) = BitVec.ofInt w ((x + y).toInt / c.toInt) ↔
      MovesSafely x y c := by
  rw [roundedQuotient_word y] at hq
  rw [roundedRemainder_word y] at he
  by_cases hfit : 0 ≤ x.toInt ∨ -2 ^ (w - 1) ≤ x.toInt - c.toInt
  · obtain ⟨hdiv, hrem⟩ := moved_word hw hc hfit
    refine iff_of_true (split_sdiv hw hc hxy h ?_ ?_) (or_assoc.mp (.inl hfit))
    · rw [hq, hdiv, BitVec.ofInt_add]
    · rw [he, hrem, ofInt_sub, BitVec.ofInt_add, BitVec.ofInt_toInt, add_sub_assoc]
  · rw [not_or, not_le, not_le] at hfit
    obtain ⟨hx, hover⟩ := hfit
    have hy : 0 ≤ y.toInt := h.resolve_left (not_le.mpr hx)
    have hsum := toInt_add_of_nonneg hxy h
    have hx' := x.le_toInt
    have hy' := y.toInt_lt
    have hc' := c.toInt_lt
    obtain ⟨a, ha⟩ : ∃ a, a = x.toInt - c.toInt + 2 * 2 ^ (w - 1) := ⟨_, rfl⟩
    have hpos : 0 ≤ a := by linarith
    obtain ⟨hquotient, herror⟩ := wrapped_words hw hc hx hy hover ha
    have hmod := add_nonneg (Int.emod_nonneg a hc.ne') (Int.emod_nonneg y.toInt hc.ne')
    have hmod' : a % c.toInt + y.toInt % c.toInt < 2 * 2 ^ (w - 1) := by
      linarith [Int.emod_lt_of_pos a hc, Int.emod_lt_of_pos y.toInt hc]
    -- neither the result nor the quotient leaves the range
    have hpow : (2 : ℤ) ^ w = 2 * 2 ^ (w - 1) := by
      rw [← pow_succ', Nat.sub_add_cancel hw]
    have hbit : (0 : ℤ) ≤ (if a % c.toInt + y.toInt % c.toInt < 2 ^ (w - 1) then 1 else 0) ∧
        (if a % c.toInt + y.toInt % c.toInt < 2 ^ (w - 1) then 1 else 0) ≤ (1 : ℤ) := by
      split <;> decide
    have hdiv := add_nonneg (Int.ediv_nonneg hpos hc.le) (Int.ediv_nonneg hy hc.le)
    have hdiv' := add_le_add (Int.ediv_le_self c.toInt hpos) (Int.ediv_le_self c.toInt hy)
    have hquot' := Int.ediv_le_self c.toInt hxy
    have hxy' := (x + y).toInt_lt
    rw [hq, he, hquotient, herror, add_wrapped_correction hw _ hmod hmod',
      ofInt_inj_of_range (by linarith [hbit.1]) (by linarith [hbit.2]) (Int.ediv_nonneg hxy hc.le)
        (by linarith),
      hsum, ha, wrapped_ediv_add_iff hc hc' hx hy' hover (hsum ▸ hxy), MovesSafely, hpow]
    constructor
    · rintro ⟨hsmall, hsmall'⟩
      exact .inr (.inr ⟨by linarith, hsmall'⟩)
    · rintro (hfit | hfit | ⟨hsmall, hsmall'⟩)
      · exact absurd hx (not_lt.mpr hfit)
      · exact absurd hover (not_lt.mpr hfit)
      · exact ⟨by linarith, hsmall'⟩

/-! ### The quotient of two words -/

/-- The quotient of the first word, which may be moved by the divisor before if it is negative. -/
def leftQuotient (moved : Bool) (x c : BitVec w) : BitVec w :=
  bif moved then (x - negWord x * c).sdiv c else x.sdiv c - negWord x

/-- The remainder that goes with it. -/
def leftRemainder (moved : Bool) (x c : BitVec w) : BitVec w :=
  (bif moved then (x - negWord x * c).srem c else x.srem c) + negWord x * c

/-- **The quotient of two words**, each of which is divided on its own, with the correction by their
error. -/
def splitQuotient (moved : Bool) (x y c : BitVec w) : BitVec w :=
  let q := leftQuotient moved x c + (y.sdiv c - negWord y)
  let e := leftRemainder moved x c + (y.srem c + negWord y * c - c)
  q + if e.slt 0#w then 0#w else 1#w

/-- **It is the quotient of the sum**, if not both words are negative and the first one moves
safely. -/
theorem splitQuotient_eq (hw : 0 < w) (hc : 0 < c.toInt) (hxy : 0 ≤ (x + y).toInt)
    (h : 0 ≤ x.toInt ∨ 0 ≤ y.toInt) {moved : Bool} (hmoved : moved = true → MovesSafely x y c) :
    splitQuotient moved x y c = BitVec.ofInt w ((x + y).toInt / c.toInt) := by
  cases moved with
  | true => exact (moved_sdiv_iff hw hc hxy h rfl rfl).mpr (hmoved rfl)
  | false =>
    refine split_sdiv hw hc hxy h ?_ ?_
    · rw [BitVec.ofInt_add, ← roundedQuotient_word, ← roundedQuotient_word]
      rfl
    · rw [ofInt_sub, BitVec.ofInt_add, ← roundedRemainder_word, ← roundedRemainder_word,
        BitVec.ofInt_toInt]
      exact (add_sub_assoc _ _ _).symm

end Words

end Machinery
