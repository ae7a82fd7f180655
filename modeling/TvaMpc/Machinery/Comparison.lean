import Mathlib.Data.BitVec
import Mathlib.Data.Nat.Bitwise

/-!
# Machinery/Comparison — comparing words by the highest bit in which they differ

`Top x y t`: the words differ at `t`, and agree above.  There is one such place unless the words are
equal, and the bits there decide the comparison (`Top.ult`, `Top.slt`).

`Prefix z s len`: a bit of `s` says whether `z` is set from there to the end of the block of `len`
bits.  Joining blocks in pairs (`Prefix.double`) leads to the whole word.
-/

namespace Machinery

variable {w : ℕ}

/-! ## The highest difference -/

/-- **The highest place where `x` and `y` differ.** -/
structure Top (x y : BitVec w) (t : ℕ) : Prop where
  lt : t < w
  differ : x.getLsbD t ≠ y.getLsbD t
  above : ∀ c, t < c → x.getLsbD c = y.getLsbD c

theorem exists_top {x y : BitVec w} (h : x ≠ y) : ∃ t, Top x y t := by
  have hne : (x ^^^ y).toNat ≠ 0 := by
    intro h0
    exact h (BitVec.xor_eq_zero_iff.mp (BitVec.eq_of_toNat_eq h0))
  obtain ⟨t, ht, habove⟩ := Nat.exists_most_significant_bit hne
  have hbit : ∀ c, (x ^^^ y).toNat.testBit c = (x.getLsbD c ^^ y.getLsbD c) := by
    intro c
    rw [BitVec.testBit_toNat, BitVec.getLsbD_xor]
  rw [hbit] at ht
  refine ⟨t, ?_, ?_, fun c hc => ?_⟩
  · by_contra hlt
    rw [BitVec.getLsbD_of_ge _ _ (not_lt.mp hlt), BitVec.getLsbD_of_ge _ _ (not_lt.mp hlt)] at ht
    cases ht
  · exact bne_iff_ne.mp ht
  · have hc' := habove c hc
    rw [hbit] at hc'
    simpa using hc'

namespace Top

variable {x y : BitVec w} {t t' : ℕ}

theorem symm (h : Top x y t) : Top y x t := ⟨h.lt, h.differ.symm, fun c hc => (h.above c hc).symm⟩

/-- The words agree from a place on exactly if the place is above the difference. -/
theorem same_iff (h : Top x y t) (b : ℕ) :
    (∀ c, b ≤ c → c < w → x.getLsbD c = y.getLsbD c) ↔ t < b := by
  constructor
  · intro hsame
    by_contra hle
    exact h.differ (hsame t (not_lt.mp hle) h.lt)
  · exact fun hlt c hc _ => h.above c (hlt.trans_le hc)

/-- What is left of the words after a shift is the same if it does not reach the difference. -/
theorem ushiftRight_iff (h : Top x y t) (k : ℕ) : x >>> k = y >>> k ↔ t < k := by
  constructor
  · intro heq
    by_contra hle
    have hbit := congrArg (fun z : BitVec w => z.getLsbD (t - k)) heq
    simp only [BitVec.getLsbD_ushiftRight, Nat.add_sub_cancel' (not_lt.mp hle)] at hbit
    exact h.differ hbit
  · refine fun hlt => BitVec.eq_of_getLsbD_eq fun b _ => ?_
    rw [BitVec.getLsbD_ushiftRight, BitVec.getLsbD_ushiftRight]
    exact h.above _ (Nat.lt_add_right b hlt)

/-- **The bit at the highest difference decides the unsigned comparison.** -/
theorem ult (h : Top x y t) : y.ult x = x.getLsbD t := by
  have hlt : ∀ {x y : BitVec w}, Top x y t → x.getLsbD t = true → y.toNat < x.toNat := by
    intro x y h hx
    have hy : y.getLsbD t = false := by
      have hne := h.differ
      rw [hx] at hne
      exact Bool.eq_false_iff.mpr hne.symm
    exact Nat.lt_of_testBit t hy hx fun c hc => (h.above c hc).symm
  rw [BitVec.ult]
  cases hx : x.getLsbD t with
  | true => exact decide_eq_true (hlt h hx)
  | false =>
    have hy : y.getLsbD t = true := by
      have hne := h.differ
      rw [hx] at hne
      exact Bool.eq_true_of_not_eq_false hne.symm
    exact decide_eq_false (hlt h.symm hy).not_gt

/-- **The signed comparison**: below the sign the bit decides as well, at the sign the other way. -/
theorem slt (h : Top x y t) : y.slt x = if t = w - 1 then y.getLsbD t else x.getLsbD t := by
  rw [BitVec.slt_eq_ult, h.ult, BitVec.msb_eq_getLsbD_last, BitVec.msb_eq_getLsbD_last]
  split
  · rename_i ht
    rw [← ht]
    have hne := h.differ
    cases hx : x.getLsbD t <;> cases hy : y.getLsbD t <;> simp_all
  · rename_i ht
    have hlt := h.lt
    rw [h.above (w - 1) (by omega)]
    simp

end Top

/-! ## Prefixes of blocks -/

/-- **Bit `b` of `s` says whether `z` is set from `b` on, in the block of `len` bits.** -/
def Prefix (z s : BitVec w) (len : ℕ) : Prop :=
  ∀ b < w, s.getLsbD b = true ↔ ∀ c, b ≤ c → c < w → c / len = b / len → z.getLsbD c = true

namespace Prefix

variable {z s s' : BitVec w} {len : ℕ}

theorem one (z : BitVec w) : Prefix z z 1 := by
  intro b hb
  simp only [Nat.div_one]
  constructor
  · rintro hz c - - rfl
    exact hz
  · exact fun h => h b le_rfl hb rfl

/-- **Joining blocks in pairs**: the lower ones ask the block above as well. -/
theorem double (h : Prefix z s len) (hlen : 0 < len) (hw : 2 * len ∣ w)
    (hs' : ∀ b < w, s'.getLsbD b
      = ((if b / len % 2 = 0 then s.getLsbD ((b / len + 1) * len) else s.getLsbD b)
        && s.getLsbD b)) : Prefix z s' (2 * len) := by
  intro b hb
  have hhalf : ∀ c, c / (2 * len) = c / len / 2 := fun c => by
    rw [Nat.mul_comm, Nat.div_div_eq_div_mul]
  have hdm : ∀ c, c / len * len ≤ c ∧ c < (c / len + 1) * len := fun c =>
    ⟨Nat.div_mul_le_self c len, by rw [Nat.add_one_mul]; exact Nat.lt_div_mul_add hlen⟩
  rw [hs' b hb, Bool.and_eq_true, h b hb]
  split
  · -- a lower block: the block above starts within the word
    rename_i hpar
    have hnext : (b / len + 1) * len < w := by
      obtain ⟨m, rfl⟩ := hw
      have hq : b / len < 2 * m := by
        rw [Nat.div_lt_iff_lt_mul hlen]
        exact hb.trans_eq (by rw [Nat.mul_comm 2 len, Nat.mul_assoc, Nat.mul_comm])
      calc (b / len + 1) * len < 2 * m * len :=
            Nat.mul_lt_mul_of_pos_right (by omega) hlen
        _ = 2 * len * m := by rw [Nat.mul_assoc, Nat.mul_comm m, Nat.mul_assoc]
    have hdiv : (b / len + 1) * len / len = b / len + 1 := Nat.mul_div_cancel _ hlen
    rw [h _ hnext, hdiv]
    constructor
    · rintro ⟨hupper, hlower⟩ c hc hcw hblock
      rw [hhalf, hhalf] at hblock
      rcases (by omega : c / len = b / len ∨ c / len = b / len + 1 ∨ c / len + 1 = b / len) with
        hq | hq | hq
      · exact hlower c hc hcw hq
      · exact hupper c (hq ▸ (hdm c).1) hcw hq
      · have hmono := Nat.div_le_div_right (c := len) hc
        omega
    · intro hz
      refine ⟨fun c hc hcw hq => hz c ?_ hcw ?_, fun c hc hcw hq => hz c hc hcw ?_⟩
      · exact ((hdm b).2.trans_le hc).le
      · rw [hhalf, hhalf, hq]
        omega
      · rw [hhalf, hhalf, hq]
  · rename_i hpar
    rw [h b hb, and_self]
    constructor
    · intro hz c hc hcw hblock
      refine hz c hc hcw ?_
      have hmono := Nat.div_le_div_right (c := len) hc
      rw [hhalf, hhalf] at hblock
      omega
    · intro hz c hc hcw hq
      exact hz c hc hcw (by rw [hhalf, hhalf, hq])

/-- In the end the block is the word. -/
theorem all (h : Prefix z s w) {b : ℕ} (hb : b < w) :
    s.getLsbD b = true ↔ ∀ c, b ≤ c → c < w → z.getLsbD c = true := by
  rw [h b hb]
  refine forall_congr' fun c => forall_congr' fun _ => forall_congr' fun hc => ?_
  rw [Nat.div_eq_of_lt hb, Nat.div_eq_of_lt hc]
  exact ⟨fun h => h rfl, fun h _ => h⟩

end Prefix

/-! ## Parity -/

/-- Whether an odd number of the first `k` places has `f`. -/
def parity (k : ℕ) (f : ℕ → Bool) : Bool := (List.range k).foldl (fun r j => r ^^ f j) false

variable {k : ℕ} {f f' : ℕ → Bool}

theorem parity_succ (k : ℕ) (f : ℕ → Bool) : parity (k + 1) f = (parity k f ^^ f k) := by
  rw [parity, List.range_succ, List.foldl_append]
  rfl

theorem parity_xor (k : ℕ) (f f' : ℕ → Bool) :
    parity k (fun j => f j ^^ f' j) = (parity k f ^^ parity k f') := by
  induction k with
  | zero => rfl
  | succ k ih =>
    rw [parity_succ, parity_succ, parity_succ, ih]
    simp only [Bool.xor_assoc, Bool.xor_left_comm (f k)]

theorem parity_of_forall_false (h : ∀ j < k, f j = false) : parity k f = false := by
  induction k with
  | zero => rfl
  | succ k ih =>
    rw [parity_succ, ih fun j hj => h j (Nat.lt_succ_of_lt hj), h k k.lt_succ_self]
    rfl

/-- **If there is one place at most**, the parity says what is there. -/
theorem parity_of_unique {t : ℕ} (ht : t < k) (h : ∀ j < k, j ≠ t → f j = false) :
    parity k f = f t := by
  induction k with
  | zero => exact absurd ht (by simp)
  | succ k ih =>
    rw [parity_succ]
    rcases Nat.lt_succ_iff_lt_or_eq.mp ht with hlt | rfl
    · rw [ih hlt fun j hj => h j (Nat.lt_succ_of_lt hj), h k k.lt_succ_self hlt.ne']
      exact Bool.xor_false _
    · rw [parity_of_forall_false fun j hj => h j (Nat.lt_succ_of_lt hj) hj.ne]
      exact Bool.false_xor _

end Machinery
