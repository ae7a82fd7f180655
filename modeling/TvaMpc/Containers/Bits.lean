import TvaMpc.Containers.Vector
import TvaMpc.Machinery.Comparison

/-!
# Containers/Bits — the bit functions of the comparisons

The functions of `Vector` that the comparisons and the multiplexers apply to every component:
`bit_level_shift`, `bit_right_shift`, `bit_xor`, `mask`, `set_bits`, `extend_lsb` and `operator!`.
`sameBits_double`, `xorBits_gt` and their neighbours say what they compute on plaintexts; all but
the last two are linear under `^`.
-/

namespace Tva

open Machinery

variable {n : ℕ} {d : DataType}

/-! ## The functions -/

/-- The values of `for (j = start; j > 0; j -= step)`, of which there are no more than `fuel`. -/
def forDown (step : ℕ) : (fuel j : ℕ) → List ℕ
  | 0, _ => []
  | fuel + 1, j => if 0 < j then j :: forDown step fuel (j - step) else []

/-- One element of `Vector::bit_level_shift`: every lower half of a part of `level_size` bits is
filled with the bottom bit of the upper half. -/
def bitLevelShiftWord (levelSize : ℕ) (x : Word d) : Word d :=
  let halfLevel := levelSize / 2
  (forDown levelSize d.maxBitsNumber (d.maxBitsNumber - halfLevel)).foldl (fun res j =>
    (forRange 1 (halfLevel + 1) 1).foldl (fun res k => setBit res (getBit x j) (j - k)) res) x

/-- `Vector::bit_level_shift`. -/
def bitLevelShift (levelSize : ℕ) (x : Vec n d) : Vec n d :=
  fun j => bitLevelShiftWord levelSize (x j)

/-- `Vector::bit_right_shift`, of the unsigned representation. -/
def bitRightShift (shiftSize : ℕ) (x : Vec n d) : Vec n d := fun j => x j >>> shiftSize

/-- One element of `Vector::bit_xor`. -/
def bitXorWord (x : Word d) : Word d :=
  (List.range d.digits).foldl (fun res j => res ^^^ getBit x j) 0

/-- `Vector::bit_xor`: the bits below the sign. -/
def bitXor (x : Vec n d) : Vec n d := fun j => bitXorWord (x j)

/-- `Vector::mask`. -/
def mask (m : Word d) (x : Vec n d) : Vec n d := fun j => x j &&& m

/-- `Vector::set_bits`. -/
def setBits (m : Word d) (x : Vec n d) : Vec n d := fun j => x j ||| m

/-- `Vector::extend_lsb`: it relies on two's complement. -/
def extendLsb (x : Vec n d) : Vec n d := fun j => -x j

/-- `operator!`, elementwise. -/
def logicalNot (x : Vec n d) : Vec n d := fun j => if x j = 0 then 1 else 0

/-! ## Bits as words -/

/-- A bit as an element. -/
def bit (d : DataType) (b : Bool) : Word d := if b then 1 else 0

/-- Bits as a vector. -/
def bits (d : DataType) (b : Fin n → Bool) : Vec n d := fun j => bit d (b j)

theorem getLsbD_bit (b : Bool) (i : ℕ) : (bit d b).getLsbD i = (decide (i = 0) && b) := by
  have h1 : (1 : Word d) = 1#d.bits := rfl
  have h0 : (0 : Word d) = 0#d.bits := rfl
  rw [bit]
  cases b with
  | true => rw [if_pos rfl, h1, BitVec.getLsbD_one, Bool.and_true]; simp [d.bits_pos]
  | false => rw [if_neg Bool.false_ne_true, h0, BitVec.getLsbD_zero, Bool.and_false]

theorem bit_xor (a b : Bool) : bit d (a ^^ b) = bit d a ^^^ bit d b :=
  BitVec.eq_of_getLsbD_eq fun i _ => by
    simp only [BitVec.getLsbD_xor, getLsbD_bit, Bool.and_xor_distrib_left]

theorem bit_and (a b : Bool) : bit d (a && b) = bit d a &&& bit d b :=
  BitVec.eq_of_getLsbD_eq fun i _ => by
    simp only [BitVec.getLsbD_and, getLsbD_bit]
    cases decide (i = 0) <;> rfl

theorem bit_inj {a b : Bool} (h : bit d a = bit d b) : a = b := by
  have h0 := congrArg (fun x : Word d => x.getLsbD 0) h
  simpa only [getLsbD_bit, decide_true, Bool.true_and] using h0

theorem getBit_eq (x : Word d) (i : ℕ) : getBit x i = bit d (x.getLsbD i) :=
  BitVec.eq_of_getLsbD_eq fun j _ => by rw [getLsbD_getBit, getLsbD_bit]

theorem bitXorWord_eq (x : Word d) : bitXorWord x = bit d (parity d.digits x.getLsbD) := by
  rw [bitXorWord]
  generalize d.digits = k
  induction k with
  | zero => rfl
  | succ k ih =>
    rw [List.range_succ, List.foldl_append, ih, List.foldl_cons, List.foldl_nil, parity_succ,
      bit_xor, getBit_eq]

theorem mask_one (x : Vec n d) : mask 1 x = bits d fun j => (x j).getLsbD 0 := by
  have h1 : (1 : Word d) = bit d true := rfl
  funext j
  refine BitVec.eq_of_getLsbD_eq fun b _ => ?_
  rw [mask, BitVec.getLsbD_and, h1, getLsbD_bit, bits, getLsbD_bit, Bool.and_true]
  rcases eq_or_ne b 0 with rfl | hb
  · exact Bool.and_comm _ _
  · simp [hb]

theorem logicalNot_bits (b : Fin n → Bool) : logicalNot (bits d b) = bits d fun j => !b j := by
  have h1 : (1 : Word d) ≠ 0 := by cases d <;> decide
  funext j
  rw [logicalNot, bits, bits, bit, bit]
  cases b j with
  | true => exact if_neg h1
  | false => rfl

/-- **On bits, the negation is the extension.** -/
theorem extendLsb_bits (b : Fin n → Bool) : extendLsb (bits d b)
    = fun j => if b j then BitVec.allOnes _ else 0 := by
  funext j
  rw [extendLsb, bits, bit]
  cases b j with
  | true => exact BitVec.neg_one_eq_allOnes
  | false => exact neg_zero

/-! ## The level shift -/

theorem mem_forDown {step fuel start j : ℕ} (hstep : 0 < step) (hfuel : start ≤ fuel) :
    j ∈ forDown step fuel start ↔ 0 < j ∧ ∃ t, j + step * t = start := by
  induction fuel generalizing start with
  | zero =>
    obtain rfl := Nat.le_zero.mp hfuel
    simp only [forDown, List.not_mem_nil, false_iff]
    rintro ⟨hj, t, ht⟩
    omega
  | succ fuel ih =>
    rw [forDown]
    split
    · rename_i hpos
      rw [List.mem_cons, ih (by omega)]
      constructor
      · rintro (rfl | ⟨hj, t, ht⟩)
        · exact ⟨hpos, 0, rfl⟩
        · exact ⟨hj, t + 1, by rw [Nat.mul_succ]; omega⟩
      · rintro ⟨hj, t, ht⟩
        cases t with
        | zero => exact .inl ht
        | succ t =>
          rw [Nat.mul_succ] at ht
          exact .inr ⟨hj, t, by omega⟩
    · rename_i hpos
      simp only [List.not_mem_nil, false_iff]
      rintro ⟨hj, t, ht⟩
      omega

/-- **What the shift at level `2 s` leaves in bit `b`**: the first bit of the block of `s` above in
the lower halves, the bit itself in the upper ones. -/
theorem getLsbD_bitLevelShiftWord {s : ℕ} (hs : 0 < s) (hd : 2 * s ∣ d.bits) (x : Word d) {b : ℕ}
    (hb : b < d.bits) : (bitLevelShiftWord (2 * s) x).getLsbD b
      = if b / s % 2 = 0 then x.getLsbD ((b / s + 1) * s) else x.getLsbD b := by
  have hhalf : 2 * s / 2 = s := by omega
  obtain ⟨m, hm⟩ := hd
  have hmpos : 0 < m := Nat.pos_of_ne_zero fun h0 => by
    rw [h0, Nat.mul_zero] at hm
    exact absurd hm d.bits_pos.ne'
  have hsm : 2 * s ≤ d.bits := hm ▸ Nat.le_mul_of_pos_right _ hmpos
  have hdm : s * (b / s) + b % s = b := Nat.div_add_mod b s
  have hlt : b % s < s := Nat.mod_lt b hs
  have hj : ∀ j, j ∈ forDown (2 * s) d.bits (d.bits - s) ↔ ∃ t < m, j = s * (2 * t + 1) := by
    intro j
    rw [mem_forDown (by omega) (Nat.sub_le _ _)]
    constructor
    · rintro ⟨hpos, t, ht⟩
      have htm : t < m := by
        by_contra hge
        have hmul := Nat.mul_le_mul_left (2 * s) (not_lt.mp hge)
        omega
      refine ⟨m - 1 - t, by omega, ?_⟩
      have hsum : 2 * s * (m - 1 - t) + 2 * s * t + 2 * s = d.bits := by
        rw [hm, ← Nat.mul_add, ← Nat.mul_succ]
        congr 1
        omega
      rw [Nat.mul_succ, ← Nat.mul_assoc, Nat.mul_comm s 2]
      omega
    · rintro ⟨t, ht, rfl⟩
      refine ⟨Nat.mul_pos hs (Nat.succ_pos _), m - 1 - t, ?_⟩
      have hsum : 2 * s * t + 2 * s * (m - 1 - t) + 2 * s = d.bits := by
        rw [hm, ← Nat.mul_add, ← Nat.mul_succ]
        congr 1
        omega
      rw [Nat.mul_succ, ← Nat.mul_assoc, Nat.mul_comm s 2]
      omega
  -- the only round `(j, k)` that writes bit `b` reads the start of the block above
  have hround : ∀ j k, j ∈ forDown (2 * s) d.bits (d.bits - s) → k ∈ forRange 1 (s + 1) 1 →
      b = j - k → b / s % 2 = 0 ∧ j = (b / s + 1) * s := by
    intro j k hj' hk hbjk
    obtain ⟨t, -, rfl⟩ := (hj j).mp hj'
    obtain ⟨u, rfl, hu⟩ := (mem_forRange one_pos).mp hk
    have hb' : b = s * (2 * t) + (s - 1 - u) := by
      rw [hbjk, Nat.mul_succ]; omega
    have hq : b / s = 2 * t := by
      rw [hb', Nat.mul_add_div hs, Nat.div_eq_of_lt (by omega), Nat.add_zero]
    rw [hq]
    exact ⟨by omega, Nat.mul_comm _ _⟩
  have hinner : ∀ res j, j ∈ forDown (2 * s) d.bits (d.bits - s) →
      ((∃ k ∈ forRange 1 (s + 1) 1, b = j - k) → ((forRange 1 (s + 1) 1).foldl
        (fun res k => setBit res (getBit x j) (j - k)) res).getLsbD b = x.getLsbD j) ∧
      ((∀ k ∈ forRange 1 (s + 1) 1, ¬ b = j - k) → ((forRange 1 (s + 1) 1).foldl
        (fun res k => setBit res (getBit x j) (j - k)) res).getLsbD b = res.getLsbD b) := by
    intro res j _
    refine foldl_write _ (fun res : Word d => res.getLsbD b) (fun k => b = j - k) _ _ _
      (fun res k _ hk => ?_) (fun res k _ hk => ?_)
    · rw [getLsbD_setBit_getBit _ _ _ _ hb, if_pos hk]
    · rw [getLsbD_setBit_getBit _ _ _ _ hb, if_neg hk]
  have houter := foldl_write _ (fun res : Word d => res.getLsbD b)
    (fun j => ∃ k ∈ forRange 1 (s + 1) 1, b = j - k) (x.getLsbD ((b / s + 1) * s))
    (forDown (2 * s) d.bits (d.bits - s)) x
    (fun res j hj hk => by
      obtain ⟨k, hk, hbjk⟩ := hk
      rw [(hinner res j hj).1 ⟨k, hk, hbjk⟩, (hround j k hj hk hbjk).2])
    (fun res j hj hk => (hinner res j hj).2 fun k hk' e => hk ⟨k, hk', e⟩)
  rw [bitLevelShiftWord, d.maxBitsNumber_eq]
  simp only [hhalf]
  split
  · -- the block above starts at `j`, and `b` is within reach
    rename_i hpar
    have hq : b / s < 2 * m := by
      rw [Nat.div_lt_iff_lt_mul hs]
      exact hb.trans_eq (by rw [hm, Nat.mul_assoc, Nat.mul_assoc, Nat.mul_comm s])
    have heq : (b / s + 1) * s = s * (2 * (b / s / 2) + 1) := by
      rw [Nat.mul_comm]
      congr 1
      omega
    have hval : (b / s + 1) * s = s * (b / s) + s := by rw [Nat.mul_comm, Nat.mul_succ]
    exact houter.1 ⟨(b / s + 1) * s, (hj _).mpr ⟨b / s / 2, by omega, heq⟩, s - b % s,
      (mem_forRange one_pos).mpr ⟨s - 1 - b % s, by omega, by omega⟩, by omega⟩
  · rename_i hpar
    exact houter.2 fun j hj ⟨k, hk, e⟩ => hpar (hround j k hj hk e).1

/-! ## Linearity -/

theorem bitLevelShift_xor {s : ℕ} (hs : 0 < s) (hd : 2 * s ∣ d.bits) (x y : Vec n d) :
    bitLevelShift (2 * s) (x ^^^ y) = bitLevelShift (2 * s) x ^^^ bitLevelShift (2 * s) y := by
  funext j
  refine BitVec.eq_of_getLsbD_eq fun b hb => ?_
  simp only [bitLevelShift, Vec.xor_apply, BitVec.getLsbD_xor, getLsbD_bitLevelShiftWord hs hd _ hb]
  split <;> rfl

theorem bitRightShift_xor (s : ℕ) (x y : Vec n d) :
    bitRightShift s (x ^^^ y) = bitRightShift s x ^^^ bitRightShift s y :=
  funext fun _ => BitVec.ushiftRight_xor_distrib _ _ _

theorem bitXor_xor (x y : Vec n d) : bitXor (x ^^^ y) = bitXor x ^^^ bitXor y := by
  funext j
  have hget : (x j ^^^ y j).getLsbD = fun b => (x j).getLsbD b ^^ (y j).getLsbD b :=
    funext fun b => BitVec.getLsbD_xor
  rw [Vec.xor_apply, bitXor, bitXor, bitXor, bitXorWord_eq, bitXorWord_eq, bitXorWord_eq,
    Vec.xor_apply, hget, parity_xor, bit_xor]

theorem mask_xor (m : Word d) (x y : Vec n d) : mask m (x ^^^ y) = mask m x ^^^ mask m y := by
  funext j
  change (x j ^^^ y j) &&& m = (x j &&& m) ^^^ (y j &&& m)
  rw [BitVec.and_comm, and_xor_distrib, BitVec.and_comm, BitVec.and_comm m]

/-! ## Comparing by the same-bits prefix -/

/-- **The same-bits prefix** of two words: bit `b` says whether they agree from `b` on. -/
def SameBits (x y s : Word d) : Prop := Prefix (~~~(x ^^^ y)) s d.bits

section SameBits

variable {x y s : Word d}

theorem SameBits.getLsbD (h : SameBits x y s) {b : ℕ} (hb : b < d.bits) :
    s.getLsbD b = true ↔ ∀ c, b ≤ c → c < d.bits → x.getLsbD c = y.getLsbD c := by
  rw [h.all hb]
  refine forall_congr' fun c => forall_congr' fun _ => forall_congr' fun hc => ?_
  simp only [BitVec.getLsbD_not, BitVec.getLsbD_xor, hc, decide_true, Bool.true_and]
  cases x.getLsbD c <;> cases y.getLsbD c <;> simp

/-- Between different words the prefix starts above the highest difference. -/
theorem SameBits.top {t : ℕ} (h : SameBits x y s) (ht : Top x y t) {b : ℕ} (hb : b < d.bits) :
    s.getLsbD b = decide (t < b) := by
  rw [Bool.eq_iff_iff, h.getLsbD hb, ht.same_iff, decide_eq_true_iff]

theorem SameBits.self (h : SameBits x x s) {b : ℕ} (hb : b < d.bits) : s.getLsbD b = true :=
  (h.getLsbD hb).mpr fun _ _ _ => rfl

/-- **Equality is the lowest bit.** -/
theorem SameBits.and_one (h : SameBits x y s) : s &&& 1 = bit d (decide (x = y)) := by
  have h1 : (1 : Word d) = bit d true := rfl
  refine BitVec.eq_of_getLsbD_eq fun b _ => ?_
  rw [BitVec.getLsbD_and, h1, getLsbD_bit, getLsbD_bit, Bool.and_true]
  rcases eq_or_ne b 0 with rfl | hb
  · rw [decide_eq_true rfl, Bool.and_true, Bool.true_and, Bool.eq_iff_iff, decide_eq_true_iff]
    rcases eq_or_ne x y with rfl | hne
    · exact iff_of_true (h.self d.bits_pos) rfl
    · obtain ⟨t, ht⟩ := exists_top hne
      rw [h.top ht d.bits_pos]
      simpa using hne
  · simp [hb]

theorem digits_eq (d : DataType) : d.digits = d.bits - 1 := rfl

theorem one_lt_bits (d : DataType) : 2 < d.bits := by cases d <;> decide

/-- **What is left after the signs**: the bit at the highest difference. -/
theorem SameBits.gt (h : SameBits x y s) (hsign : x.msb = y.msb) :
    bitXorWord ((s >>> 1) &&& ~~~s &&& x) = bit d (y.slt x) := by
  have hd := one_lt_bits d
  rw [bitXorWord_eq]
  congr 1
  have hget : ∀ b < d.digits, ((s >>> 1) &&& ~~~s &&& x).getLsbD b
      = (s.getLsbD (b + 1) && !s.getLsbD b && x.getLsbD b) := by
    intro b hb
    have hb' : b < d.bits := by rw [digits_eq] at hb; omega
    simp only [BitVec.getLsbD_and, BitVec.getLsbD_ushiftRight, BitVec.getLsbD_not, hb',
      decide_true, Bool.true_and, Nat.add_comm 1]
  rcases eq_or_ne x y with rfl | hne
  · have hirr : x.slt x = false := by rw [BitVec.slt]; simp
    rw [hirr]
    refine parity_of_forall_false fun b hb => ?_
    rw [hget b hb, h.self (b := b) (by rw [digits_eq] at hb; omega), Bool.not_true, Bool.and_false,
      Bool.false_and]
  · obtain ⟨t, ht⟩ := exists_top hne
    have htw : t ≠ d.bits - 1 := by
      rintro rfl
      rw [BitVec.msb_eq_getLsbD_last, BitVec.msb_eq_getLsbD_last] at hsign
      exact ht.differ hsign
    have htd : t < d.digits := by have := ht.lt; rw [digits_eq]; omega
    rw [parity_of_unique htd, hget t htd, ht.slt, if_neg htw]
    · have htb := ht.lt
      rw [digits_eq] at htd
      rw [h.top ht (by omega), h.top ht htb]
      simp
    · intro b hb hbt
      rw [hget b hb]
      rw [digits_eq] at hb
      rw [h.top ht (by omega), h.top ht (by omega)]
      rcases lt_or_gt_of_ne hbt with hlt | hlt
      · have hsucc : ¬ t < b + 1 := by omega
        simp [hsucc]
      · simp [hlt]

/-- The edge of the row comparison, where the highest digit counts as if the signs were the same. -/
def edge (s : Word d) : Word d := (s >>> 1 ||| (1 : Word d) <<< (d.digits - 1)) &&& ~~~s

theorem getLsbD_edge {b : ℕ} (hb : b < d.digits) : (edge s).getLsbD b
    = ((s.getLsbD (b + 1) || decide (b = d.digits - 1)) && !s.getLsbD b) := by
  have h1 : (1 : Word d) = bit d true := rfl
  have hb' : b < d.bits := by rw [digits_eq] at hb; omega
  have hiff : (decide (b < d.digits - 1) = false ∧ b - (d.digits - 1) = 0) ↔ b = d.digits - 1 := by
    rw [decide_eq_false_iff_not]; omega
  rw [edge, h1]
  simp only [BitVec.getLsbD_and, BitVec.getLsbD_or, BitVec.getLsbD_ushiftRight,
    BitVec.getLsbD_shiftLeft, BitVec.getLsbD_not, getLsbD_bit, hb', decide_true, Bool.true_and,
    Bool.and_true, Nat.add_comm 1]
  rcases eq_or_ne b (d.digits - 1) with rfl | hne
  · simp
  · have hlt : b < d.digits - 1 := by omega
    simp [hne, hlt]

/-- **Where the edge is**: at the highest difference, or at the highest digit if the signs
differ. -/
theorem SameBits.edge (h : SameBits x y s) {t : ℕ} (ht : Top x y t) {b : ℕ} (hb : b < d.digits) :
    (Tva.edge s).getLsbD b = decide (b = min t (d.digits - 1)) := by
  have hd := one_lt_bits d
  have htb := ht.lt
  rw [getLsbD_edge hb]
  rw [digits_eq] at hb ⊢
  rw [h.top ht (by omega), h.top ht (by omega), Bool.eq_iff_iff, Bool.and_eq_true, Bool.or_eq_true,
    Bool.not_eq_true', decide_eq_true_iff, decide_eq_true_iff, decide_eq_true_iff,
    decide_eq_false_iff_not]
  omega

/-- **The words are equal** if there is no edge. -/
theorem SameBits.eq (h : SameBits x y s) : bitXorWord (Tva.edge s) = bit d (!decide (x = y)) := by
  have hd := one_lt_bits d
  rw [bitXorWord_eq]
  congr 1
  rcases eq_or_ne x y with rfl | hne
  · rw [decide_eq_true rfl]
    refine parity_of_forall_false fun b hb => ?_
    rw [getLsbD_edge hb, h.self (b := b) (by rw [digits_eq] at hb; omega), Bool.not_true,
      Bool.and_false]
  · obtain ⟨t, ht⟩ := exists_top hne
    have htd : min t (d.digits - 1) < d.digits := by rw [digits_eq]; omega
    rw [parity_of_unique htd, h.edge ht htd, decide_eq_true rfl, decide_eq_false hne]
    · rfl
    · intro b hb hbt
      rw [h.edge ht hb, decide_eq_false hbt]

/-- With equal signs the edge finds the bit that decides. -/
theorem SameBits.edge_gt (h : SameBits x y s) (hsign : x.msb = y.msb) :
    bitXorWord (Tva.edge s &&& x) = bit d (y.slt x) := by
  have hd := one_lt_bits d
  rw [bitXorWord_eq]
  congr 1
  rcases eq_or_ne x y with rfl | hne
  · have hirr : x.slt x = false := by rw [BitVec.slt]; simp
    rw [hirr]
    refine parity_of_forall_false fun b hb => ?_
    rw [BitVec.getLsbD_and, getLsbD_edge hb, h.self (b := b) (by rw [digits_eq] at hb; omega),
      Bool.not_true, Bool.and_false, Bool.false_and]
  · obtain ⟨t, ht⟩ := exists_top hne
    have htw : t ≠ d.bits - 1 := by
      rintro rfl
      rw [BitVec.msb_eq_getLsbD_last, BitVec.msb_eq_getLsbD_last] at hsign
      exact ht.differ hsign
    have hmin : min t (d.digits - 1) = t := by have := ht.lt; rw [digits_eq]; omega
    have htd : t < d.digits := by have := ht.lt; rw [digits_eq]; omega
    rw [parity_of_unique htd, BitVec.getLsbD_and, h.edge ht htd, hmin, decide_eq_true rfl,
      Bool.true_and, ht.slt, if_neg htw]
    intro b hb hbt
    rw [BitVec.getLsbD_and, h.edge ht hb, hmin, decide_eq_false hbt, Bool.false_and]

/-- The edge where the highest digit of the shifted prefix is cleared and not set. -/
def clearedEdge (s : Word d) : Word d := (s >>> 1 &&& ~~~((1 : Word d) <<< (d.digits - 1))) &&& ~~~s

/-- It is at the highest difference, unless this is at the sign or the highest digit. -/
theorem SameBits.clearedEdge (h : SameBits x y s) {t : ℕ} (ht : Top x y t) {b : ℕ}
    (hb : b < d.digits) :
    (Tva.clearedEdge s).getLsbD b = decide (b = t ∧ t < d.digits - 1) := by
  have h1 : (1 : Word d) = bit d true := rfl
  have hdigits := digits_eq d
  have hb' : b < d.bits := by omega
  rw [Tva.clearedEdge, h1]
  simp only [BitVec.getLsbD_and, BitVec.getLsbD_ushiftRight, BitVec.getLsbD_shiftLeft,
    BitVec.getLsbD_not, getLsbD_bit, hb', decide_true, Bool.true_and, Bool.and_true, Nat.add_comm 1]
  rw [h.top ht hb', h.top ht (by omega), Bool.eq_iff_iff]
  simp only [Bool.and_eq_true, Bool.not_eq_true', Bool.and_eq_false_iff, Bool.not_eq_false',
    decide_eq_true_iff, decide_eq_false_iff_not]
  omega

theorem SameBits.clearedEdge_self (h : SameBits x x s) {b : ℕ} (hb : b < d.digits) :
    (Tva.clearedEdge s).getLsbD b = false := by
  have hb' : b < d.bits := by rw [digits_eq] at hb; omega
  rw [Tva.clearedEdge, BitVec.getLsbD_and, BitVec.getLsbD_not, h.self hb', decide_eq_true hb']
  exact Bool.and_false _

/-- **Then equality is right exactly if the words agree in their two highest bits.** -/
theorem SameBits.cleared_eq_iff (h : SameBits x y s) :
    bitXorWord (Tva.clearedEdge s) = bit d (!decide (x = y)) ↔
      x >>> (d.digits - 1) = y >>> (d.digits - 1) := by
  have hd := one_lt_bits d
  rw [bitXorWord_eq]
  rcases eq_or_ne x y with rfl | hne
  · refine iff_of_true (congrArg _ ?_) rfl
    rw [parity_of_forall_false fun b hb => h.clearedEdge_self hb, decide_eq_true rfl, Bool.not_true]
  · obtain ⟨t, ht⟩ := exists_top hne
    have hparity : parity d.digits (Tva.clearedEdge s).getLsbD = decide (t < d.digits - 1) := by
      by_cases htd : t < d.digits - 1
      · have htd' : t < d.digits := htd.trans_le (Nat.sub_le _ _)
        rw [parity_of_unique htd', h.clearedEdge ht htd']
        · exact decide_eq_decide.mpr (and_iff_right rfl)
        · intro b hb hbt
          rw [h.clearedEdge ht hb]
          exact decide_eq_false fun hand => hbt hand.1
      · rw [decide_eq_false htd]
        refine parity_of_forall_false fun b hb => ?_
        rw [h.clearedEdge ht hb]
        exact decide_eq_false fun hand => htd hand.2
    rw [hparity, ht.ushiftRight_iff, decide_eq_false hne, Bool.not_false]
    exact ⟨fun e => of_decide_eq_true (bit_inj e), fun hlt => congrArg _ (decide_eq_true hlt)⟩

/-- … and then so is the bit that decides. -/
theorem SameBits.cleared_gt (h : SameBits x y s)
    (htop : x >>> (d.digits - 1) = y >>> (d.digits - 1)) :
    bitXorWord (Tva.clearedEdge s &&& x) = bit d (y.slt x) := by
  have hd := one_lt_bits d
  rw [bitXorWord_eq]
  congr 1
  rcases eq_or_ne x y with rfl | hne
  · have hirr : x.slt x = false := by rw [BitVec.slt]; simp
    rw [hirr]
    refine parity_of_forall_false fun b hb => ?_
    rw [BitVec.getLsbD_and, h.clearedEdge_self hb, Bool.false_and]
  · obtain ⟨t, ht⟩ := exists_top hne
    have htd := (ht.ushiftRight_iff _).mp htop
    have htd' : t < d.digits := htd.trans_le (Nat.sub_le _ _)
    have htw : t ≠ d.bits - 1 := by rw [digits_eq] at htd'; omega
    rw [parity_of_unique htd', BitVec.getLsbD_and, h.clearedEdge ht htd', ht.slt, if_neg htw,
      decide_eq_true ⟨rfl, htd⟩, Bool.true_and]
    intro b hb hbt
    rw [BitVec.getLsbD_and, h.clearedEdge ht hb, decide_eq_false fun hand => hbt hand.1,
      Bool.false_and]

/-- The sign bit. -/
theorem ushiftRight_digits (x : Word d) : x >>> d.digits = bit d x.msb := by
  refine BitVec.eq_of_getLsbD_eq fun b hb => ?_
  rw [BitVec.getLsbD_ushiftRight, getLsbD_bit, BitVec.msb_eq_getLsbD_last, digits_eq]
  rcases eq_or_ne b 0 with rfl | hb0
  · rfl
  · have hge : d.bits ≤ d.bits - 1 + b := by omega
    rw [BitVec.getLsbD_of_ge _ _ hge, decide_eq_false hb0, Bool.false_and]

/-- **The signs go first**: different ones decide, and leave the rest out. -/
theorem slt_of_signs {r : Bool} (hr : x.msb = y.msb → r = y.slt x) :
    (((x.msb ^^ y.msb) && y.msb) ^^ (!(x.msb ^^ y.msb) && r)) = y.slt x := by
  rcases eq_or_ne x.msb y.msb with hsign | hsign
  · rw [hr hsign, hsign]
    simp
  · have hslt : y.slt x = y.msb := by
      obtain ⟨t, ht⟩ := exists_top (fun e => hsign (congrArg _ e) : x ≠ y)
      have htw : t = d.bits - 1 := by
        by_contra hne
        rw [BitVec.msb_eq_getLsbD_last, BitVec.msb_eq_getLsbD_last] at hsign
        exact hsign (ht.above _ (by have := ht.lt; omega))
      rw [ht.slt, if_pos htw, htw, BitVec.msb_eq_getLsbD_last]
    rw [hslt]
    cases hx : x.msb <;> cases hy : y.msb <;> simp_all

end SameBits

end Tva
