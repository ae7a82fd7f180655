import TvaMpc.Machinery.Carry
import Mathlib.Data.BitVec
import Mathlib.Data.Nat.Log
import Mathlib.Algebra.Ring.Pi
import Mathlib.Tactic.Linarith

/-!
# Containers/Vector — vectors of machine words, and the bit loops over them

The element types are the three that the communicator and the random generator are written for.  A
word is a `BitVec`, so the arithmetic wraps as two's complement does.  A `Vec` is the batch a call
works on; its size is part of its type, as every operator assumes equal sizes.

The bit loops (`reverse_bit_level_shift`, `simple_bit_compress`, `simple_bit_decompress`) are folds
over the loop's index range.  `foldl_write` says what such a loop leaves at one place.
-/

namespace Tva

-- What the literals of `Fin 1` to `Fin 4` need: these number the components and the parties.
scoped instance neZeroOne : NeZero 1 := ⟨one_ne_zero⟩

scoped instance neZeroTwo : NeZero 2 := ⟨two_ne_zero⟩

scoped instance neZeroThree : NeZero 3 := ⟨three_ne_zero⟩

scoped instance neZeroFour : NeZero 4 := ⟨four_ne_zero⟩

/-! ## Words -/

/-- The element types of the runtime. -/
inductive DataType where
  | int8_t
  | int32_t
  | int64_t
  deriving DecidableEq

namespace DataType

/-- `numeric_limits<Unsigned_type>::digits`. -/
def bits : DataType → ℕ
  | int8_t => 8
  | int32_t => 32
  | int64_t => 64

/-- `numeric_limits<DataType>::digits`: a signed type has one digit less. -/
def digits (d : DataType) : ℕ := d.bits - 1

/-- `MAX_BITS_NUMBER` of the shifts and adders: the digits rounded up to a power of two. -/
def maxBitsNumber (d : DataType) : ℕ := 2 ^ Nat.clog 2 d.digits

theorem maxBitsNumber_eq (d : DataType) : d.maxBitsNumber = d.bits := by
  cases d <;> rfl

theorem bits_pos (d : DataType) : 0 < d.bits := by cases d <;> decide

end DataType

/-- An element. -/
abbrev Word (d : DataType) := BitVec d.bits

/-- A batch of `n` elements. -/
abbrev Vec (n : ℕ) (d : DataType) := Fin n → Word d

/-- A party's view of `n` shared values: `ρ` columns of components. -/
abbrev EVector (ρ n : ℕ) (d : DataType) := Fin ρ → Vec n d

variable {d : DataType} {n m : ℕ}

/-- Elementwise bitwise operators (`define_binary_vector_op`). -/
instance : XorOp (Vec n d) := ⟨fun x y j => x j ^^^ y j⟩
instance : AndOp (Vec n d) := ⟨fun x y j => x j &&& y j⟩
instance : Complement (Vec n d) := ⟨fun x j => ~~~x j⟩

@[simp] theorem Vec.xor_apply (x y : Vec n d) (j : Fin n) : (x ^^^ y) j = x j ^^^ y j := rfl
@[simp] theorem Vec.and_apply (x y : Vec n d) (j : Fin n) : (x &&& y) j = x j &&& y j := rfl
@[simp] theorem Vec.not_apply (x : Vec n d) (j : Fin n) : (~~~x) j = ~~~x j := rfl

/-! ### Division operators -/

/-- `x < 0`, elementwise. -/
def isNeg (x : Vec n d) : Vec n d := fun j => if (x j).slt 0 then 1 else 0

/-- `x / c` and `x % c` have no value: the machine traps.  Elements of eight bits are promoted to
`int`, which has all their quotients. -/
def Traps (x c : Word d) : Prop := c = 0 ∨ (d ≠ .int8_t ∧ x = BitVec.intMin _ ∧ c = -1)

instance (x c : Word d) : Decidable (Traps x c) := inferInstanceAs (Decidable (_ ∨ _))

/-- No element of `x` traps. -/
abbrev Divisible (x : Vec n d) (c : Word d) : Prop := ∀ j, ¬Traps (x j) c

/-- **The divisors that never trap.** -/
def SafeDivisor (c : Word d) : Prop := c ≠ 0 ∧ (c = -1 → d = .int8_t)

instance (c : Word d) : Decidable (SafeDivisor c) := inferInstanceAs (Decidable (_ ∧ _))

theorem SafeDivisor.divisible {c : Word d} (hc : SafeDivisor c) (x : Vec n d) : Divisible x c := by
  rintro j (hzero | ⟨hd, -, hneg⟩)
  exacts [hc.1 hzero, hd (hc.2 hneg)]

theorem safeDivisor_of_pos {c : Word d} (hc : 0 < c.toInt) : SafeDivisor c := by
  refine ⟨fun h => ?_, fun h => ?_⟩
  · rw [h, show (0 : Word d).toInt = 0 from BitVec.toInt_zero] at hc
    exact absurd hc (by decide)
  · subst h
    cases d <;> exact absurd hc (by decide)

/-- The quotients, rounded towards zero. -/
def quotients (x : Vec n d) (c : Word d) : Vec n d := fun j => (x j).sdiv c

/-- The remainders, with the signs of the elements. -/
def remainders (x : Vec n d) (c : Word d) : Vec n d := fun j => (x j).srem c

/-- `x / c`, elementwise; `none` is a trap. -/
def divide (x : Vec n d) (c : Word d) : Option (Vec n d) :=
  if Divisible x c then some (quotients x c) else none

/-- `x % c`, elementwise. -/
def remainder (x : Vec n d) (c : Word d) : Option (Vec n d) :=
  if Divisible x c then some (remainders x c) else none

theorem divide_eq {x : Vec n d} {c : Word d} (h : Divisible x c) :
    divide x c = some (quotients x c) := if_pos h

theorem remainder_eq {x : Vec n d} {c : Word d} (h : Divisible x c) :
    remainder x c = some (remainders x c) := if_pos h

theorem divide_eq_none {x : Vec n d} {c : Word d} (h : ¬Divisible x c) : divide x c = none :=
  if_neg h

/-- `x * c`, elementwise. -/
def scale (x : Vec n d) (c : Word d) : Vec n d := fun j => x j * c

/-! ### The boolean ring -/

/-- Words as the elements of a boolean ring. -/
def BoolWord (d : DataType) := Word d

theorem and_xor_distrib {w : ℕ} (x y z : BitVec w) : x &&& (y ^^^ z) = (x &&& y) ^^^ (x &&& z) :=
  BitVec.eq_of_getLsbD_eq fun i _ => by
    simp only [BitVec.getLsbD_and, BitVec.getLsbD_xor, Bool.and_xor_distrib_left]

instance : Zero (BoolWord d) := ⟨(0 : Word d)⟩
instance : One (BoolWord d) := ⟨(BitVec.allOnes _ : Word d)⟩
instance : Add (BoolWord d) := ⟨fun (x y : Word d) => x ^^^ y⟩
instance : Neg (BoolWord d) := ⟨fun x => x⟩
instance : Sub (BoolWord d) := ⟨fun (x y : Word d) => x ^^^ y⟩
instance : Mul (BoolWord d) := ⟨fun (x y : Word d) => x &&& y⟩

/-- Words under `^` and `&`. -/
instance : CommRing (BoolWord d) where
  add_assoc := BitVec.xor_assoc
  zero_add _ := BitVec.zero_xor
  add_zero _ := BitVec.xor_zero
  add_comm := BitVec.xor_comm
  neg_add_cancel _ := BitVec.xor_self
  mul_assoc := BitVec.and_assoc
  mul_comm := BitVec.and_comm
  one_mul _ := BitVec.allOnes_and
  mul_one _ := BitVec.and_allOnes
  left_distrib := and_xor_distrib
  right_distrib x y z := (BitVec.and_comm _ _).trans <| (and_xor_distrib z x y).trans <|
    congrArg₂ _ (BitVec.and_comm _ _) (BitVec.and_comm _ _)
  zero_mul _ := BitVec.zero_and
  mul_zero _ := BitVec.and_zero
  nsmul := nsmulRec
  zsmul := zsmulRec

/-- **The boolean operations of the protocols are the arithmetic ones in this ring.** -/
@[reducible] def boolRing (d : DataType) : CommRing (Word d) :=
  inferInstanceAs (CommRing (BoolWord d))

/-! ## Single bits -/

/-- The bit at `bitIndex`, as an element. -/
def getBit (share : Word d) (bitIndex : ℕ) : Word d := (share >>> bitIndex) &&& 1

/-- Set the bit at `bitIndex` of `share` to the LSB of `bit`. -/
def setBit (share bit : Word d) (bitIndex : ℕ) : Word d :=
  (share &&& ~~~((1 : Word d) <<< bitIndex)) ||| (bit <<< bitIndex)

theorem getLsbD_getBit (x : Word d) (i j : ℕ) :
    (getBit x i).getLsbD j = (decide (j = 0) && x.getLsbD i) := by
  have h1 : (1 : Word d) = 1#d.bits := rfl
  rw [getBit, BitVec.getLsbD_and, BitVec.getLsbD_ushiftRight, h1, BitVec.getLsbD_one]
  by_cases hj : j = 0
  · subst hj; simp [d.bits_pos]
  · simp [hj]

/-- **What one `setBit` does to each bit.** -/
theorem getLsbD_setBit_getBit (share x : Word d) (i k : ℕ) {j : ℕ} (hj : j < d.bits) :
    (setBit share (getBit x k) i).getLsbD j
      = if j = i then x.getLsbD k else share.getLsbD j := by
  have h1 : (1 : Word d) = 1#d.bits := rfl
  rw [setBit, BitVec.getLsbD_or, BitVec.getLsbD_and, BitVec.getLsbD_not, BitVec.getLsbD_shiftLeft,
    BitVec.getLsbD_shiftLeft, h1, BitVec.getLsbD_one, getLsbD_getBit]
  rcases lt_trichotomy j i with h | h | h
  · simp [h, hj, h.ne]
  · subst h; simp [hj, d.bits_pos]
  · simp [hj, h.ne', not_lt.mpr h.le, Nat.sub_eq_zero_iff_le, not_le.mpr h]

/-- **What a loop of writes leaves at one place**: the value written there by the rounds that hit
it, the old one where none does. -/
theorem foldl_write {S ι : Type*} (f : S → ι → S) (obs : S → Bool) (hit : ι → Prop) (v : Bool)
    (l : List ι) (s : S) (hhit : ∀ s, ∀ i ∈ l, hit i → obs (f s i) = v)
    (hmiss : ∀ s, ∀ i ∈ l, ¬ hit i → obs (f s i) = obs s) :
    ((∃ i ∈ l, hit i) → obs (l.foldl f s) = v) ∧
      ((∀ i ∈ l, ¬ hit i) → obs (l.foldl f s) = obs s) := by
  induction l generalizing s with
  | nil => exact ⟨fun ⟨i, hi, _⟩ => absurd hi (by simp), fun _ => rfl⟩
  | cons a l ih =>
    have ih' := ih (f s a) (fun s i hi => hhit s i (List.mem_cons_of_mem _ hi))
      fun s i hi => hmiss s i (List.mem_cons_of_mem _ hi)
    refine ⟨fun ⟨i, hi, hi'⟩ => ?_, fun h => ?_⟩
    · by_cases hl : ∃ i ∈ l, hit i
      · exact ih'.1 hl
      · obtain rfl | hmem := List.mem_cons.mp hi
        · rw [List.foldl_cons, ih'.2 fun j hj hj' => hl ⟨j, hj, hj'⟩]
          exact hhit s i List.mem_cons_self hi'
        · exact absurd ⟨i, hmem, hi'⟩ hl
    · rw [List.foldl_cons, ih'.2 fun j hj => h j (List.mem_cons_of_mem _ hj)]
      exact hmiss s a List.mem_cons_self (h a List.mem_cons_self)

/-- The values of `for (i = start; i < stop; i += step)`. -/
def forRange (start stop step : ℕ) : List ℕ :=
  List.range' start ((stop - start + step - 1) / step) step

theorem mem_forRange {start stop step i : ℕ} (hstep : 0 < step) :
    i ∈ forRange start stop step ↔ ∃ t, i = start + step * t ∧ i < stop := by
  rw [forRange, List.mem_range']
  constructor
  · rintro ⟨t, ht, rfl⟩
    refine ⟨t, rfl, ?_⟩
    have h := (Nat.lt_div_iff_mul_lt hstep).mp ht
    rw [Nat.mul_comm] at h
    omega
  · rintro ⟨t, rfl, ht⟩
    refine ⟨t, (Nat.lt_div_iff_mul_lt hstep).mpr ?_, rfl⟩
    rw [Nat.mul_comm t]
    omega

/-! ## The shifts of the adder -/

/-- `Vector::ltz`, elementwise: the sign. -/
def ltz (x : Vec n d) : Vec n d := fun j => if (x j).slt 0 then 1 else 0

/-- `Vector::bit_left_shift`. -/
def bitLeftShift (shiftSize : ℕ) (x : Vec n d) : Vec n d := fun j => x j <<< shiftSize

/-- One element of `Vector::reverse_bit_level_shift`: every upper half of a part of `level_size`
bits is filled with the top bit of the lower half. -/
def reverseBitLevelShiftWord (levelSize : ℕ) (x : Word d) : Word d :=
  let halfLevel := levelSize / 2
  (forRange (halfLevel - 1) (d.maxBitsNumber - halfLevel) levelSize).foldl (fun res j =>
    (forRange 1 (halfLevel + 1) 1).foldl (fun res k => setBit res (getBit x j) (j + k)) res) x

/-- `Vector::reverse_bit_level_shift`. -/
def reverseBitLevelShift (levelSize : ℕ) (x : Vec n d) : Vec n d :=
  fun j => reverseBitLevelShiftWord levelSize (x j)

/-- **What the shift at level `2 s` leaves in bit `b`**: the last bit of the block of `s` below in
the upper halves, the bit itself in the lower ones. -/
theorem getLsbD_reverseBitLevelShiftWord {s : ℕ} (hs : 0 < s) (hd : 2 * s ∣ d.bits) (x : Word d)
    {b : ℕ} (hb : b < d.bits) : (reverseBitLevelShiftWord (2 * s) x).getLsbD b
      = if b / s % 2 = 1 then x.getLsbD (Machinery.lowerEnd s b) else x.getLsbD b := by
  have hhalf : 2 * s / 2 = s := by omega
  have hdm : s * (b / s) + b % s = b := Nat.div_add_mod b s
  have hlt : b % s < s := Nat.mod_lt b hs
  -- the only round `(j, k)` that writes bit `b` reads the end of the block below
  have hround : ∀ j k, j ∈ forRange (s - 1) (d.bits - s) (2 * s) → k ∈ forRange 1 (s + 1) 1 →
      b = j + k → b / s % 2 = 1 ∧ j = Machinery.lowerEnd s b := by
    intro j k hj hk hbjk
    obtain ⟨t, rfl, -⟩ := (mem_forRange (by omega)).mp hj
    obtain ⟨u, rfl, hu⟩ := (mem_forRange one_pos).mp hk
    have hb' : b = s * (2 * t + 1) + u := by
      rw [hbjk, Nat.mul_add, ← Nat.mul_assoc, Nat.mul_comm s 2]; omega
    have hu' : u < s := by omega
    have hq : b / s = 2 * t + 1 := by
      rw [hb', Nat.mul_add_div hs, Nat.div_eq_of_lt hu', Nat.add_zero]
    have hr : b % s = u := by rw [hb', Nat.mul_add_mod, Nat.mod_eq_of_lt hu']
    refine ⟨by omega, ?_⟩
    rw [Machinery.lowerEnd, hr, hbjk]
    omega
  have hinner : ∀ res j, j ∈ forRange (s - 1) (d.bits - s) (2 * s) →
      ((∃ k ∈ forRange 1 (s + 1) 1, b = j + k) → ((forRange 1 (s + 1) 1).foldl
        (fun res k => setBit res (getBit x j) (j + k)) res).getLsbD b = x.getLsbD j) ∧
      ((∀ k ∈ forRange 1 (s + 1) 1, ¬ b = j + k) → ((forRange 1 (s + 1) 1).foldl
        (fun res k => setBit res (getBit x j) (j + k)) res).getLsbD b = res.getLsbD b) := by
    intro res j _
    refine foldl_write _ (fun res : Word d => res.getLsbD b) (fun k => b = j + k) _ _ _
      (fun res k _ hk => ?_) (fun res k _ hk => ?_)
    · rw [getLsbD_setBit_getBit _ _ _ _ hb, if_pos hk]
    · rw [getLsbD_setBit_getBit _ _ _ _ hb, if_neg hk]
  have houter := foldl_write _ (fun res : Word d => res.getLsbD b)
    (fun j => ∃ k ∈ forRange 1 (s + 1) 1, b = j + k) (x.getLsbD (Machinery.lowerEnd s b))
    (forRange (s - 1) (d.bits - s) (2 * s)) x
    (fun res j hj hk => by
      obtain ⟨k, hk, hbjk⟩ := hk
      rw [(hinner res j hj).1 ⟨k, hk, hbjk⟩, (hround j k hj hk hbjk).2])
    (fun res j hj hk => (hinner res j hj).2 fun k hk' e => hk ⟨k, hk', e⟩)
  rw [reverseBitLevelShiftWord, d.maxBitsNumber_eq]
  simp only [hhalf]
  split
  · -- the block below ends at `j`, and `b` is within reach
    rename_i hpar
    have hq : 0 < b / s := Nat.pos_of_ne_zero fun h0 => by rw [h0] at hpar; cases hpar
    refine houter.1 ⟨Machinery.lowerEnd s b, (mem_forRange (by omega)).mpr ⟨b / s / 2, ?_, ?_⟩,
      b % s + 1, (mem_forRange one_pos).mpr ⟨b % s, by omega, by omega⟩, ?_⟩
    · have hq' : b / s = 2 * (b / s / 2) + 1 := by omega
      have hm : s * (b / s) = 2 * s * (b / s / 2) + s := by
        rw [Nat.mul_comm 2 s, Nat.mul_assoc, ← Nat.mul_succ, Nat.succ_eq_add_one, ← hq']
      rw [Machinery.lowerEnd]
      omega
    · obtain ⟨c, hc⟩ := hd
      have hbits : s * (2 * c) = d.bits := by rw [hc, ← Nat.mul_assoc, Nat.mul_comm s 2]
      have hqc : b / s + 1 ≤ 2 * c := by
        rw [Nat.add_one_le_iff, Nat.div_lt_iff_lt_mul hs, Nat.mul_comm, hbits]
        exact hb
      have hmul : s * (b / s + 1) ≤ d.bits := hbits ▸ Nat.mul_le_mul_left s hqc
      rw [Nat.mul_succ] at hmul
      have hpos : s ≤ s * (b / s) := Nat.le_mul_of_pos_right s hq
      rw [Machinery.lowerEnd]
      omega
    · have hge : s ≤ s * (b / s) := Nat.le_mul_of_pos_right s hq
      rw [Machinery.lowerEnd]
      omega
  · rename_i hpar
    refine houter.2 fun j hj h => ?_
    obtain ⟨k, hk, e⟩ := h
    exact hpar (hround j k hj hk e).1

end Tva
