import TvaMpc.Containers.Vector

/-!
# Containers/BitCompress — packing single bits into words and back

`simple_bit_compress` and `simple_bit_decompress` walk over the selected bits of all elements and
copy each into the next bit of a packed vector, or back.  The conversion from boolean to arithmetic
bits selects bit `0` of each element (`start = 0`, `step = 1`, `end = 0`, `repetition = 1`).
-/

namespace Tva

variable {d : DataType} {n m : ℕ}

/-- `div_ceil`. -/
def divCeil (x y : ℕ) : ℕ := x / y + if x % y > 0 then 1 else 0

theorem div_lt_divCeil {x y i : ℕ} (hy : 0 < y) (hi : i < x) : i / y < divCeil x y := by
  have hdm := Nat.div_add_mod x y
  rw [Nat.div_lt_iff_lt_mul hy, divCeil, Nat.add_mul, Nat.mul_comm (x / y)]
  split
  · have := Nat.mod_lt x hy; omega
  · omega

theorem divCeil_le (x : ℕ) {y : ℕ} (hy : 0 < y) : divCeil x y ≤ x := by
  have hdm := Nat.div_add_mod x y
  have hle := Nat.le_mul_of_pos_left (x / y) hy
  rw [divCeil]
  split <;> omega

/-- `(*this)[i]` for reading. -/
def Vec.read (x : Vec n d) (i : ℕ) : Word d := if h : i < n then x ⟨i, h⟩ else 0

/-- `(*this)[i]` for writing. -/
def Vec.write (x : Vec n d) (i : ℕ) (f : Word d → Word d) : Vec n d :=
  fun e => if (e : ℕ) = i then f (x e) else x e

@[simp] theorem Vec.read_val (x : Vec n d) (j : Fin n) : x.read j = x j := by simp [Vec.read]

theorem Vec.read_xor (x y : Vec n d) (i : ℕ) : (x ^^^ y).read i = x.read i ^^^ y.read i := by
  by_cases h : i < n <;> simp [Vec.read, h]

/-- The number of selected bits of an element. -/
def bitsPerElement (start step stop repetition : ℤ) : ℕ :=
  ((stop - start + 1).tdiv step * repetition).natAbs

/-- Where the `i`-th selected bit lies in its element. -/
def selectedBit (start step repetition : ℤ) (bitsPerElement i : ℕ) : ℕ :=
  (start + ((i % bitsPerElement : ℕ) : ℤ).tdiv repetition * step).toNat

/-- The size of the packed vector. -/
def compressedSize (d : DataType) (n : ℕ) (start step stop repetition : ℤ) : ℕ :=
  divCeil (bitsPerElement start step stop repetition * n) d.bits

/-- `Vector::simple_bit_compress`. -/
def simpleBitCompress (x : Vec n d) (start step stop repetition : ℤ) :
    Vec (compressedSize d n start step stop repetition) d :=
  let bits := bitsPerElement start step stop repetition
  (List.range (bits * n)).foldl (fun (res : Vec _ d) i =>
    res.write (i / d.bits) fun share =>
      setBit share (getBit (x.read (i / bits)) (selectedBit start step repetition bits i))
        (i % d.bits)) 0

/-- `Vector::simple_bit_decompress`. -/
def simpleBitDecompress (x : Vec n d) (other : Vec m d) (start step stop repetition : ℤ) :
    Vec n d :=
  let bits := bitsPerElement start step stop repetition
  (List.range (bits * n)).foldl (fun (res : Vec n d) i =>
    res.write (i / bits) fun share =>
      setBit share (getBit (other.read (i / d.bits)) (i % d.bits))
        (selectedBit start step repetition bits i)) x

/-- **What a packing loop leaves in bit `b` of word `e`**: the bit that its round `bits * e + b`
reads. -/
theorem getLsbD_foldl_pack {c : ℕ} (word : ℕ → Word d) (idx : ℕ → ℕ) (total : ℕ) (e : Fin c)
    {b : ℕ} (hb : b < d.bits) :
    ((List.range total).foldl (fun (res : Vec c d) t => res.write (t / d.bits) fun share =>
      setBit share (getBit (word t) (idx t)) (t % d.bits)) 0 e).getLsbD b
      = if d.bits * e + b < total
        then (word (d.bits * e + b)).getLsbD (idx (d.bits * e + b)) else false := by
  have hdiv : (d.bits * (e : ℕ) + b) / d.bits = e := by
    rw [Nat.mul_add_div d.bits_pos, Nat.div_eq_of_lt hb, Nat.add_zero]
  have hmod : (d.bits * (e : ℕ) + b) % d.bits = b := by rw [Nat.mul_add_mod, Nat.mod_eq_of_lt hb]
  have key := foldl_write
    (fun (res : Vec c d) t => res.write (t / d.bits) fun share =>
      setBit share (getBit (word t) (idx t)) (t % d.bits))
    (fun res => (res e).getLsbD b) (fun t => t = d.bits * e + b)
    ((word (d.bits * e + b)).getLsbD (idx (d.bits * e + b))) (List.range total) 0
    (fun res t _ ht => by
      subst ht
      rw [Vec.write, hdiv, if_pos rfl, getLsbD_setBit_getBit _ _ _ _ hb, hmod, if_pos rfl])
    (fun res t _ ht => by
      rw [Vec.write]
      split
      · rename_i he
        have hne : b ≠ t % d.bits := by
          intro hbt
          apply ht
          rw [he, hbt, Nat.div_add_mod]
        rw [getLsbD_setBit_getBit _ _ _ _ hb, if_neg hne]
      · rfl)
  split
  · rename_i hlt
    exact key.1 ⟨_, List.mem_range.mpr hlt, rfl⟩
  · rename_i hlt
    rw [key.2 fun t ht e' => hlt (e' ▸ List.mem_range.mp ht)]
    simp

/-! ## One bit per element -/

section Column

variable (i : ℕ)

theorem bitsPerElement_at : bitsPerElement i 1 i 1 = 1 := by
  rw [bitsPerElement, sub_self]; rfl

theorem selectedBit_at (t : ℕ) : selectedBit i 1 1 1 t = i := by
  rw [selectedBit, Nat.mod_one]
  exact (congrArg Int.toNat (add_zero (i : ℤ))).trans (Int.toNat_natCast i)

/-- Bit `b` of packed word `e` is bit `i` of element `e * bits + b`. -/
theorem getLsbD_simpleBitCompress_at (x : Vec n d) (e : Fin (compressedSize d n i 1 i 1)) {b : ℕ}
    (hb : b < d.bits) : (simpleBitCompress x i 1 i 1 e).getLsbD b
      = (x.read (d.bits * e + b)).getLsbD i := by
  have key := getLsbD_foldl_pack (fun t => x.read (t / 1)) (fun _ => i) n e hb
  simp only [Nat.div_one] at key
  simp only [simpleBitCompress, bitsPerElement_at, selectedBit_at, Nat.one_mul, Nat.div_one]
  rw [key]
  split
  · rfl
  · rename_i hn
    rw [Vec.read, dif_neg hn]
    simp

/-- Unpacking puts the packed bits into bit `i`, and leaves the others. -/
theorem getLsbD_simpleBitDecompress_at (x : Vec n d) (other : Vec m d) (j : Fin n) {b : ℕ}
    (hb : b < d.bits) : (simpleBitDecompress x other i 1 i 1 j).getLsbD b
      = if b = i then (other.read (j / d.bits)).getLsbD (j % d.bits) else (x j).getLsbD b := by
  have key := foldl_write
    (fun res t => res.write (t / 1) fun share =>
      setBit share (getBit (other.read (t / d.bits)) (t % d.bits)) i)
    (fun res : Vec n d => (res j).getLsbD b) (fun t : ℕ => t = j ∧ b = i)
    ((other.read (j / d.bits)).getLsbD (j % d.bits)) (List.range n) x
    (fun res t _ ht => by
      obtain ⟨rfl, rfl⟩ := ht
      rw [Vec.write, Nat.div_one, if_pos rfl, getLsbD_setBit_getBit _ _ _ _ hb, if_pos rfl])
    (fun res t _ ht => by
      rw [Vec.write, Nat.div_one]
      split
      · rename_i he
        rw [getLsbD_setBit_getBit _ _ _ _ hb, if_neg fun hbi => ht ⟨he.symm, hbi⟩]
      · rfl)
  simp only [simpleBitDecompress, bitsPerElement_at, selectedBit_at, Nat.one_mul]
  split
  · rename_i hbi
    exact key.1 ⟨j, List.mem_range.mpr j.isLt, rfl, hbi⟩
  · rename_i hbi
    exact key.2 fun t _ h => hbi h.2

end Column

theorem bitsPerElement_one : bitsPerElement 0 1 0 1 = 1 := rfl

theorem getLsbD_simpleBitCompress (x : Vec n d) (e : Fin (compressedSize d n 0 1 0 1)) {b : ℕ}
    (hb : b < d.bits) : (simpleBitCompress x 0 1 0 1 e).getLsbD b
      = (x.read (d.bits * e + b)).getLsbD 0 := getLsbD_simpleBitCompress_at 0 x e hb

theorem getLsbD_simpleBitDecompress (x : Vec n d) (other : Vec m d) (j : Fin n) {b : ℕ}
    (hb : b < d.bits) : (simpleBitDecompress x other 0 1 0 1 j).getLsbD b
      = if b = 0 then (other.read (j / d.bits)).getLsbD (j % d.bits) else (x j).getLsbD b :=
  getLsbD_simpleBitDecompress_at 0 x other j hb

/-- **Packing is linear over `^`.** -/
theorem simpleBitCompress_xor (x y : Vec n d) : simpleBitCompress (x ^^^ y) 0 1 0 1
    = simpleBitCompress x 0 1 0 1 ^^^ simpleBitCompress y 0 1 0 1 := by
  funext e
  refine BitVec.eq_of_getLsbD_eq fun b hb => ?_
  rw [Vec.xor_apply, BitVec.getLsbD_xor]
  simp only [getLsbD_simpleBitCompress _ _ hb, Vec.read_xor, BitVec.getLsbD_xor]

/-- Bit `0` of each element. -/
def lowBit (x : Vec n d) : Vec n d := fun j => x j &&& 1

theorem getLsbD_lowBit (x : Vec n d) (j : Fin n) (b : ℕ) :
    (lowBit x j).getLsbD b = (decide (b = 0) && (x j).getLsbD 0) := by
  have h1 : (1 : Word d) = 1#d.bits := rfl
  rw [lowBit, BitVec.getLsbD_and, h1, BitVec.getLsbD_one]
  by_cases hb : b = 0
  · subst hb; simp [d.bits_pos]
  · simp [hb]

/-- Unpacking what was packed: bit `0` comes back. -/
theorem getLsbD_decompress_compress (x y : Vec n d) (j : Fin n) {b : ℕ} (hb : b < d.bits) :
    (simpleBitDecompress y (simpleBitCompress x 0 1 0 1) 0 1 0 1 j).getLsbD b
      = if b = 0 then (x j).getLsbD 0 else (y j).getLsbD b := by
  have hj : (j : ℕ) / d.bits < compressedSize d n 0 1 0 1 := by
    rw [compressedSize, bitsPerElement_one, Nat.one_mul]
    exact div_lt_divCeil d.bits_pos j.isLt
  rw [getLsbD_simpleBitDecompress _ _ _ hb, Vec.read, dif_pos hj,
    getLsbD_simpleBitCompress _ _ (Nat.mod_lt _ d.bits_pos), Nat.div_add_mod, Vec.read_val]

/-- **Packing and unpacking keeps bit `0`.** -/
theorem simpleBitDecompress_compress (x : Vec n d) :
    simpleBitDecompress 0 (simpleBitCompress x 0 1 0 1) 0 1 0 1 = lowBit x := by
  funext j
  refine BitVec.eq_of_getLsbD_eq fun b hb => ?_
  rw [getLsbD_decompress_compress _ _ _ hb, getLsbD_lowBit]
  by_cases hb0 : b = 0
  · simp [hb0]
  · simp [hb0]

/-- Unpacking a vector's own bits into it changes nothing. -/
theorem simpleBitDecompress_self (x : Vec n d) :
    simpleBitDecompress x (simpleBitCompress x 0 1 0 1) 0 1 0 1 = x := by
  funext j
  refine BitVec.eq_of_getLsbD_eq fun b hb => ?_
  rw [getLsbD_decompress_compress _ _ _ hb]
  split
  · rename_i hb0; rw [hb0]
  · rfl

/-- Packing takes only bit `0`. -/
theorem simpleBitCompress_lowBit (x : Vec n d) :
    simpleBitCompress (lowBit x) 0 1 0 1 = simpleBitCompress x 0 1 0 1 := by
  funext e
  refine BitVec.eq_of_getLsbD_eq fun b hb => ?_
  rw [getLsbD_simpleBitCompress _ _ hb, getLsbD_simpleBitCompress _ _ hb, Vec.read, Vec.read]
  split
  · rw [getLsbD_lowBit]; simp
  · rfl

end Tva
