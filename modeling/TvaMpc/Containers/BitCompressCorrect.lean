import TvaMpc.Containers.BitCompress
import TvaMpc.Machinery.Loops

/-!
# Containers/BitCompressCorrect — which bits the packing moves

`start` and `end` are the first and the last bit "to be included", `step` apart from each other.
Both loops take `(end - start + 1) / step` bits of an element, where the view of the same shape over
elements takes `(end - start) / step + 1`.  So the last bit is left out unless `step` divides
`end - start + 1`; everything else is as documented, over all element boundaries.

The loop counters are `int`; they are exact while `bits * repetition * size` is one.
-/

namespace Tva

variable {d : DataType} {n m : ℕ}

/-! ## The documented bits -/

/-- `start`, `start + step`, …, none above `stop`. -/
def Included (start step stop : ℤ) (b : ℕ) : Prop := start ≤ b ∧ (b : ℤ) ≤ stop ∧ step ∣ b - start

instance (start step stop : ℤ) (b : ℕ) : Decidable (Included start step stop b) :=
  inferInstanceAs (Decidable (_ ∧ _ ∧ _))

/-- The included bits of an element, in order. -/
def includedBits (d : DataType) (start step stop : ℤ) : List ℕ :=
  (List.range d.bits).filter fun b => Included start step stop b

/-- All bits of a vector, in order. -/
def bitList (x : Vec n d) : List Bool :=
  (List.finRange n).flatMap fun e => (List.range d.bits).map (x e).getLsbD

/-- The included bits of a vector, each `repetition` times. -/
def includedBitList (v : Vec n d) (start step stop repetition : ℤ) : List Bool :=
  (List.finRange n).flatMap fun j => (includedBits d start step stop).flatMap fun b =>
    List.replicate repetition.toNat ((v j).getLsbD b)

/-- The packed vector holds the included bits in order, then zeros. -/
def Packed (v : Vec n d) (start step stop repetition : ℤ) : Prop :=
  ∃ zeros, bitList (simpleBitCompress v start step stop repetition)
    = includedBitList v start step stop repetition ++ List.replicate zeros false

/-- Unpacking into `t` what was packed from `v` moves the included bits and no others. -/
def RoundTrip (v t : Vec n d) (start step stop repetition : ℤ) : Prop :=
  ∀ j, ∀ b < d.bits, (simpleBitDecompress t (simpleBitCompress v start step stop repetition)
    start step stop repetition j).getLsbD b
      = if Included start step stop b then (v j).getLsbD b else (t j).getLsbD b

/-! ## A packing loop as a list of bits -/

theorem bitList_eq (x : Vec n d) : bitList x
    = (List.range (n * d.bits)).map fun p => (x.read (p / d.bits)).getLsbD (p % d.bits) := by
  have h := Machinery.map_range_divMod (fun e b => (x.read e).getLsbD b) n d.bits
  simp only [Vec.read_val] at h
  exact h.symm

/-- **A packing loop writes the bits it reads, in order, and leaves zeros behind them.** -/
theorem bitList_foldl_pack {c : ℕ} (word : ℕ → Word d) (idx : ℕ → ℕ) {total : ℕ}
    (h : total ≤ c * d.bits) :
    bitList ((List.range total).foldl (fun (res : Vec c d) t => res.write (t / d.bits) fun share =>
      setBit share (getBit (word t) (idx t)) (t % d.bits)) 0)
      = (List.range total).map (fun t => (word t).getLsbD (idx t))
        ++ List.replicate (c * d.bits - total) false := by
  rw [bitList_eq, ← Machinery.map_range_pad _ false h]
  refine List.map_congr_left fun p hp => ?_
  have hlt : p / d.bits < c := (Nat.div_lt_iff_lt_mul d.bits_pos).mpr (List.mem_range.mp hp)
  rw [Vec.read, dif_pos hlt, getLsbD_foldl_pack _ _ _ _ (Nat.mod_lt _ d.bits_pos)]
  simp only [Nat.div_add_mod]

theorem le_divCeil_mul (x : ℕ) {y : ℕ} (hy : 0 < y) : x ≤ divCeil x y * y := by
  cases x with
  | zero => exact Nat.zero_le _
  | succ i => exact (Nat.div_lt_iff_lt_mul hy).mp (div_lt_divCeil hy (Nat.lt_succ_self i))

/-! ## The loop bounds of `simple_bit_compress` -/

section Bounds

variable {a s z r : ℕ}

theorem bitsPerElement_natCast (h : a ≤ z) : bitsPerElement a s z r = (z + 1 - a) / s * r := by
  have hlen : (z : ℤ) - a + 1 = ((z + 1 - a : ℕ) : ℤ) := by omega
  rw [bitsPerElement, hlen, ← Int.ofNat_tdiv, ← Int.natCast_mul, Int.natAbs_natCast]

theorem selectedBit_natCast (bits i : ℕ) :
    selectedBit a s r bits i = a + i % bits / r * s := by
  rw [selectedBit, ← Int.ofNat_tdiv, ← Int.natCast_mul, ← Int.natCast_add, Int.toNat_natCast]

/-- **What is packed**: `(z + 1 - a) / s` bits of every element. -/
theorem bitList_simpleBitCompress (v : Vec n d) (h : a ≤ z) (hr : 0 < r) :
    ∃ zeros, bitList (simpleBitCompress v a s z r)
      = ((List.finRange n).flatMap fun j => (List.range ((z + 1 - a) / s)).flatMap fun k =>
          List.replicate r ((v j).getLsbD (a + k * s))) ++ List.replicate zeros false := by
  refine ⟨_, (bitList_foldl_pack _ _ (le_divCeil_mul _ d.bits_pos)).trans (congrArg (· ++ _) ?_)⟩
  have hblocks := Machinery.map_range_divMod
    (fun j q => (v.read j).getLsbD (a + q / r * s)) n ((z + 1 - a) / s * r)
  simp only [Vec.read_val] at hblocks
  simp only [bitsPerElement_natCast h, selectedBit_natCast]
  rw [Nat.mul_comm _ n, hblocks]
  exact List.flatMap_congr fun j _ =>
    Machinery.map_range_div (fun k => (v j).getLsbD (a + k * s)) _ hr

/-- The packed bit of round `i` is the bit that this round selects. -/
theorem getLsbD_read_simpleBitCompress (v : Vec n d) (h : a ≤ z) {i : ℕ}
    (hi : i < (z + 1 - a) / s * r * n) :
    ((simpleBitCompress v a s z r).read (i / d.bits)).getLsbD (i % d.bits)
      = (v.read (i / ((z + 1 - a) / s * r))).getLsbD (a + i % ((z + 1 - a) / s * r) / r * s) := by
  have hlt : i / d.bits < compressedSize d n a s z r := by
    rw [compressedSize, bitsPerElement_natCast h]
    exact div_lt_divCeil d.bits_pos hi
  rw [Vec.read, dif_pos hlt, simpleBitCompress,
    getLsbD_foldl_pack _ _ _ _ (Nat.mod_lt _ d.bits_pos)]
  simp only [Nat.div_add_mod, bitsPerElement_natCast h, selectedBit_natCast, if_pos hi]

/-- **What comes back**: the packed bits of `v`, and `t` elsewhere. -/
theorem getLsbD_simpleBitDecompress_compress (v t : Vec n d) (h : a ≤ z) (hr : 0 < r) (j : Fin n)
    {b : ℕ} (hb : b < d.bits) :
    (simpleBitDecompress t (simpleBitCompress v a s z r) a s z r j).getLsbD b
      = if ∃ k < (z + 1 - a) / s, b = a + k * s then (v j).getLsbD b else (t j).getLsbD b := by
  set count := (z + 1 - a) / s with hcount
  -- round `i` writes bit `b` of element `j` exactly when it selects it
  have key := foldl_write
    (fun (res : Vec n d) i => res.write (i / (count * r)) fun share =>
      setBit share (getBit ((simpleBitCompress v a s z r).read (i / d.bits)) (i % d.bits))
        (a + i % (count * r) / r * s))
    (fun res => (res j).getLsbD b)
    (fun i => j = i / (count * r) ∧ b = a + i % (count * r) / r * s) ((v j).getLsbD b)
    (List.range (count * r * n)) t
    (fun res i hi hhit => by
      rw [Vec.write, if_pos hhit.1, getLsbD_setBit_getBit _ _ _ _ hb, if_pos hhit.2,
        getLsbD_read_simpleBitCompress v h (List.mem_range.mp hi), ← hcount, ← hhit.1, ← hhit.2,
        Vec.read_val])
    (fun res i _ hmiss => by
      rw [Vec.write]
      split
      · rename_i hj
        rw [getLsbD_setBit_getBit _ _ _ _ hb, if_neg fun hbi => hmiss ⟨hj, hbi⟩]
      · rfl)
  simp only [simpleBitDecompress, bitsPerElement_natCast h, selectedBit_natCast, ← hcount]
  split
  · rename_i hex
    obtain ⟨k, hk, rfl⟩ := hex
    have hin : k * r < count * r := Nat.mul_lt_mul_of_pos_right hk hr
    refine key.1 ⟨count * r * j + k * r, List.mem_range.mpr ?_, ?_, ?_⟩
    · calc count * r * j + k * r < count * r * j + count * r := Nat.add_lt_add_left hin _
        _ = count * r * (j + 1) := (Nat.mul_succ _ _).symm
        _ ≤ count * r * n := Nat.mul_le_mul_left _ j.isLt
    · rw [Nat.mul_add_div (Nat.zero_lt_of_lt hin), Nat.div_eq_of_lt hin, Nat.add_zero]
    · rw [Nat.mul_add_mod, Nat.mod_eq_of_lt hin, Nat.mul_div_cancel _ hr]
  · rename_i hex
    refine key.2 fun i hi hhit => hex ⟨i % (count * r) / r, ?_, hhit.2⟩
    have hpos : 0 < count * r :=
      Nat.pos_of_ne_zero fun h0 => by rw [h0, Nat.zero_mul] at hi; simp at hi
    exact (Nat.div_lt_iff_lt_mul hr).mpr (Nat.mod_lt _ hpos)

theorem included_natCast {b : ℕ} :
    Included a s z b ↔ a ≤ b ∧ b ≤ z ∧ s ∣ b - a := by
  rw [Included, Int.ofNat_le, Int.ofNat_le]
  refine and_congr_right fun hab => and_congr_right fun _ => ?_
  rw [← Nat.cast_sub hab, Int.natCast_dvd_natCast]

theorem includedBits_natCast (hs : 0 < s) (h : a ≤ z) (hz : z < d.bits) :
    includedBits d a s z = (List.range ((z - a) / s + 1)).map fun k => a + k * s := by
  rw [includedBits, ← Machinery.filter_range_stride hs h hz]
  exact List.filter_congr fun b _ => decide_eq_decide.mpr included_natCast

end Bounds

/-! ## When the documented bits are moved -/

section Correct

variable {start step stop repetition : ℤ}

/-- **Packing and unpacking moves the documented bits exactly when `step` divides
`stop - start + 1`**: otherwise the last one is left out. -/
theorem simpleBitCompress_correct_iff (v : Vec m d) (hstart : 0 ≤ start) (hstop : start ≤ stop)
    (hbits : stop < d.bits) (hstep : 1 ≤ step) (hrep : 1 ≤ repetition) :
    (∀ t, RoundTrip v t start step stop repetition) ∧ Packed v start step stop repetition
      ↔ m = 0 ∨ step ∣ stop - start + 1 := by
  obtain ⟨a, rfl⟩ := Int.eq_ofNat_of_zero_le hstart
  obtain ⟨z, rfl⟩ := Int.eq_ofNat_of_zero_le (hstart.trans hstop)
  obtain ⟨s, rfl⟩ := Int.eq_ofNat_of_zero_le (zero_le_one.trans hstep)
  obtain ⟨r, rfl⟩ := Int.eq_ofNat_of_zero_le (zero_le_one.trans hrep)
  have haz : a ≤ z := by omega
  have hz : z < d.bits := by omega
  have hs : 0 < s := by omega
  have hr : 0 < r := by omega
  have hlen : (z : ℤ) - a + 1 = ((z + 1 - a : ℕ) : ℤ) := by omega
  rw [hlen, Int.natCast_dvd_natCast]
  constructor
  · rintro ⟨hround, -⟩
    by_contra hno
    obtain ⟨hm, hdvd⟩ := not_or.mp hno
    have hcount := Machinery.length_div_of_not_dvd haz hdvd
    -- the last included bit is not packed, so it keeps what `t` had
    set last := a + (z + 1 - a) / s * s with hlast
    have hincl : a ≤ last ∧ last ≤ z ∧ s ∣ last - a :=
      (Machinery.exists_stride_iff hs haz).mp ⟨(z + 1 - a) / s, by omega, rfl⟩
    have hnot : ¬ ∃ k < (z + 1 - a) / s, last = a + k * s := by
      rintro ⟨k, hk, he⟩
      have := Nat.mul_lt_mul_of_pos_right hk hs
      omega
    have hlt : last < d.bits := by omega
    have hback := hround (fun j => ~~~v j) ⟨0, Nat.pos_of_ne_zero hm⟩ last hlt
    rw [getLsbD_simpleBitDecompress_compress v _ haz hr _ hlt, if_neg hnot,
      if_pos (included_natCast.mpr hincl), BitVec.getLsbD_not] at hback
    simp [hlt] at hback
  · intro hcond
    refine ⟨fun t j b hb => ?_, ?_⟩
    · have hdvd : s ∣ z + 1 - a := hcond.resolve_left fun hm => by subst hm; exact j.elim0
      rw [getLsbD_simpleBitDecompress_compress v t haz hr j hb,
        Machinery.length_div_of_dvd haz hdvd]
      simp only [Machinery.exists_stride_iff hs haz, included_natCast]
    · obtain ⟨zeros, hpacked⟩ := bitList_simpleBitCompress (s := s) v haz hr
      refine ⟨zeros, hpacked.trans (congrArg (· ++ _) (List.flatMap_congr fun j _ => ?_))⟩
      have hdvd : s ∣ z + 1 - a := hcond.resolve_left fun hm => by subst hm; exact j.elim0
      rw [includedBits_natCast hs haz hz, List.flatMap_map,
        Machinery.length_div_of_dvd haz hdvd, Int.toNat_natCast]

/-- Bits `0` and `2` of four, each twice. -/
theorem simpleBitCompress_correct_two :
    (∀ t, RoundTrip (fun j => j.val : Vec 16 .int32_t) t 0 2 3 2)
      ∧ Packed (fun j => j.val : Vec 16 .int32_t) 0 2 3 2 :=
  (simpleBitCompress_correct_iff _ (by decide) (by decide) (by decide) (by decide) (by decide)).mpr
    (Or.inr (by decide))

/-- Of the bits `0` and `2` only the first comes back. -/
theorem simpleBitDecompress_drops_last :
    ¬ RoundTrip (fun _ => 4 : Vec 1 .int8_t) (fun _ => 0) 0 2 2 1 := by
  intro h
  exact absurd (h 0 2 (by decide)) (by decide)

end Correct

end Tva
