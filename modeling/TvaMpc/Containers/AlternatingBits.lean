import TvaMpc.Containers.BitCompressCorrect
import TvaMpc.Machinery.CInt

/-!
# Containers/AlternatingBits — packing the bits of alternating chunks

`alternating_bit_compress` cuts an element into chunks of `included_size` bits, `excluded_size` bits
apart, and packs every `step`-th bit of each chunk, from below or from above.  Its arithmetic is
that of `int`: a value that `int` cannot represent is `none`.

The word may end within a chunk.  From below that is no different from a whole chunk; from above the
loop starts at the last bit of a whole chunk all the same, which lies behind the word.
-/

namespace Tva.AlternatingBits

open Machinery

variable {d : DataType} {n : ℕ}

/-- The parameters of `alternating_bit_compress`. -/
structure Pattern where
  start : ℤ
  step : ℤ
  includedSize : ℤ
  excludedSize : ℤ
  direction : ℤ

/-- One round of the loop: the element and the bit that it reads. -/
def roundRead (p : Pattern) (period bitsPerChunk totalBitsPerElement directionOffset i : ℤ) :
    Option (ℤ × ℤ) := do
  let elementIndex := i.tdiv totalBitsPerElement
  let elementChunkIndex := (i.tmod totalBitsPerElement).tdiv bitsPerChunk
  let chunkBit := (i.tmod totalBitsPerElement).tmod bitsPerChunk
  let offset ← int (p.start + directionOffset)
  let chunkOffset ← int (elementChunkIndex * period)
  let chunkStart ← int (offset + chunkOffset)
  let stepped ← int (chunkBit * p.step)
  let directed ← int (stepped * p.direction)
  return (elementIndex, ← int (chunkStart + directed))

/-- The bits that `alternating_bit_compress` reads, in order, each with its element. -/
def alternatingReads (d : DataType) (size : ℕ) (p : Pattern) : Option (List (ℤ × ℤ)) := do
  let bitsPerChunk := p.includedSize.tdiv p.step
  let period ← int (p.includedSize + p.excludedSize)
  let bits ← int (d.bits - p.start)
  let bitsPerElement ← int (bits.tdiv period * bitsPerChunk)
  let lastChunkBitsPerElement := (min p.includedSize (bits.tmod period)).tdiv p.step
  let totalBitsPerElement ← int (bitsPerElement + lastChunkBitsPerElement)
  let directionOffset ← (if p.direction = -1 then int (p.includedSize - 1) else some 0)
  let totalBits ← int (totalBitsPerElement * size)
  (List.range totalBits.toNat).mapM fun i : ℕ =>
    roundRead p period bitsPerChunk totalBitsPerElement directionOffset i

/-- The bits read, packed. -/
def packReads (x : Vec n d) (reads : List (ℤ × ℤ)) : Vec (divCeil reads.length d.bits) d :=
  (List.range reads.length).foldl (fun (res : Vec _ d) i =>
    let read := reads.getD i (0, 0)
    res.write (i / d.bits) fun share =>
      setBit share (getBit (x.read read.1.toNat) read.2.toNat) (i % d.bits)) 0

/-- `Vector::alternating_bit_compress`. -/
def alternatingBitCompress (x : Vec n d) (start step includedSize excludedSize direction : ℤ) :
    Option (Σ size, Vec size d) := do
  let reads ← alternatingReads d n ⟨start, step, includedSize, excludedSize, direction⟩
  return ⟨_, packReads x reads⟩

/-- The bits read, in order, and then zeros. -/
theorem bitList_packReads (x : Vec n d) (reads : List (ℤ × ℤ)) :
    ∃ zeros, bitList (packReads x reads)
      = reads.map (fun r => (x.read r.1.toNat).getLsbD r.2.toNat)
        ++ List.replicate zeros false := by
  refine ⟨_, (bitList_foldl_pack _ _ (le_divCeil_mul _ d.bits_pos)).trans (congrArg (· ++ _) ?_)⟩
  refine List.ext_getElem (by simp) fun i h _ => ?_
  have hi : i < reads.length := by simpa using h
  simp [hi]

/-- **`alternating_bit_compress` reads these bits and packs them**, in order; zeros follow. -/
def Packs (x : Vec n d) (p : Pattern) (reads : List (ℤ × ℤ)) : Prop :=
  alternatingReads d n p = some reads ∧ ∃ res zeros,
    alternatingBitCompress x p.start p.step p.includedSize p.excludedSize p.direction = some res ∧
      bitList res.2 = reads.map (fun r => (x.read r.1.toNat).getLsbD r.2.toNat)
        ++ List.replicate zeros false

/-- What is read is packed. -/
theorem packs_iff {x : Vec n d} {p : Pattern} {reads : List (ℤ × ℤ)} :
    Packs x p reads ↔ alternatingReads d n p = some reads := by
  refine ⟨And.left, fun hreads => ⟨hreads, ⟨_, packReads x reads⟩, ?_⟩⟩
  obtain ⟨zeros, hzeros⟩ := bitList_packReads x reads
  refine ⟨zeros, ?_, hzeros⟩
  rw [alternatingBitCompress, hreads]
  rfl

/-! ## The documented bits -/

/-- Chunk `q` includes bit `b`. -/
def InChunk (p : Pattern) (q b : ℤ) : Prop :=
  p.start + q * (p.includedSize + p.excludedSize) ≤ b
    ∧ b < p.start + q * (p.includedSize + p.excludedSize) + p.includedSize

instance (p : Pattern) (q b : ℤ) : Decidable (InChunk p q b) := inferInstanceAs (Decidable (_ ∧ _))

/-- The most significant bit of chunk `q` that a word has. -/
def topBit (d : DataType) (p : Pattern) (q : ℤ) : ℤ :=
  min (p.start + q * (p.includedSize + p.excludedSize) + p.includedSize - 1) (d.bits - 1)

/-- The bits read from chunk `q` of element `e`, in order. -/
def chosen (p : Pattern) (reads : List (ℤ × ℤ)) (e q : ℤ) : List ℤ :=
  (reads.filter fun r => r.1 = e ∧ InChunk p q r.2).map Prod.snd

/-- The bits read are as documented. -/
structure Documented (d : DataType) (p : Pattern) (reads : List (ℤ × ℤ)) : Prop where
  inWord : ∀ r ∈ reads, p.start ≤ r.2 ∧ r.2 < d.bits
  included : ∀ r ∈ reads, ∃ q, 0 ≤ q ∧ InChunk p q r.2
  nodup : reads.Nodup
  downwards : p.direction = -1 → ∀ e q, (chosen p reads e q).Pairwise (· > ·)
    ∧ ∀ b ∈ (chosen p reads e q).head?, b = topBit d p q

theorem documented_nil {p : Pattern} : Documented d p [] where
  inWord := by simp
  included := by simp
  nodup := List.nodup_nil
  downwards := by simp [chosen]

/-- The size of what is left of a word behind the whole chunks. -/
def lastChunkSize (d : DataType) (p : Pattern) : ℤ :=
  (d.bits - p.start) % (p.includedSize + p.excludedSize)

/-- The number of bits packed from an element. -/
def selectedBits (d : DataType) (p : Pattern) : ℤ :=
  (d.bits - p.start) / (p.includedSize + p.excludedSize) * (p.includedSize / p.step)
    + min p.includedSize (lastChunkSize d p) / p.step

/-! ## The rounds -/

/-- The bit that a round reads. -/
def position (p : Pattern) (period bitsPerChunk totalBitsPerElement directionOffset i : ℤ) : ℤ :=
  p.start + directionOffset + (i.tmod totalBitsPerElement).tdiv bitsPerChunk * period
    + (i.tmod totalBitsPerElement).tmod bitsPerChunk * p.step * p.direction

theorem roundRead_eq_some {p : Pattern} {period bits total off i : ℤ} {r : ℤ × ℤ}
    (h : roundRead p period bits total off i = some r) :
    r = (i.tdiv total, position p period bits total off i) := by
  simp only [roundRead, Option.bind_eq_bind, Option.bind_eq_some_iff, int_eq_some_iff,
    Option.pure_def, Option.some.injEq] at h
  obtain ⟨_, ⟨-, rfl⟩, _, ⟨-, rfl⟩, _, ⟨-, rfl⟩, _, ⟨-, rfl⟩, _, ⟨-, rfl⟩, _, ⟨-, rfl⟩, rfl⟩ := h
  rfl

section Rounds

variable {a s c x : ℕ} {direction : ℤ}

/-- The bit of a chunk that its `k`-th round reads. -/
def chunkBit (s c : ℕ) (direction : ℤ) (k : ℕ) : ℤ :=
  if direction = -1 then c - 1 - k * s else k * s

/-- Round `k` stays within the `size` bits of its chunk that the word has; from above it needs all
of them. -/
theorem chunkBit_bounds {k size : ℕ} (hs : 0 < s) (hk : k < size / s)
    (hwhole : direction = -1 → size = c) :
    0 ≤ chunkBit s c direction k ∧ chunkBit s c direction k < size ∧ (k * s : ℤ) + s ≤ size := by
  have hle : (k + 1) * s ≤ size := (Nat.le_div_iff_mul_le hs).mp hk
  rw [Nat.succ_mul] at hle
  have hle' : (k : ℤ) * s + s ≤ size := by exact_mod_cast hle
  have hpos : (0 : ℤ) ≤ k * s := by positivity
  rw [chunkBit]
  split
  · rename_i h
    have := hwhole h
    omega
  · omega

theorem chunkBit_injective {k k' : ℕ} (hs : 0 < s)
    (h : chunkBit s c direction k = chunkBit s c direction k') : k = k' := by
  have hks : (k : ℤ) * s = k' * s := by
    rw [chunkBit, chunkBit] at h
    split at h <;> omega
  exact Nat.eq_of_mul_eq_mul_right hs (by exact_mod_cast hks)

theorem inChunk_unique {p : Pattern} {q q' b : ℤ} (hincl : 0 < p.includedSize)
    (hexcl : 0 ≤ p.excludedSize) (h : InChunk p q b) (h' : InChunk p q' b) : q = q' := by
  rw [InChunk] at h h'
  rcases lt_trichotomy q q' with hlt | heq | hgt
  · nlinarith
  · exact heq
  · nlinarith

/-- The bits packed from `w` bits: those of the whole chunks, and those of the last one. -/
def perElement (s c x w : ℕ) : ℕ := w / (c + x) * (c / s) + min c (w % (c + x)) / s

/-- What round `t` of an element has to read: `size` bits of chunk `t / b`, all within the word. -/
theorem exists_size {w t : ℕ} (hs : 0 < s) (hsc : s ≤ c) (ht : t < perElement s c x w)
    (hgood : direction = -1 → w % (c + x) < s ∨ c ≤ w % (c + x)) :
    ∃ size ≤ c, t % (c / s) < size / s ∧ t / (c / s) * (c + x) + size ≤ w
      ∧ (direction = -1 → size = c) := by
  have hdm := Nat.div_add_mod' w (c + x)
  rcases divMod_cases (Nat.div_pos hsc hs) (Nat.div_le_div_right (min_le_left _ _)) ht with
    ⟨hq, hk⟩ | ⟨hq, hk⟩
  · refine ⟨c, le_rfl, hk, ?_, fun _ => rfl⟩
    have := Nat.mul_le_mul_right (c + x) hq
    rw [Nat.succ_mul] at this
    omega
  · refine ⟨min c (w % (c + x)), min_le_left _ _, hk, ?_, fun hdir => ?_⟩
    · rw [hq]
      exact (Nat.add_le_add_left (min_le_right _ _) _).trans hdm.le
    · rcases hgood hdir with hlt | hle
      · rw [min_eq_right (hlt.le.trans hsc), Nat.div_eq_of_lt hlt] at hk
        exact absurd hk (Nat.not_lt_zero _)
      · exact min_eq_left hle

/-- The offset of the direction. -/
def directionOffset (c : ℕ) (direction : ℤ) : ℤ := if direction = -1 then c - 1 else 0

theorem position_natCast (hdir : direction = 1 ∨ direction = -1) (b total i : ℕ) :
    position ⟨a, s, c, x, direction⟩ (c + x : ℕ) b total (directionOffset c direction) i
      = a + (i % total / b : ℕ) * (c + x : ℕ) + chunkBit s c direction (i % total % b) := by
  rw [position, ← Int.ofNat_tmod, ← Int.ofNat_tdiv, ← Int.ofNat_tmod, directionOffset, chunkBit]
  rcases hdir with rfl | rfl
  · rw [if_neg (by decide), if_neg (by decide), mul_one, add_zero]
  · rw [if_pos rfl, if_pos rfl]
    linarith

/-- What round `i` of the loop reads. -/
def roundBit (a s c x : ℕ) (direction : ℤ) (b total i : ℕ) : ℤ × ℤ :=
  ((i / total : ℕ), a + (i % total / b : ℕ) * (c + x : ℕ) + chunkBit s c direction (i % total % b))

/-- What the rounds of the loop read of `n` elements that have `w` bits from the start on. -/
def roundReads (a s c x : ℕ) (direction : ℤ) (w n : ℕ) : List (ℤ × ℤ) :=
  (List.range (perElement s c x w * n)).map
    (roundBit a s c x direction (c / s) (perElement s c x w))

theorem mem_chosen_iff {p : Pattern} {w : ℕ} {e q b : ℤ} :
    b ∈ chosen p (roundReads a s c x direction w n) e q
      ↔ ∃ i < perElement s c x w * n,
        (roundBit a s c x direction (c / s) (perElement s c x w) i).1 = e
          ∧ InChunk p q (roundBit a s c x direction (c / s) (perElement s c x w) i).2
          ∧ (roundBit a s c x direction (c / s) (perElement s c x w) i).2 = b := by
  simp only [chosen, roundReads, List.mem_map, List.mem_filter, List.mem_range, decide_eq_true_eq]
  constructor
  · rintro ⟨_, ⟨⟨i, hi, rfl⟩, helem, hin⟩, rfl⟩
    exact ⟨i, hi, helem, hin, rfl⟩
  · rintro ⟨i, hi, helem, hin, rfl⟩
    exact ⟨_, ⟨⟨i, hi, rfl⟩, helem, hin⟩, rfl⟩

/-- A decreasing list begins with its largest member. -/
theorem head_eq_of_le {l : List ℤ} {b m : ℤ} (hl : l.Pairwise (· > ·)) (hb : b ∈ l.head?)
    (hm : m ∈ l) (hle : b ≤ m) : b = m := by
  obtain ⟨rest, rfl⟩ := List.head?_eq_some_iff.mp hb
  rcases List.mem_cons.mp hm with heq | hm
  · exact heq.symm
  · exact absurd (List.rel_of_pairwise_cons hl hm) (not_lt.mpr hle)

/-- **The arithmetic of a round stays within `int`** where the word has the chunk. -/
theorem roundRead_natCast {w i size : ℕ} (b total : ℕ) (hw : a + w ≤ 64)
    (hdir : direction = 1 ∨ direction = -1) (hs : 0 < s)
    (hk : i % total % b < size / s) (hle : i % total / b * (c + x) + size ≤ w)
    (hwhole : direction = -1 → size = c) :
    roundRead ⟨a, s, c, x, direction⟩ (c + x : ℕ) b total (directionOffset c direction) i
      = some (roundBit a s c x direction b total i) := by
  obtain ⟨h0, hlt, hks⟩ := chunkBit_bounds hs hk hwhole
  have hle' : ((i % total / b : ℕ) : ℤ) * (c + x : ℕ) + size ≤ w := by exact_mod_cast hle
  have hk0 : (0 : ℤ) ≤ (i % total % b : ℕ) * (s : ℤ) := by positivity
  have hq0 : (0 : ℤ) ≤ (i % total / b : ℕ) * ((c + x : ℕ) : ℤ) := by positivity
  rw [roundBit, ← position_natCast hdir, position]
  simp only [roundRead, ← Int.ofNat_tmod, ← Int.ofNat_tdiv, Option.bind_eq_bind]
  rcases hdir with rfl | rfl
  · rw [directionOffset, if_neg (by decide)]
    simp (disch := omega) only [int_self, Option.bind_some, Option.pure_def]
  · have hsize := hwhole rfl
    rw [directionOffset, if_pos rfl]
    simp (disch := omega) only [int_self, Option.bind_some, Option.pure_def]

/-- The loop of `alternating_bit_compress`, once its bounds are `int`s. -/
theorem alternatingReads_natCast {w : ℕ} (hw : a + w = d.bits) (hs : 0 < s) (hsc : s ≤ c) :
    alternatingReads d n ⟨a, s, c, x, direction⟩
      = if c + x ≤ 2147483647 ∧ perElement s c x w * n ≤ 2147483647 then
          (List.range (perElement s c x w * n)).mapM fun i : ℕ =>
            roundRead ⟨a, s, c, x, direction⟩ (c + x : ℕ) (c / s : ℕ) (perElement s c x w)
              (directionOffset c direction) i
        else none := by
  have hbits : d.bits ≤ 64 := by cases d <;> decide
  set total := perElement s c x w with htotal
  rw [perElement] at htotal
  have hsub : (d.bits : ℤ) - a = (w : ℕ) := by omega
  have hdm := Nat.div_add_mod' w (c + x)
  -- whole chunks have no more bits than the word
  have hchunks : w / (c + x) * (c / s) ≤ w / (c + x) * (c + x) :=
    Nat.mul_le_mul_left _ ((Nat.div_le_self c s).trans (Nat.le_add_right c x))
  have hlast : min c (w % (c + x)) / s ≤ w % (c + x) :=
    (Nat.div_le_self _ s).trans (min_le_right _ _)
  simp only [alternatingReads, ← Nat.cast_add, hsub, Option.bind_eq_bind]
  by_cases hperiod : c + x ≤ 2147483647
  · rw [int_self (by omega) (by exact_mod_cast hperiod), Option.bind_some,
      int_self (by omega) (by omega), Option.bind_some]
    simp only [← Int.ofNat_tdiv, ← Int.ofNat_tmod, ← Nat.cast_mul, ← Nat.cast_min]
    rw [int_self (by omega) (by omega), Option.bind_some]
    simp only [← Nat.cast_add, ← htotal]
    rw [int_self (by omega) (by omega), Option.bind_some]
    have hoffset : (if direction = -1 then int ((c : ℤ) - 1) else some 0)
        = some (directionOffset c direction) := by
      rw [directionOffset]
      split
      · exact int_self (by omega) (by omega)
      · rfl
    rw [hoffset, Option.bind_some]
    by_cases htotalBits : total * n ≤ 2147483647
    · rw [if_pos ⟨hperiod, htotalBits⟩, ← Nat.cast_mul,
        int_self (by omega) (by exact_mod_cast htotalBits), Option.bind_some, Int.toNat_natCast]
    · rw [← Nat.cast_mul, int_eq_none (by exact_mod_cast htotalBits), Option.bind_none,
        if_neg fun h => htotalBits h.2]
  · rw [int_eq_none (by exact_mod_cast hperiod), Option.bind_none, if_neg fun h => hperiod h.1]

/-- **From above, the loop reads behind the word** where the word ends within a chunk. -/
theorem exists_read_of_partial {w : ℕ} {reads : List (ℤ × ℤ)} (hs : 0 < s) (hsc : s ≤ c)
    (hrest : s ≤ w % (c + x)) (hshort : w % (c + x) < c) (hn : 0 < n)
    (hreads : (List.range (perElement s c x w * n)).mapM (fun i : ℕ =>
      roundRead ⟨a, s, c, x, -1⟩ (c + x : ℕ) (c / s : ℕ) (perElement s c x w)
        (directionOffset c (-1)) i) = some reads) : ∃ r ∈ reads, (a : ℤ) + w ≤ r.2 := by
  have hb : 0 < c / s := Nat.div_pos hsc hs
  have hpart : 0 < min c (w % (c + x)) / s := Nat.div_pos (le_min hsc hrest) hs
  have hlt : w / (c + x) * (c / s) < perElement s c x w := Nat.lt_add_of_pos_right hpart
  have hmem : w / (c + x) * (c / s) ∈ List.range (perElement s c x w * n) :=
    List.mem_range.mpr (hlt.trans_le (Nat.le_mul_of_pos_right _ hn))
  -- the first round of the last chunk
  have hround := List.mem_map_of_mem
    (f := fun i : ℕ => roundRead ⟨a, s, c, x, -1⟩ (c + x : ℕ) (c / s : ℕ) (perElement s c x w)
      (directionOffset c (-1)) i) hmem
  rw [mapM_eq_some_iff.mp hreads] at hround
  obtain ⟨r, hr, heq⟩ := List.mem_map.mp hround
  refine ⟨r, hr, ?_⟩
  rw [roundRead_eq_some heq.symm, position_natCast (Or.inr rfl), Nat.mod_eq_of_lt hlt,
    Nat.mul_div_cancel _ hb, Nat.mul_mod_left, chunkBit, if_pos rfl]
  have hdm : ((w / (c + x) : ℕ) : ℤ) * (c + x : ℕ) + (w % (c + x) : ℕ) = w := by
    exact_mod_cast Nat.div_add_mod' w (c + x)
  simp only [Nat.cast_zero, zero_mul]
  omega

/-! ### A word that ends between chunks, or is read from below -/

/-- The parameters read only whole chunks from above. -/
structure Whole (a s c x w : ℕ) (direction : ℤ) : Prop where
  word : a + w ≤ 64
  step : 0 < s
  size : s ≤ c
  dir : direction = 1 ∨ direction = -1
  whole : direction = -1 → w % (c + x) < s ∨ c ≤ w % (c + x)

namespace Whole

variable {w i : ℕ}

/-- **Round `i` reads a bit of its chunk that the word has.** -/
theorem roundBit_spec (h : Whole a s c x w direction) (hi : i < perElement s c x w * n) :
    (InChunk ⟨a, s, c, x, direction⟩ (i % perElement s c x w / (c / s) : ℕ)
        (roundBit a s c x direction (c / s) (perElement s c x w) i).2)
      ∧ (roundBit a s c x direction (c / s) (perElement s c x w) i).2 < a + w
      ∧ (direction = -1 → (i % perElement s c x w / (c / s) : ℕ) * ((c + x : ℕ) : ℤ) + c ≤ w)
      ∧ roundRead ⟨a, s, c, x, direction⟩ (c + x : ℕ) (c / s : ℕ) (perElement s c x w)
          (directionOffset c direction) i
        = some (roundBit a s c x direction (c / s) (perElement s c x w) i) := by
  have hpos : 0 < perElement s c x w :=
    Nat.pos_of_ne_zero fun h0 => by rw [h0, Nat.zero_mul] at hi; exact Nat.not_lt_zero _ hi
  obtain ⟨size, hsize, hk, hle, hwhole⟩ :=
    exists_size h.step h.size (Nat.mod_lt i hpos) h.whole
  obtain ⟨h0, hlt, -⟩ := chunkBit_bounds h.step hk hwhole
  have hle' : ((i % perElement s c x w / (c / s) : ℕ) : ℤ) * (c + x : ℕ) + size ≤ w := by
    exact_mod_cast hle
  refine ⟨?_, ?_, fun hdir => ?_, roundRead_natCast _ _ h.word h.dir h.step hk hle hwhole⟩
  · simp only [InChunk, roundBit, ← Nat.cast_add]
    exact ⟨by omega, by omega⟩
  · rw [roundBit]
    omega
  · have := hwhole hdir
    omega

theorem chunk_eq (h : Whole a s c x w direction) {q : ℤ} (hi : i < perElement s c x w * n)
    (hin : InChunk ⟨a, s, c, x, direction⟩ q
      (roundBit a s c x direction (c / s) (perElement s c x w) i).2) :
    q = (i % perElement s c x w / (c / s) : ℕ) := by
  have hincl : (0 : ℤ) < c := by exact_mod_cast h.step.trans_le h.size
  exact inChunk_unique hincl (Int.natCast_nonneg x) hin (h.roundBit_spec hi).1

/-- Different rounds read different bits. -/
theorem roundBit_injOn (h : Whole a s c x w direction) {i' : ℕ} (hi : i < perElement s c x w * n)
    (hi' : i' < perElement s c x w * n)
    (heq : roundBit a s c x direction (c / s) (perElement s c x w) i
      = roundBit a s c x direction (c / s) (perElement s c x w) i') : i = i' := by
  have hin := (h.roundBit_spec hi).1
  rw [heq] at hin
  have hq := h.chunk_eq hi' hin
  have helem := congrArg Prod.fst heq
  have hbit := congrArg Prod.snd heq
  simp only [roundBit] at helem hbit
  rw [hq] at hbit
  have hk := chunkBit_injective h.step (add_left_cancel hbit)
  have hmod : i % perElement s c x w = i' % perElement s c x w := by
    rw [← Nat.div_add_mod (i % perElement s c x w) (c / s), Int.ofNat.inj hq, hk, Nat.div_add_mod]
  rw [← Nat.div_add_mod i (perElement s c x w), Int.ofNat.inj helem, hmod, Nat.div_add_mod]

/-- From above, a later round reads a lower bit of the same chunk. -/
theorem roundBit_lt (h : Whole a s c x w (-1)) {i' : ℕ} {q : ℤ} (hi : i < perElement s c x w * n)
    (hi' : i' < perElement s c x w * n) (hlt : i < i')
    (helem : (roundBit a s c x (-1) (c / s) (perElement s c x w) i).1
      = (roundBit a s c x (-1) (c / s) (perElement s c x w) i').1)
    (hin : InChunk ⟨a, s, c, x, -1⟩ q (roundBit a s c x (-1) (c / s) (perElement s c x w) i).2)
    (hin' : InChunk ⟨a, s, c, x, -1⟩ q (roundBit a s c x (-1) (c / s) (perElement s c x w) i').2) :
    (roundBit a s c x (-1) (c / s) (perElement s c x w) i').2
      < (roundBit a s c x (-1) (c / s) (perElement s c x w) i).2 := by
  have hqq : i % perElement s c x w / (c / s) = i' % perElement s c x w / (c / s) := by
    exact_mod_cast (h.chunk_eq hi hin).symm.trans (h.chunk_eq hi' hin')
  have hk : i % perElement s c x w % (c / s) < i' % perElement s c x w % (c / s) := by
    have h1 := Nat.div_add_mod i (perElement s c x w)
    have h2 := Nat.div_add_mod i' (perElement s c x w)
    have h3 := Nat.div_add_mod (i % perElement s c x w) (c / s)
    have h4 := Nat.div_add_mod (i' % perElement s c x w) (c / s)
    rw [Int.ofNat.inj helem] at h1
    rw [hqq] at h3
    omega
  have hks := Nat.mul_lt_mul_of_pos_right hk h.step
  simp only [roundBit, hqq, chunkBit, if_pos]
  have : ((i % perElement s c x w % (c / s) : ℕ) : ℤ) * s
    < (i' % perElement s c x w % (c / s) : ℕ) * s := by exact_mod_cast hks
  omega

/-- From above, the first round of a chunk reads its most significant bit. -/
theorem top_mem (h : Whole a s c x w (-1)) (hi : i < perElement s c x w * n) :
    ∃ i₀ ≤ i, roundBit a s c x (-1) (c / s) (perElement s c x w) i₀
      = ((roundBit a s c x (-1) (c / s) (perElement s c x w) i).1,
          (a : ℤ) + (i % perElement s c x w / (c / s) : ℕ) * (c + x : ℕ) + c - 1) := by
  have h1 := Nat.div_add_mod i (perElement s c x w)
  have h3 := Nat.div_add_mod (i % perElement s c x w) (c / s)
  have hpos : 0 < perElement s c x w :=
    Nat.pos_of_ne_zero fun h0 => by rw [h0, Nat.zero_mul] at hi; exact Nat.not_lt_zero _ hi
  have hlt := Nat.mod_lt i hpos
  have hb : 0 < c / s := Nat.div_pos h.size h.step
  set total := perElement s c x w
  set q := i % total / (c / s) with hq
  have hqt : c / s * q < total := by omega
  refine ⟨total * (i / total) + c / s * q, by omega, ?_⟩
  rw [roundBit, roundBit, Nat.mul_add_div hpos, Nat.div_eq_of_lt hqt, Nat.add_zero, Nat.mul_add_mod,
    Nat.mod_eq_of_lt hqt, Nat.mul_div_cancel_left _ hb, Nat.mul_mod_right, chunkBit, if_pos rfl]
  refine Prod.ext rfl ?_
  simp only [Nat.cast_zero, zero_mul]
  omega

theorem pairwise_chosen (h : Whole a s c x w (-1)) (n : ℕ) (e q : ℤ) :
    (chosen ⟨a, s, c, x, -1⟩ (roundReads a s c x (-1) w n) e q).Pairwise (· > ·) := by
  rw [chosen, roundReads, List.pairwise_map, List.pairwise_filter, List.pairwise_map]
  refine List.pairwise_lt_range.imp_of_mem fun {i i'} hi hi' hlt hc hc' => ?_
  have hc := of_decide_eq_true hc
  have hc' := of_decide_eq_true hc'
  exact h.roundBit_lt (List.mem_range.mp hi) (List.mem_range.mp hi') hlt
    (hc.1.trans hc'.1.symm) hc.2 hc'.2

/-- From above, a chunk of which a bit is read has its most significant bit read. -/
theorem topBit_mem_chosen (h : Whole a s c x w (-1)) (hw : a + w = d.bits) {e q b : ℤ}
    (hb : b ∈ chosen ⟨a, s, c, x, -1⟩ (roundReads a s c x (-1) w n) e q) :
    topBit d ⟨a, s, c, x, -1⟩ q ∈ chosen ⟨a, s, c, x, -1⟩ (roundReads a s c x (-1) w n) e q
      ∧ b ≤ topBit d ⟨a, s, c, x, -1⟩ q := by
  obtain ⟨i, hi, helem, hin, hbit⟩ := mem_chosen_iff.mp hb
  obtain ⟨i₀, hle, htop⟩ := h.top_mem hi
  have hword := (h.roundBit_spec hi).2.2.1 rfl
  have hc : (1 : ℤ) ≤ c := by exact_mod_cast h.step.trans_le h.size
  rw [← h.chunk_eq hi hin, helem] at htop
  rw [← h.chunk_eq hi hin] at hword
  have htopBit : topBit d ⟨a, s, c, x, -1⟩ q = (a : ℤ) + q * (c + x : ℕ) + c - 1 := by
    simp only [topBit, ← Nat.cast_add]
    omega
  rw [htopBit]
  simp only [InChunk, ← Nat.cast_add] at hin
  refine ⟨mem_chosen_iff.mpr ⟨i₀, hle.trans_lt hi, congrArg Prod.fst htop, ?_,
    congrArg Prod.snd htop⟩, by omega⟩
  rw [htop]
  simp only [InChunk, ← Nat.cast_add]
  exact ⟨by omega, by omega⟩

/-- **The rounds read the documented bits.** -/
theorem documented (h : Whole a s c x w direction) (hw : a + w = d.bits) (n : ℕ) :
    Documented d ⟨a, s, c, x, direction⟩ (roundReads a s c x direction w n) where
  inWord r hr := by
    obtain ⟨i, hi, rfl⟩ := List.mem_map.mp hr
    obtain ⟨hin, hlt, -⟩ := h.roundBit_spec (List.mem_range.mp hi)
    have hq : (0 : ℤ) ≤ (i % perElement s c x w / (c / s) : ℕ) * ((c : ℤ) + x) := by positivity
    exact ⟨(le_add_of_nonneg_right hq).trans hin.1, by omega⟩
  included r hr := by
    obtain ⟨i, hi, rfl⟩ := List.mem_map.mp hr
    exact ⟨_, Int.natCast_nonneg _, (h.roundBit_spec (List.mem_range.mp hi)).1⟩
  nodup := List.nodup_range.map_on fun i hi i' hi' =>
    h.roundBit_injOn (List.mem_range.mp hi) (List.mem_range.mp hi')
  downwards := by
    rintro hdir e q
    change direction = -1 at hdir
    subst hdir
    refine ⟨h.pairwise_chosen n e q, fun b hb => ?_⟩
    obtain ⟨hmem, hle⟩ := h.topBit_mem_chosen hw (List.mem_of_mem_head? hb)
    exact head_eq_of_le (h.pairwise_chosen n e q) hb hmem hle

end Whole

end Rounds

/-! ## When the documented bits are read -/

/-- **`alternating_bit_compress` packs the documented bits exactly when its bounds are `int`s and,
from above, it takes nothing from a chunk that the word has only in part.** -/
theorem documented_alternatingReads_iff (x : Vec n d) {p : Pattern} (hstart : 0 ≤ p.start)
    (hbits : p.start < d.bits) (hstep : 1 ≤ p.step) (hincl : p.step ≤ p.includedSize)
    (hexcl : 0 ≤ p.excludedSize) (hdir : p.direction = 1 ∨ p.direction = -1) :
    (∃ reads, Packs x p reads ∧ Documented d p reads)
      ↔ (p.includedSize + p.excludedSize ≤ 2147483647 ∧ selectedBits d p * n ≤ 2147483647)
        ∧ (p.direction = -1 →
          n = 0 ∨ lastChunkSize d p < p.step ∨ p.includedSize ≤ lastChunkSize d p) := by
  simp only [packs_iff]
  obtain ⟨start, step, includedSize, excludedSize, direction⟩ := p
  simp only at hstart hbits hstep hincl hexcl hdir ⊢
  obtain ⟨a, rfl⟩ := Int.eq_ofNat_of_zero_le hstart
  obtain ⟨s, rfl⟩ := Int.eq_ofNat_of_zero_le (zero_le_one.trans hstep)
  obtain ⟨c, rfl⟩ := Int.eq_ofNat_of_zero_le (zero_le_one.trans (hstep.trans hincl))
  obtain ⟨x, rfl⟩ := Int.eq_ofNat_of_zero_le hexcl
  obtain ⟨w, hw⟩ : ∃ w, a + w = d.bits := ⟨d.bits - a, by omega⟩
  have hs : 0 < s := by omega
  have hsc : s ≤ c := by omega
  have hword : a + w ≤ 64 := by rw [hw]; cases d <;> decide
  have hsub : (d.bits : ℤ) - a = w := by omega
  have hlast : lastChunkSize d ⟨a, s, c, x, direction⟩ = (w % (c + x) : ℕ) := by
    simp only [lastChunkSize, hsub]
    norm_cast
  have hselected : selectedBits d ⟨a, s, c, x, direction⟩ = (perElement s c x w : ℕ) := by
    simp only [selectedBits, hlast, hsub, perElement]
    norm_cast
  rw [alternatingReads_natCast hw hs hsc, hlast, hselected]
  norm_cast
  by_cases hint : c + x ≤ 2147483647 ∧ perElement s c x w * n ≤ 2147483647
  swap
  · rw [if_neg hint]
    exact ⟨fun ⟨_, h, _⟩ => (nomatch h), fun h => absurd h.1 hint⟩
  rw [if_pos hint]
  constructor
  · rintro ⟨reads, hreads, hdoc⟩
    refine ⟨hint, fun hdown => ?_⟩
    by_contra hno
    obtain ⟨hn, hno⟩ := not_or.mp hno
    obtain ⟨hrest, hshort⟩ := not_or.mp hno
    obtain ⟨r, hr, hword'⟩ := exists_read_of_partial hs hsc (not_lt.mp hrest) (not_le.mp hshort)
      (Nat.pos_of_ne_zero hn) (hdown ▸ hreads)
    have := (hdoc.inWord r hr).2
    omega
  · rintro ⟨-, hwhole⟩
    rcases Nat.eq_zero_or_pos n with rfl | hn
    · exact ⟨[], rfl, documented_nil⟩
    · have h : Whole a s c x w direction :=
        ⟨hword, hs, hsc, hdir, fun hdown => (hwhole hdown).resolve_left hn.ne'⟩
      exact ⟨_, mapM_eq_some_map fun i hi => (h.roundBit_spec (List.mem_range.mp hi)).2.2.2,
        h.documented hw n⟩

/-- Every eighth bit of the low bytes of two halfwords, from above. -/
theorem documented_alternatingReads_bytes :
    ∃ reads, Packs (0 : Vec 4 .int32_t) ⟨0, 8, 8, 8, -1⟩ reads
      ∧ Documented .int32_t ⟨0, 8, 8, 8, -1⟩ reads :=
  (documented_alternatingReads_iff 0 (by decide) (by decide) (by decide) (by decide) (by decide)
    (Or.inr rfl)).mpr ⟨by decide, fun _ => Or.inr (Or.inl (by decide))⟩

/-- Chunks of three bits, three apart, from above: the second one has only bits `6` and `7`, and the
loop starts it at bit `8`. -/
theorem alternatingReads_behind_word :
    ¬ ∃ reads, Packs (0 : Vec 1 .int8_t) ⟨0, 1, 3, 3, -1⟩ reads
      ∧ Documented .int8_t ⟨0, 1, 3, 3, -1⟩ reads := by
  rintro ⟨reads, ⟨hreads, -⟩, hdoc⟩
  have hvalue : alternatingReads .int8_t 1 ⟨0, 1, 3, 3, -1⟩
      = some [(0, 2), (0, 1), (0, 0), (0, 8), (0, 7)] := by decide
  obtain rfl := Option.some.inj (hvalue.symm.trans hreads)
  exact absurd (hdoc.inWord (0, 8) (by decide)).2 (by decide)

end Tva.AlternatingBits
