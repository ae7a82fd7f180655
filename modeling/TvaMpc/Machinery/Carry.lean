import Mathlib.Data.BitVec

/-!
# Machinery/Carry — carries over segments of bits, and addition by parallel prefix

A segment of bit positions **generates** a carry when one comes out of it without one going in, and
**propagates** a carry when every position lets it through.  Adjacent segments compose
(`carry_add`, `propagates_add`), so the carries of all positions can be built by joining segments of
doubling length — `segment_double` is one such level — and the sum is read off at the end
(`getLsbD_add_eq`).
-/

namespace Machinery

variable {w : ℕ}

/-- The carry out of the `len` positions from `lo` on, none coming in. -/
def generates (x y : BitVec w) (lo : ℕ) : ℕ → Bool
  | 0 => false
  | len + 1 =>
      (x.getLsbD (lo + len) && y.getLsbD (lo + len)) ||
        ((x.getLsbD (lo + len) ^^ y.getLsbD (lo + len)) && generates x y lo len)

/-- Whether the `len` positions from `lo` on pass a carry on. -/
def propagates (x y : BitVec w) (lo : ℕ) : ℕ → Bool
  | 0 => true
  | len + 1 => (x.getLsbD (lo + len) ^^ y.getLsbD (lo + len)) && propagates x y lo len

/-- **A carry comes out of two adjacent segments** when the upper one generates it, or passes on the
one the lower generates. -/
theorem generates_add (x y : BitVec w) (lo m n : ℕ) : generates x y lo (m + n)
    = (generates x y (lo + m) n || (propagates x y (lo + m) n && generates x y lo m)) := by
  induction n with
  | zero => simp [generates, propagates]
  | succ n ih =>
    rw [← Nat.add_assoc, generates, generates, propagates, ih, ← Nat.add_assoc]
    rw [Bool.and_or_distrib_left, Bool.or_assoc, Bool.and_assoc]

theorem propagates_add (x y : BitVec w) (lo m n : ℕ) : propagates x y lo (m + n)
    = (propagates x y (lo + m) n && propagates x y lo m) := by
  induction n with
  | zero => simp [propagates]
  | succ n ih => rw [← Nat.add_assoc, propagates, propagates, ih, ← Nat.add_assoc, Bool.and_assoc]

theorem generates_one (x y : BitVec w) (b : ℕ) :
    generates x y b 1 = (x.getLsbD b && y.getLsbD b) := by
  simp [generates]

theorem propagates_one (x y : BitVec w) (b : ℕ) :
    propagates x y b 1 = (x.getLsbD b ^^ y.getLsbD b) := by
  simp [propagates]

/-- The segment from the bottom generates the ripple carry. -/
theorem generates_zero (x y : BitVec w) (b : ℕ) :
    generates x y 0 b = BitVec.carry b x y false := by
  induction b with
  | zero => simp [generates]
  | succ b ih =>
    rw [generates, BitVec.carry_succ, Nat.zero_add, ih]
    cases x.getLsbD b <;> cases y.getLsbD b <;> cases BitVec.carry b x y false <;> rfl

/-- **The sum from the propagate bits and the carries of the segments from the bottom.** -/
theorem getLsbD_add_eq {b : ℕ} (hb : b < w) (x y : BitVec w) :
    (x + y).getLsbD b = ((x.getLsbD b ^^ y.getLsbD b) ^^ generates x y 0 b) := by
  rw [BitVec.getLsbD_add hb, generates_zero, Bool.xor_assoc]

/-! ## Blocks of doubling length

At span `s` the positions are cut into blocks of `s`; position `b` looks at its block up to and
including itself. -/

/-- The start of the block of `b`. -/
def blockStart (s b : ℕ) : ℕ := b - b % s

/-- Where the block below that of `b` ends. -/
def lowerEnd (s b : ℕ) : ℕ := b - b % s - 1

/-- In a lower half the bigger block starts where the smaller one does. -/
theorem block_lower {s b : ℕ} (hb : b / s % 2 = 0) :
    blockStart (2 * s) b = blockStart s b ∧ b % (2 * s) = b % s := by
  have hm : b % (2 * s) = b % s := by rw [Nat.mul_comm, Nat.mod_mul, hb, Nat.mul_zero, Nat.add_zero]
  exact ⟨by rw [blockStart, blockStart, hm], hm⟩

/-- In an upper half it starts one small block earlier. -/
theorem block_upper {s b : ℕ} (hb : b / s % 2 = 1) :
    blockStart s b = blockStart (2 * s) b + s ∧ b % (2 * s) = s + b % s := by
  have hm : b % (2 * s) = s + b % s := by
    rw [Nat.mul_comm, Nat.mod_mul, hb, Nat.mul_one, Nat.add_comm]
  have hle : b % (2 * s) ≤ b := Nat.mod_le b _
  refine ⟨?_, hm⟩
  rw [blockStart, blockStart]
  omega

/-- The lower half ends on the last position of the small block before. -/
theorem lowerEnd_upper {s b : ℕ} (hs : 0 < s) (hb : b / s % 2 = 1) :
    blockStart s (lowerEnd s b) = blockStart (2 * s) b ∧ lowerEnd s b % s = s - 1 ∧
      lowerEnd s b ≤ b := by
  have hpos : 0 < b / s := by
    by_contra h0
    rw [Nat.eq_zero_of_not_pos h0] at hb
    cases hb
  obtain ⟨k, hk⟩ : ∃ k, b / s = k + 1 := ⟨b / s - 1, by omega⟩
  have hstart : b - b % s = s * k + s := by
    have h := Nat.div_add_mod b s
    rw [hk, Nat.mul_succ] at h
    omega
  have hend : lowerEnd s b = s * k + (s - 1) := by rw [lowerEnd, hstart]; omega
  have hm : lowerEnd s b % s = s - 1 := by
    rw [hend, Nat.mul_add_mod, Nat.mod_eq_of_lt (by omega)]
  refine ⟨?_, hm, by rw [lowerEnd]; omega⟩
  have h := (block_upper hb).1
  rw [blockStart, hm, hend]
  rw [blockStart, hstart] at h
  omega

/-- What the segments of `x + y` do, with the positions cut into blocks of `s`: the two words `g`
and `p` carry it, one bit a position. -/
structure Segments (x y g p : BitVec w) (s : ℕ) : Prop where
  generates : ∀ b < w, g.getLsbD b = generates x y (blockStart s b) (b % s + 1)
  propagates : ∀ b < w, p.getLsbD b = propagates x y (blockStart s b) (b % s + 1)

theorem Segments.one (x y : BitVec w) : Segments x y (x &&& y) (x ^^^ y) 1 where
  generates b _ := by simp [blockStart, Nat.mod_one, generates_one]
  propagates b _ := by simp [blockStart, Nat.mod_one, propagates_one]

/-- **Joining blocks**: each position of an upper half takes in the whole lower half next to it, the
positions of the lower halves stay. -/
theorem Segments.double {x y g p g' p' : BitVec w} {s : ℕ} (h : Segments x y g p s) (hs : 0 < s)
    (hlow : ∀ b < w, b / s % 2 = 0 → g'.getLsbD b = g.getLsbD b ∧ p'.getLsbD b = p.getLsbD b)
    (hup : ∀ b < w, b / s % 2 = 1 →
      g'.getLsbD b = (g.getLsbD b || (p.getLsbD b && g.getLsbD (lowerEnd s b))) ∧
        p'.getLsbD b = (p.getLsbD b && p.getLsbD (lowerEnd s b))) :
    Segments x y g' p' (2 * s) := by
  constructor
  · intro b hb
    rcases Nat.mod_two_eq_zero_or_one (b / s) with hpar | hpar
    · obtain ⟨h₁, h₂⟩ := block_lower hpar
      rw [(hlow b hb hpar).1, h.generates b hb, h₁, h₂]
    · obtain ⟨h₁, h₂⟩ := block_upper hpar
      obtain ⟨he₁, he₂, he₃⟩ := lowerEnd_upper hs hpar
      rw [(hup b hb hpar).1, h.generates b hb, h.propagates b hb,
        h.generates _ (lt_of_le_of_lt he₃ hb), he₁, he₂, h₂, Nat.add_assoc, h₁,
        Nat.sub_add_cancel hs, ← generates_add]
  · intro b hb
    rcases Nat.mod_two_eq_zero_or_one (b / s) with hpar | hpar
    · obtain ⟨h₁, h₂⟩ := block_lower hpar
      rw [(hlow b hb hpar).2, h.propagates b hb, h₁, h₂]
    · obtain ⟨h₁, h₂⟩ := block_upper hpar
      obtain ⟨he₁, he₂, he₃⟩ := lowerEnd_upper hs hpar
      rw [(hup b hb hpar).2, h.propagates b hb, h.propagates _ (lt_of_le_of_lt he₃ hb), he₁, he₂,
        h₂, Nat.add_assoc, h₁, Nat.sub_add_cancel hs, ← propagates_add]

/-- **The sum**: once one block covers the word, the generate bits are the carries. -/
theorem Segments.sum {x y g p : BitVec w} (h : Segments x y g p w) :
    (x ^^^ y) ^^^ (g <<< 1) = x + y := by
  refine BitVec.eq_of_getLsbD_eq fun b hb => ?_
  rw [getLsbD_add_eq hb, BitVec.getLsbD_xor, BitVec.getLsbD_xor, BitVec.getLsbD_shiftLeft]
  cases b with
  | zero => simp [Machinery.generates]
  | succ b =>
    have hb' : b < w := by omega
    rw [Nat.add_sub_cancel, h.generates b hb', blockStart, Nat.mod_eq_of_lt hb', Nat.sub_self]
    simp [hb]

end Machinery
