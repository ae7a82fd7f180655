import TvaMpc.Machinery.Bitonic
import TvaMpc.Operators.RowComparison

/-!
# Operators/SortingCorrect — the bitonic sort sorts whole rows

The two views of a column within a round pair all places of the table (`pairs`).  So a column of a
round exchanges rows, the same ones in all columns of the table (`ensures_bitonicColumn`), and on
the key rows it is a stage of a bitonic merge.  After the last round the key rows are sorted
(`ensures_bitonicSort`).
-/

namespace Tva.Operators

open Machinery

variable {N ρ n m c h least : ℕ} {d : DataType} {G : Type}

/-! ## The pairs of a stage -/

/-- The place of a row of the left view, and of the right one. -/
def pairPlace (h : ℕ) (reversed : Bool) : Fin (c * h) ⊕ Fin (c * h) → ℕ
  | .inl k => k / h * (2 * h) + k % h
  | .inr k => k / h * (2 * h) + if reversed then 2 * h - 1 - k % h else h + k % h

theorem pos_of_fin (k : Fin (c * h)) : 0 < h :=
  Nat.pos_of_ne_zero fun h0 => by
    subst h0
    exact absurd k.isLt (by simp)

theorem pairPlace_div_mod (h : ℕ) (reversed : Bool) (k : Fin (c * h)) :
    (k : ℕ) / h < c ∧ (k : ℕ) % h < h ∧
      (if reversed then 2 * h - 1 - (k : ℕ) % h else h + (k : ℕ) % h) < 2 * h ∧
      h ≤ if reversed then 2 * h - 1 - (k : ℕ) % h else h + (k : ℕ) % h := by
  have hh := pos_of_fin k
  have hmod := Nat.mod_lt (k : ℕ) hh
  refine ⟨(Nat.div_lt_iff_lt_mul hh).mpr k.isLt, hmod, ?_, ?_⟩
  all_goals split <;> omega

theorem pairPlace_lt (h : ℕ) (reversed : Bool) (k : Fin (c * h) ⊕ Fin (c * h)) :
    pairPlace h reversed k < c * (2 * h) := by
  have hlt : ∀ q < c, ∀ r < 2 * h, q * (2 * h) + r < c * (2 * h) := fun q hq r hr => by
    have := Nat.mul_le_mul_right (2 * h) (Nat.succ_le_of_lt hq)
    rw [Nat.succ_mul] at this
    omega
  rcases k with k | k
  · obtain ⟨hq, hr, -, -⟩ := pairPlace_div_mod h reversed k
    exact hlt _ hq _ (by omega)
  · obtain ⟨hq, -, hr, -⟩ := pairPlace_div_mod h reversed k
    exact hlt _ hq _ hr

theorem pairPlace_injective (h : ℕ) (reversed : Bool) :
    Function.Injective (pairPlace (c := c) h reversed) := by
  have hsplit : ∀ {q q' r r' : ℕ}, r < 2 * h → r' < 2 * h →
      q * (2 * h) + r = q' * (2 * h) + r' → q = q' ∧ r = r' := fun {q q' r r'} hr hr' he => by
    have hq := congrArg (· / (2 * h)) he
    simp only [mul_add_div_eq hr, mul_add_div_eq hr'] at hq
    subst hq
    exact ⟨rfl, by omega⟩
  have hsame : ∀ k k' : Fin (c * h), (k : ℕ) / h = k' / h → (k : ℕ) % h = k' % h → k = k' :=
    fun k k' hq hr => Fin.ext (by rw [← Nat.div_add_mod' (k : ℕ) h, hq, hr, Nat.div_add_mod'])
  rintro (k | k) (k' | k') he
  all_goals
    obtain ⟨-, hr, hl, hge⟩ := pairPlace_div_mod h reversed k
    obtain ⟨-, hr', hl', hge'⟩ := pairPlace_div_mod h reversed k'
    simp only [pairPlace] at he
    obtain ⟨hq, hmod⟩ := hsplit (by omega) (by omega) he
  · exact congrArg _ (hsame k k' hq hmod)
  · omega
  · omega
  · refine congrArg _ (hsame k k' hq ?_)
    cases reversed with
    | false => simp only [Bool.false_eq_true, if_false] at hmod; omega
    | true => simp only [if_true] at hmod; omega

/-- **The left and the right rows of a stage are all rows.** -/
noncomputable def pairs (c h : ℕ) (reversed : Bool) :
    Fin (c * h) ⊕ Fin (c * h) ≃ Fin (c * (2 * h)) :=
  Equiv.ofBijective (fun k => ⟨pairPlace h reversed k, pairPlace_lt h reversed k⟩) <| by
    rw [Fintype.bijective_iff_injective_and_card]
    refine ⟨fun k k' he => pairPlace_injective h reversed (Fin.mk.inj_iff.mp he), ?_⟩
    simp only [Fintype.card_sum, Fintype.card_fin]
    ring

theorem pairs_val (reversed : Bool) (k : Fin (c * h) ⊕ Fin (c * h)) :
    (pairs c h reversed k : ℕ) = pairPlace h reversed k := rfl

/-- The left view. -/
theorem shows_leftRows (hh : 0 < h) (reversed : Bool) :
    (leftRows (c * (2 * h)) h).Shows fun k : Fin (c * h) => pairs c h reversed (.inl k) := by
  have hneg : (h : ℤ) ≠ -1 := by omega
  have hview : leftRows (c * (2 * h)) h = .alternating (.vectorData (c * (2 * h))) h h := by
    rw [leftRows, VectorData.alternatingSubsetReference, if_pos hneg]
  have hsum : (h : ℤ) + h = (2 * h : ℕ) := by push_cast; ring
  rw [hview]
  refine ⟨?_, fun k => ?_⟩
  · rw [VectorData.size, VectorData.size, hsum, ← Int.ofNat_tdiv, ← Int.ofNat_tmod,
      Nat.mul_div_cancel _ (by omega), Nat.mul_mod_left]
    push_cast
    omega
  · rw [VectorData.index, VectorData.index, hsum, ← Int.ofNat_tdiv, ← Int.ofNat_tmod, pairs_val,
      pairPlace]
    push_cast
    rfl

/-- The right view, of a table that is not empty. -/
theorem shows_rightRows (hh : 0 < h) (hc : 0 < c) (reversed : Bool) :
    (rightRows (c * (2 * h)) h (if reversed then -1 else 1)).Shows
      fun k : Fin (c * h) => pairs c h reversed (.inr k) := by
  have hn : 2 * h ≤ c * (2 * h) := Nat.le_mul_of_pos_left _ hc
  have hmax : max (0 : ℤ) ((c * (2 * h) : ℕ) - 1) = (c * (2 * h) - 1 : ℕ) := by omega
  have hneg : (h : ℤ) ≠ -1 := by omega
  obtain ⟨c, rfl⟩ : ∃ c', c = c' + 1 := ⟨c - 1, by omega⟩
  have hrest : (VectorData.simple (.vectorData ((c + 1) * (2 * h))) h
      (((c + 1) * (2 * h) - 1 : ℕ)) 1).size = (c * (2 * h) + h : ℕ) := by
    rw [VectorData.size, VectorData.size, Int.tdiv_one, Nat.succ_mul]
    omega
  have hsum : (h : ℤ) + h = (2 * h : ℕ) := by push_cast; ring
  have hsize : ((c * (2 * h) + h : ℕ) : ℤ).tdiv (2 * h : ℕ) * h
      + min (h : ℤ) (((c * (2 * h) + h : ℕ) : ℤ).tmod (2 * h : ℕ)) = ((c + 1) * h : ℕ) := by
    have hdiv : (c * (2 * h) + h) / (2 * h) = c := mul_add_div_eq (by omega)
    have hmod : (c * (2 * h) + h) % (2 * h) = h := by
      rw [Nat.mul_comm, Nat.mul_add_mod, Nat.mod_eq_of_lt (by omega)]
    rw [← Int.ofNat_tdiv, ← Int.ofNat_tmod, hdiv, hmod, min_self]
    push_cast
    ring
  cases reversed with
  | false =>
    have hview : rightRows ((c + 1) * (2 * h)) h (if false then -1 else 1)
        = .alternating (.simple (.vectorData ((c + 1) * (2 * h))) h
          ((((c + 1) * (2 * h) - 1 : ℕ))) 1) h h := by
      rw [← hmax, rightRows, if_neg (by decide), VectorData.alternatingSubsetReference, if_pos hneg]
      rfl
    rw [hview]
    refine ⟨?_, fun k => ?_⟩
    · rw [VectorData.size, hrest, hsum, hsize]
    · rw [VectorData.index, VectorData.index, VectorData.index, hsum, ← Int.ofNat_tdiv,
        ← Int.ofNat_tmod, pairs_val, pairPlace, if_neg Bool.false_ne_true]
      push_cast
      ring
  | true =>
    have hview : rightRows ((c + 1) * (2 * h)) h (if true then -1 else 1)
        = .reversedAlternating (.simple (.vectorData ((c + 1) * (2 * h))) h
          ((((c + 1) * (2 * h) - 1 : ℕ))) 1) h h := by
      rw [← hmax, rightRows, if_pos (by decide), VectorData.reversedAlternatingSubsetReference,
        if_pos hneg]
      rfl
    rw [hview]
    refine ⟨?_, fun k => ?_⟩
    · rw [VectorData.size, hrest, hsum, hsize]
    · obtain ⟨hq, hr, -, -⟩ := pairPlace_div_mod h true k
      have hle := Nat.mul_le_mul_right (2 * h) (Nat.lt_succ_iff.mp hq)
      rw [VectorData.index, VectorData.index, VectorData.index, hrest, hsum]
      simp only [← Int.ofNat_tdiv, ← Int.ofNat_tmod]
      rw [pairs_val, pairPlace, if_pos rfl]
      generalize hqe : (k : ℕ) / h = q at *
      generalize (k : ℕ) % h = r at *
      have hcast : (q : ℤ) * ((2 * h : ℕ) : ℤ) = ((q * (2 * h) : ℕ) : ℤ) := by push_cast; ring
      rw [hcast]
      generalize q * (2 * h) = a at *
      generalize c * (2 * h) = b at *
      omega

/-! ## Swapping rows -/

section Swap

variable [NeZero ρ] {layout : Fin N → Fin ρ → Fin N} {P : Fin N → Protocol N ρ d G}
variable {dataParty : Fin N → Prop} {Good : (Fin N → G) → Prop} {mode : SendMode}
variable {g : Fin N → G} {Live : Column → Prop} {M : Fin N → Memory ρ n d} {V : Column → Vec n d}
variable {e : Fin m ⊕ Fin m ≃ Fin n} {s : Fin m → Bool} {vx vy : VectorData}

/-- The columns of a table with their rows in another order. -/
def reorder (cols : List Column) (σ : Equiv.Perm (Fin n)) (V : Column → Vec n d) :
    Column → Vec n d :=
  fun c => if c ∈ cols then fun j => V c (σ j) else V c

theorem reorder_nil (σ : Equiv.Perm (Fin n)) (V : Column → Vec n d) : reorder [] σ V = V :=
  funext fun _ => if_neg List.not_mem_nil

/-- Writing both sides of the pairs. -/
theorem shares_pairs (hM : Memory.Shares layout Live M V) {col : Column} (hc : Live col)
    (hx : vx.Shows fun k => e (.inl k)) (hy : vy.Shows fun k => e (.inr k))
    {zx zy : Fin N → EVector ρ m d} {a b : Vec m d} (hzx : SharesC layout col zx a)
    (hzy : SharesC layout col zy b) :
    Memory.Shares layout Live (fun i => ((M i).write ⟨col, vy⟩ (zy i)).write ⟨col, vx⟩ (zx i))
      (Function.update V col fun j => Sum.elim a b (e.symm j)) := by
  have hinl : Function.Injective fun k : Fin m => e (.inl k) :=
    e.injective.comp Sum.inl_injective
  have hinr : Function.Injective fun k : Fin m => e (.inr k) :=
    e.injective.comp Sum.inr_injective
  -- after the first assignment the right sides are new, the left ones old
  let half : Vec n d := fun j => Sum.elim (fun k => V col (e (.inl k))) b (e.symm j)
  have hhalf : Memory.Shares layout Live (fun i => (M i).write ⟨col, vy⟩ (zy i))
      (Function.update V col half) := by
    refine hM.write hc hy hinr hzy (fun k => ?_) fun j hj => ?_
    · simp only [half, Equiv.symm_apply_apply, Sum.elim_inr]
    · obtain ⟨k | k, rfl⟩ := e.surjective j
      · simp only [half, Equiv.symm_apply_apply, Sum.elim_inl]
      · exact absurd rfl (hj k)
  have hboth : Memory.Shares layout Live
      (fun i => ((M i).write ⟨col, vy⟩ (zy i)).write ⟨col, vx⟩ (zx i))
      (Function.update (Function.update V col half) col fun j => Sum.elim a b (e.symm j)) := by
    refine hhalf.write hc hx hinl hzx (fun k => ?_) fun j hj => ?_
    · simp only [Equiv.symm_apply_apply, Sum.elim_inl]
    · obtain ⟨k | k, rfl⟩ := e.surjective j
      · exact absurd rfl (hj k)
      · simp only [Function.update_self, half, Equiv.symm_apply_apply, Sum.elim_inr]
  rwa [Function.update_idem] at hboth

/-- The sides of the exchanged pairs. -/
theorem elim_exchange (v : Vec n d) (j : Fin n) :
    Sum.elim (fun k => if s k then v (e (.inr k)) else v (e (.inl k)))
      (fun k => if s k then v (e (.inl k)) else v (e (.inr k))) (e.symm j) =
        v (exchange e s j) := by
  obtain ⟨k | k, rfl⟩ := e.surjective j
  · rw [Equiv.symm_apply_apply, Sum.elim_inl, exchange_left]
    split <;> rfl
  · rw [Equiv.symm_apply_apply, Sum.elim_inr, exchange_right]
    split <;> rfl

/-- A column after its swap with the mask `b` in the place of an extended bit. -/
def blend (e : Fin m ⊕ Fin m ≃ Fin n) (b : Vec m d) (v : Vec n d) : Vec n d := fun j =>
  Sum.elim (fun k => (~~~b k &&& v (e (.inl k))) ^^^ (b k &&& v (e (.inr k))))
    (fun k => (~~~b k &&& v (e (.inr k))) ^^^ (b k &&& v (e (.inl k)))) (e.symm j)

theorem blend_extended (v : Vec n d) :
    blend e (fun k => if s k then BitVec.allOnes d.bits else 0) v = fun j =>
      v (exchange e s j) := by
  funext j
  refine Eq.trans (congrFun (congrArg₂ Sum.elim ?_ ?_) _) (elim_exchange (s := s) v j)
  · exact choose_extended s (fun k => v (e (.inl k))) fun k => v (e (.inr k))
  · exact choose_extended s (fun k => v (e (.inr k))) fun k => v (e (.inl k))

theorem ensures_swapColumnB (hP : Protocol.Correct P layout least dataParty Good mode) (hg : Good g)
    (hM : Memory.Shares layout Live M V) {col : ℕ} (hc : Live (.b col))
    (hx : vx.Shows fun k => e (.inl k)) (hy : vy.Shows fun k => e (.inr k))
    {z : Fin N → EVector ρ m d} {b : Vec m d} (hb : SharesB layout z b)
    (hn : least ≤ m) :
    Ensures mode (fun i => swapColumnB (P i) (z i) ⟨.b col, vx⟩ ⟨.b col, vy⟩ (M i)) g fun M' g' _ =>
      Memory.Shares layout Live M' (Function.update V (.b col) (blend e b (V (.b col)))) ∧
        Good g' := by
  have hxv : SharesB layout (fun i => (M i).read m ⟨.b col, vx⟩) fun k => V (.b col) (e (.inl k)) :=
    hM.read hc hx
  have hyv : SharesB layout (fun i => (M i).read m ⟨.b col, vy⟩) fun k => V (.b col) (e (.inr k)) :=
    hM.read hc hy
  have hflip : ∀ u v : Vec m d, u ^^^ v = v ^^^ u := fun u v => funext fun j => BitVec.xor_comm _ _
  refine (hP.andB hg hb hyv hn).bind fun l g₁ _ hl => ?_
  refine (hP.andB hl.2 (hP.notB hb) hxv hn).bind fun r g₂ _ hr => ?_
  refine (hP.andB hr.2 hb hxv hn).bind fun l' g₃ _ hl' => ?_
  refine (hP.andB hl'.2 (hP.notB hb) hyv hn).bind fun r' g₄ _ hr' => ?_
  simp only [hP.xorB]
  have hleft := hl.1.xor hr.1
  have hright := hl'.1.xor hr'.1
  rw [hflip] at hleft hright
  exact Ensures.pure ⟨shares_pairs hM hc hx hy hleft hright, hr'.2⟩

theorem ensures_swapColumnA (hP : Protocol.Correct P layout least dataParty Good mode) (hg : Good g)
    (hM : Memory.Shares layout Live M V) {col : ℕ} (hc : Live (.a col))
    (hx : vx.Shows fun k => e (.inl k)) (hy : vy.Shows fun k => e (.inr k))
    {b : Fin N → EVector ρ m d} (hb : SharesA layout b (bits d s)) (hn : least ≤ m) :
    Ensures mode (fun i => swapColumnA (P i) (b i) ⟨.a col, vx⟩ ⟨.a col, vy⟩ (M i)) g fun M' g' _ =>
      Memory.Shares layout Live M'
        (Function.update V (.a col) fun j => V (.a col) (exchange e s j)) ∧ Good g' := by
  have hxv : SharesA layout (fun i => (M i).read m ⟨.a col, vx⟩) fun k => V (.a col) (e (.inl k)) :=
    hM.read hc hx
  have hyv : SharesA layout (fun i => (M i).read m ⟨.a col, vy⟩) fun k => V (.a col) (e (.inr k)) :=
    hM.read hc hy
  refine (ensures_multiplexA hP hg hb hxv hyv hn).bind fun z g₁ _ hz => ?_
  refine (ensures_multiplexA hP hz.2 hb hyv hxv hn).bind fun z' g₂ _ hz' => ?_
  have hpairs := shares_pairs hM hc hx hy hz.1 hz'.1
  simp only [elim_exchange] at hpairs
  exact Ensures.pure ⟨hpairs, hz'.2⟩

/-- **The swap of boolean columns**, whatever the extended components share. -/
theorem ensures_swapB_blend (hP : Protocol.Correct P layout least dataParty Good mode) (hg : Good g)
    (hM : Memory.Shares layout Live M V) {cols : List ℕ} (hnodup : cols.Nodup)
    (hlive : ∀ c ∈ cols, Live (.b c))
    (hx : vx.Shows fun k => e (.inl k)) (hy : vy.Shows fun k => e (.inr k))
    {z : Fin N → EVector ρ m d} {b : Vec m d}
    (hz : SharesB layout (fun i k => extendLsb (z i k)) b) (hn : least ≤ m) :
    Ensures mode (fun i => swapB (P i) (cols.map fun c => ⟨.b c, vx⟩)
        (cols.map fun c => ⟨.b c, vy⟩) (z i) (M i)) g fun M' g' _ =>
      Memory.Shares layout Live M'
        (fun c => if c ∈ cols.map .b then blend e b (V c) else V c) ∧ Good g' := by
  have hcols : (cols.map Column.b).Nodup := hnodup.map fun _ _ h => Column.b.inj h
  have hfold : ∀ i, swapB (P i) (cols.map fun c => ⟨.b c, vx⟩) (cols.map fun c => ⟨.b c, vy⟩)
      (z i) (M i) = (cols.map Column.b).foldlM (fun M c =>
        swapColumnB (P i) (fun k => extendLsb (z i k)) ⟨c, vx⟩ ⟨c, vy⟩ M) (M i) := by
    intro i
    rw [swapB, List.zip_map', List.foldlM_map, List.foldlM_map]
  simp only [hfold]
  refine ensures_columns hcols (φ := blend e b) (fun c hc M V g hM hg => ?_) hM hg
  obtain ⟨c, hmem, rfl⟩ := List.mem_map.mp hc
  exact ensures_swapColumnB hP hg hM (hlive c hmem) hx hy hz hn

theorem ensures_swapB (hP : Protocol.Correct P layout least dataParty Good mode) (hg : Good g)
    (hM : Memory.Shares layout Live M V) {cols : List ℕ} (hnodup : cols.Nodup)
    (hlive : ∀ c ∈ cols, Live (.b c))
    (hx : vx.Shows fun k => e (.inl k)) (hy : vy.Shows fun k => e (.inr k))
    {z : Fin N → EVector ρ m d} (hz : SharesBit layout z s) (hn : least ≤ m) :
    Ensures mode (fun i => swapB (P i) (cols.map fun c => ⟨.b c, vx⟩)
        (cols.map fun c => ⟨.b c, vy⟩) (z i) (M i)) g fun M' g' _ =>
      Memory.Shares layout Live M' (reorder (cols.map .b) (exchange e s) V) ∧ Good g' := by
  have hswap := ensures_swapB_blend hP hg hM hnodup hlive hx hy hz.extendLsb hn
  simp only [blend_extended] at hswap
  exact hswap

theorem ensures_swapA (hP : Protocol.Correct P layout least dataParty Good mode) (hg : Good g)
    (hM : Memory.Shares layout Live M V) {cols : List ℕ} (hnodup : cols.Nodup)
    (hlive : ∀ c ∈ cols, Live (.a c))
    (hx : vx.Shows fun k => e (.inl k)) (hy : vy.Shows fun k => e (.inr k))
    {z : Fin N → EVector ρ m d} (hz : SharesA layout z (bits d s)) (hn : least ≤ m) :
    Ensures mode (fun i => swapA (P i) (cols.map fun c => ⟨.a c, vx⟩)
        (cols.map fun c => ⟨.a c, vy⟩) (z i) (M i)) g fun M' g' _ =>
      Memory.Shares layout Live M' (reorder (cols.map .a) (exchange e s) V) ∧ Good g' := by
  have hcols : (cols.map Column.a).Nodup := hnodup.map fun _ _ h => Column.a.inj h
  have hfold : ∀ i, swapA (P i) (cols.map fun c => ⟨.a c, vx⟩) (cols.map fun c => ⟨.a c, vy⟩)
      (z i) (M i) = (cols.map Column.a).foldlM (fun M c =>
        swapColumnA (P i) (z i) ⟨c, vx⟩ ⟨c, vy⟩ M) (M i) := by
    intro i
    rw [swapA, List.zip_map', List.foldlM_map, List.foldlM_map]
  simp only [hfold]
  refine ensures_columns hcols (φ := fun v j => v (exchange e s j)) (fun c hc M V g hM hg => ?_)
    hM hg
  obtain ⟨c, hmem, rfl⟩ := List.mem_map.mp hc
  exact ensures_swapColumnA hP hg hM (hlive c hmem) hx hy hz hn

theorem ensures_swapDataB (hP : Protocol.Correct P layout least dataParty Good mode) (hg : Good g)
    (hM : Memory.Shares layout Live M V) {dataB : List ℕ} (hnodup : dataB.Nodup)
    (hlive : ∀ c ∈ dataB, Live (.b c))
    (hx : vx.Shows fun k => e (.inl k)) (hy : vy.Shows fun k => e (.inr k))
    {z : Fin N → EVector ρ m d} (hz : SharesBit layout z s) (hn : least ≤ m) :
    Ensures mode (fun i => swapDataB (P i) vx vy dataB (z i) (M i)) g fun M' g' _ =>
      Memory.Shares layout Live M' (reorder (dataB.map .b) (exchange e s) V) ∧ Good g' := by
  by_cases hlen : dataB.length > 0
  · simp only [swapDataB, if_pos hlen]
    exact ensures_swapB hP hg hM hnodup hlive hx hy hz hn
  · obtain rfl := List.eq_nil_of_length_eq_zero (Nat.eq_zero_of_not_pos hlen)
    exact Ensures.pure ⟨by rw [List.map_nil, reorder_nil]; exact hM, hg⟩

theorem ensures_swapDataA (hP : Protocol.Correct P layout least dataParty Good mode) (hg : Good g)
    (hM : Memory.Shares layout Live M V) {dataA : List ℕ} (hnodup : dataA.Nodup)
    (hlive : ∀ c ∈ dataA, Live (.a c))
    (hx : vx.Shows fun k => e (.inl k)) (hy : vy.Shows fun k => e (.inr k))
    {z : Fin N → EVector ρ m d} (hz : SharesBit layout z s) (hn : least ≤ m) :
    Ensures mode (fun i => swapDataA (P i) vx vy dataA (z i) (M i)) g fun M' g' _ =>
      Memory.Shares layout Live M' (reorder (dataA.map .a) (exchange e s) V) ∧ Good g' := by
  by_cases hlen : dataA.length > 0
  · simp only [swapDataA, if_pos hlen]
    refine (hP.b2aBit hg hz.shares).bind fun a g₁ _ ha => ?_
    rw [lowBit_bits] at ha
    exact (ensures_swapA hP ha.2 hM hnodup hlive hx hy ha.1 hn).mono fun _ _ _ => id
  · obtain rfl := List.eq_nil_of_length_eq_zero (Nat.eq_zero_of_not_pos hlen)
    exact Ensures.pure ⟨by rw [List.map_nil, reorder_nil]; exact hM, hg⟩

end Swap

/-! ## Sequences of rows -/

section Rows

variable {f : Fin (c * (2 * h)) → List ℤ}

/-- The rows of a table by their numbers. -/
def rows (f : Fin n → List ℤ) (p : ℕ) : List ℤ := if hp : p < n then f ⟨p, hp⟩ else []

theorem rows_apply {f : Fin n → List ℤ} (j : Fin n) : rows f j = f j := dif_pos j.isLt

/-- The pair number `q h + r`. -/
theorem exists_pair {q r : ℕ} (hq : q * (2 * h) + 2 * h ≤ c * (2 * h)) (hr : r < h)
    (reversed : Bool) : ∃ k : Fin (c * h), (pairs c h reversed (.inl k) : ℕ) = q * (2 * h) + r ∧
      (pairs c h reversed (.inr k) : ℕ)
        = q * (2 * h) + if reversed then 2 * h - 1 - r else h + r := by
  have hqc : q < c := by
    by_contra hge
    have := Nat.mul_le_mul_right (2 * h) (not_lt.mp hge)
    omega
  have hk : q * h + r < c * h := by
    have := Nat.mul_le_mul_right h (Nat.succ_le_of_lt hqc)
    rw [Nat.succ_mul] at this
    omega
  have hmod : (q * h + r) % h = r := by
    rw [Nat.mul_comm, Nat.mul_add_mod, Nat.mod_eq_of_lt hr]
  refine ⟨⟨q * h + r, hk⟩, ?_, ?_⟩
  · rw [pairs_val, pairPlace, mul_add_div_eq hr, hmod]
  · rw [pairs_val, pairPlace, mul_add_div_eq hr, hmod]

/-- **Exchanging mirrored rows is the first stage of a merge.** -/
theorem flips_exchange {s : Fin (c * h) → Bool}
    (hs : ∀ k, s k = true ↔ f (pairs c h true (.inr k)) < f (pairs c h true (.inl k))) :
    Flips (c * (2 * h)) h (rows f) (rows fun j => f (exchange (pairs c h true) s j)) := by
  intro q r hq hr
  obtain ⟨k, hl, hr'⟩ := exists_pair hq hr true
  rw [if_pos rfl] at hr'
  rw [← hl, ← hr', rows_apply, rows_apply, rows_apply, rows_apply]
  exact ⟨exchange_min hs k, exchange_max hs k⟩

/-- **Exchanging rows at a distance is a later stage.** -/
theorem cleans_exchange {s : Fin (c * h) → Bool}
    (hs : ∀ k, s k = true ↔ f (pairs c h false (.inr k)) < f (pairs c h false (.inl k))) :
    Cleans (c * (2 * h)) h (rows f) (rows fun j => f (exchange (pairs c h false) s j)) := by
  intro q r hq hr
  obtain ⟨k, hl, hr'⟩ := exists_pair hq hr false
  rw [if_neg Bool.false_ne_true] at hr'
  rw [← hl, ← hr', rows_apply, rows_apply, rows_apply, rows_apply]
  exact ⟨exchange_min hs k, exchange_max hs k⟩

end Rows

/-! ## The sort -/

section Sorting

variable [NeZero ρ] {layout : Fin N → Fin ρ → Fin N} {P : Fin N → Protocol N ρ d G}
variable {dataParty : Fin N → Prop} {Good : (Fin N → G) → Prop} {mode : SendMode}
variable {g : Fin N → G} {Live : Column → Prop} {M : Fin N → Memory ρ n d} {V : Column → Vec n d}
variable {keys : List (ℕ × Bool)} {dataA dataB : List ℕ}

/-- The columns of a table. -/
def table (columns dataA dataB : List ℕ) : List Column :=
  columns.map .b ++ dataA.map .a ++ dataB.map .b

/-- The key row `j` of a table; each key column comes with its direction. -/
def keyRow (keys : List (ℕ × Bool)) (V : Column → Vec n d) (j : Fin n) : List ℤ :=
  row Prod.snd (fun k => V (.b k.1)) keys j

/-- Equal key rows have equal keys. -/
theorem eq_of_keyRow_eq {keys : List (ℕ × Bool)} {V : Column → Vec n d} {r s : Fin n}
    (h : keyRow keys V r = keyRow keys V s) {key : ℕ × Bool} (hk : key ∈ keys) :
    V (.b key.1) r = V (.b key.1) s :=
  signed_inj.mp (List.map_inj_left.mp h key hk)

theorem keyRow_reorder {cols : List Column} (hkeys : ∀ k ∈ keys, Column.b k.1 ∈ cols)
    (σ : Equiv.Perm (Fin n)) (V : Column → Vec n d) (j : Fin n) :
    keyRow keys (reorder cols σ V) j = keyRow keys V (σ j) :=
  List.map_congr_left fun k hk => by simp only [reorder, if_pos (hkeys k hk)]

theorem reorder_reorder (cols : List Column) (σ τ : Equiv.Perm (Fin n)) (V : Column → Vec n d) :
    reorder cols τ (reorder cols σ V) = reorder cols (τ.trans σ) V := by
  funext c
  by_cases hc : c ∈ cols
  · simp only [reorder, if_pos hc, Equiv.trans_apply]
  · simp only [reorder, if_neg hc]

/-- The keys, the arithmetic and the boolean data together. -/
theorem reorder_table {columns dataA dataB : List ℕ} (hB : (columns ++ dataB).Nodup)
    (σ : Equiv.Perm (Fin n)) (V : Column → Vec n d) :
    reorder (dataA.map .a) σ (reorder (dataB.map .b) σ (reorder (columns.map .b) σ V))
      = reorder (table columns dataA dataB) σ V := by
  have hdisj := List.disjoint_of_nodup_append hB
  funext c
  cases c with
  | a i =>
    by_cases hi : i ∈ dataA
    · simp [reorder, table, hi]
    · simp [reorder, table, hi]
  | b i =>
    by_cases hi : i ∈ columns
    · have hdata : i ∉ dataB := fun h => hdisj hi h
      simp [reorder, table, hi, hdata]
    · by_cases hdata : i ∈ dataB <;> simp [reorder, table, hi, hdata]

/-- The columns of the keys agree in `top`, each one in itself. -/
def KeysWithin (top : Word d → Word d) (keys : List (ℕ × Bool)) (V : Column → Vec n d) : Prop :=
  ∀ key ∈ keys, ∀ r s, top (V (.b key.1) r) = top (V (.b key.1) s)

section Stages

variable {top : Word d → Word d} (hP : ComparesWithin top P layout least dataParty Good mode)
variable (hg : Good g) (hM : Memory.Shares layout Live M V) (hkeys : keys ≠ [])
variable (hB : (keys.map Prod.fst ++ dataB).Nodup) (hA : dataA.Nodup)
variable (hlive : ∀ c ∈ table (keys.map Prod.fst) dataA dataB, Live c)
include hP hg hM hkeys hB hA hlive

/-- **A stage exchanges rows**: those whose left key row is greater, if the keys agree in `top`. -/
theorem ensures_exchangeRows {left right : VectorData} {e : Fin m ⊕ Fin m ≃ Fin n}
    (hl : left.Shows fun k => e (.inl k)) (hr : right.Shows fun k => e (.inr k))
    (hn : least ≤ m) :
    Ensures mode (fun p => exchangeRows (P p) m left right (keys.map Prod.fst) dataA dataB
        (keys.map Prod.snd) (M p)) g fun M' g' _ =>
      (∃ s : Fin m → Bool, Memory.Shares layout Live M'
          (reorder (table (keys.map Prod.fst) dataA dataB) (exchange e s) V) ∧
        (KeysWithin top keys V → ∀ k, s k = true ↔
          keyRow keys V (e (.inr k)) < keyRow keys V (e (.inl k)))) ∧ Good g' := by
  have hliveKey : ∀ k ∈ keys, Live (.b k.1) := fun k hk =>
    hlive _ <| List.mem_append_left _ <| List.mem_append_left _ <|
      List.mem_map_of_mem (List.mem_map_of_mem hk)
  have hliveA : ∀ c ∈ dataA, Live (.a c) := fun c hc => hlive _ (by simp [table, hc])
  have hliveB : ∀ c ∈ dataB, Live (.b c) := fun c hc => hlive _ (by simp [table, hc])
  have hcompare := hP.compareRows (X := fun k p => (M p).read m ⟨.b k.1, left⟩)
    (Y := fun k p => (M p).read m ⟨.b k.1, right⟩) (U := fun k j => V (.b k.1) (e (.inl j)))
    (V := fun k j => V (.b k.1) (e (.inr j))) Prod.snd hg hkeys
    (fun k hk => hM.read (hliveKey k hk) hl) (fun k hk => hM.read (hliveKey k hk) hr) hn
  have hmap : ∀ p (v : VectorData), ((keys.map Prod.fst).map
      fun c => (⟨.b c, v⟩ : Reference)).map ((M p).read m) = keys.map fun k =>
        (M p).read m ⟨.b k.1, v⟩ :=
    fun p v => by simp only [List.map_map, Function.comp_def]
  simp only [exchangeRows, hmap]
  refine hcompare.bind fun z g₁ _ hz => ?_
  obtain ⟨⟨s, hs, hright⟩, hg₁⟩ := hz
  have hP' := hP.toCorrect
  refine (ensures_swapB hP' hg₁ hM (hB.of_append_left) (fun c hc => ?_) hl hr hs hn).bind
    fun M₁ g₂ _ h₁ => ?_
  · obtain ⟨k, hk, rfl⟩ := List.mem_map.mp hc
    exact hliveKey k hk
  refine (ensures_swapDataB hP' h₁.2 h₁.1 hB.of_append_right hliveB hl hr hs hn).bind
    fun M₂ g₃ _ h₂ => ?_
  refine (ensures_swapDataA hP' h₂.2 h₂.1 hA hliveA hl hr hs hn).mono fun M₃ g₄ _ h₃ => ?_
  refine ⟨⟨s, ?_, fun hwithin k => ?_⟩, h₃.2⟩
  · rw [← reorder_table hB]
    exact h₃.1
  rw [hright k fun key hkey => hwithin key hkey _ _]
  exact decide_eq_true_iff

/-- **One column of a round** is a stage of a merge of the key rows. -/
theorem ensures_bitonicColumn {i j : ℕ} (hh : 1 <<< (i - j) = h) (hpos : 0 < h)
    (hn : n = c * (2 * h)) (hc : 0 < c) (hroom : least ≤ c * h) :
    Ensures mode (fun p => bitonicColumn (P p) (keys.map Prod.fst) dataA dataB (keys.map Prod.snd)
        i j (M p)) g fun M' g' _ =>
      (∃ τ : Equiv.Perm (Fin n),
        Memory.Shares layout Live M' (reorder (table (keys.map Prod.fst) dataA dataB) τ V) ∧
        (KeysWithin top keys V →
          if j = 0 then Flips n h (rows (keyRow keys V)) (rows fun r => keyRow keys V (τ r))
          else Cleans n h (rows (keyRow keys V)) (rows fun r => keyRow keys V (τ r)))) ∧
        Good g' := by
  subst hn
  have hm : (leftRows (c * (2 * h)) h).size.toNat = c * h := by
    rw [(shows_leftRows hpos true).size]
    rfl
  have hdir : (if j = 0 then (-1 : ℤ) else 1) = if decide (j = 0) then -1 else 1 := by simp
  simp only [bitonicColumn, hh, hm, hdir]
  refine (ensures_exchangeRows hP hg hM hkeys hB hA hlive (shows_leftRows hpos (decide (j = 0)))
    (shows_rightRows hpos hc (decide (j = 0))) hroom).mono fun M' g' _ h => ?_
  obtain ⟨⟨s, hM', hright⟩, hg'⟩ := h
  refine ⟨⟨_, hM', fun hwithin => ?_⟩, hg'⟩
  have hs := hright hwithin
  by_cases hj : j = 0
  · simp only [hj, decide_true, if_true] at hs ⊢
    exact flips_exchange hs
  · simp only [hj, decide_false, if_false] at hs ⊢
    exact cleans_exchange hs

end Stages

/-- Before stage `j` of round `i`: sorted blocks at the start of the round, then a merge. -/
def RoundInv (n i j : ℕ) (f : ℕ → List ℤ) : Prop :=
  if j = 0 then SortedBlocks n (2 ^ i) f else MergingAll n (2 ^ (i + 1)) (2 ^ (i + 1 - j)) f

theorem RoundInv.stage {k i j : ℕ} (hi : i < k) (hj : j < i + 1) {f f' : ℕ → List ℤ}
    (hf : RoundInv (2 ^ k) i j f)
    (hstage : if j = 0 then Flips (2 ^ k) (2 ^ (i - j)) f f'
      else Cleans (2 ^ k) (2 ^ (i - j)) f f') : RoundInv (2 ^ k) i (j + 1) f' := by
  have hdouble : ∀ t, 2 ^ (t + 1) = 2 * 2 ^ t := fun t => by rw [Nat.pow_succ, Nat.mul_comm]
  rw [RoundInv, if_neg (Nat.succ_ne_zero j), Nat.succ_sub_succ]
  rcases Nat.eq_zero_or_pos j with rfl | hpos
  · rw [if_pos rfl, Nat.sub_zero] at hstage
    rw [Nat.sub_zero, hdouble]
    exact hstage.mergingAll (Nat.two_pow_pos i) (hdouble i ▸ Nat.pow_dvd_pow 2 hi) hf
  · have hsub : i + 1 - j = i - j + 1 := by omega
    rw [if_neg hpos.ne'] at hstage
    rw [RoundInv, if_neg hpos.ne', hsub, hdouble (i - j)] at hf
    exact hstage.mergingAll (Nat.two_pow_pos _)
      (hdouble (i - j) ▸ Nat.pow_dvd_pow 2 (by omega))
      (hdouble (i - j) ▸ Nat.pow_dvd_pow 2 (by omega)) hf

theorem RoundInv.last {i : ℕ} {f : ℕ → List ℤ} (hf : RoundInv n i (i + 1) f) :
    SortedBlocks n (2 ^ (i + 1)) f := by
  rw [RoundInv, if_neg (Nat.succ_ne_zero i), Nat.sub_self, Nat.pow_zero] at hf
  exact hf.sorted

/-- One block is the whole table. -/
theorem monotone_of_sortedBlocks {f : Fin n → List ℤ} (hf : SortedBlocks n n (rows f)) :
    Monotone f := by
  intro j j' hj
  have h := hf 0 j j' (by omega) hj j'.isLt
  rwa [Nat.zero_mul, Nat.zero_add, Nat.zero_add, rows_apply, rows_apply] at h

omit [NeZero ρ] in
theorem KeysWithin.reorder {top : Word d → Word d} {cols : List Column}
    (h : KeysWithin top keys V) (σ : Equiv.Perm (Fin n)) :
    KeysWithin top keys (reorder cols σ V) := by
  intro key hkey r s
  rw [Operators.reorder]
  split
  exacts [h key hkey _ _, h key hkey _ _]

/-- **The bitonic sort permutes the rows** of all columns alike, into the order of the key rows if
the keys agree in `top`. -/
theorem ensures_bitonicSort_within {k : ℕ} (hn : n = 2 ^ k) {top : Word d → Word d}
    (hP : ComparesWithin top P layout least dataParty Good mode) (hg : Good g)
    (hM : Memory.Shares layout Live M V) (hkeys : keys ≠ [])
    (hB : (keys.map Prod.fst ++ dataB).Nodup) (hA : dataA.Nodup)
    (hlive : ∀ c ∈ table (keys.map Prod.fst) dataA dataB, Live c)
    (hroom : RoomForRounds least n) :
    Ensures mode (fun p => bitonicSort (P p) (keys.map Prod.fst) dataA dataB (keys.map Prod.snd)
        (M p)) g fun M' g' _ =>
      (∃ σ : Equiv.Perm (Fin n),
        Memory.Shares layout Live M' (reorder (table (keys.map Prod.fst) dataA dataB) σ V) ∧
        (KeysWithin top keys V → Monotone fun j => keyRow keys V (σ j))) ∧ Good g' := by
  subst hn
  have hcols : ∀ key ∈ keys, Column.b key.1 ∈ table (keys.map Prod.fst) dataA dataB := fun key hk =>
    List.mem_append_left _ <| List.mem_append_left _ <| List.mem_map_of_mem (List.mem_map_of_mem hk)
  generalize hT : table (keys.map Prod.fst) dataA dataB = T at *
  let f : Equiv.Perm (Fin (2 ^ k)) → ℕ → List ℤ := fun σ => rows fun j => keyRow keys V (σ j)
  have hrow : ∀ σ τ : Equiv.Perm (Fin (2 ^ k)), rows (fun j => keyRow keys (reorder T σ V) (τ j))
      = f (τ.trans σ) := fun σ τ => by simp only [keyRow_reorder hcols]; rfl
  have hrow' : ∀ σ : Equiv.Perm (Fin (2 ^ k)), rows (keyRow keys (reorder T σ V)) = f σ :=
    fun σ => congrArg rows (funext fun j => keyRow_reorder hcols σ V j)
  simp only [bitonicSort, Nat.log_pow one_lt_two]
  refine (Ensures.foldlM_range (fun i M g => ∃ σ, Memory.Shares layout Live M (reorder T σ V) ∧
    (KeysWithin top keys V → SortedBlocks (2 ^ k) (2 ^ i) (f σ)) ∧ Good g) k ?_
      fun i hi M g hround => ?_).mono fun M' g' _ hend => ?_
  · refine ⟨Equiv.refl _, ?_, fun _ => sortedBlocks_one _, hg⟩
    have hrefl : reorder T (Equiv.refl _) V = V := funext fun c => ite_self _
    rwa [hrefl]
  · -- the stages of a round
    refine (Ensures.foldlM_range (fun j M g => ∃ σ, Memory.Shares layout Live M (reorder T σ V) ∧
      (KeysWithin top keys V → RoundInv (2 ^ k) i j (f σ)) ∧ Good g) (i + 1) hround
        fun j hj M g hstage => ?_).mono fun M' g' _ hend => ?_
    · obtain ⟨σ, hM, hf, hg⟩ := hstage
      have hpow : 2 ^ k = 2 ^ (k - 1 - (i - j)) * (2 * 2 ^ (i - j)) := by
        rw [← Nat.pow_succ', ← Nat.pow_add]
        congr 1
        omega
      have hhalf : least ≤ 2 ^ (k - 1 - (i - j)) * 2 ^ (i - j) := by
        have htwo : 2 ^ 1 ≤ 2 ^ k := Nat.pow_le_pow_right (by omega) (by omega)
        rw [RoomForRounds, hpow, Nat.mul_left_comm] at hroom
        rw [hpow, Nat.mul_left_comm] at htwo
        omega
      refine (ensures_bitonicColumn hP hg hM hkeys hB hA (hT ▸ hlive) (h := 2 ^ (i - j))
        (by rw [Nat.shiftLeft_eq, Nat.one_mul]) (Nat.two_pow_pos _) hpow
        (Nat.two_pow_pos _) hhalf).mono fun M' g' _ h => ?_
      obtain ⟨⟨τ, hM', hst⟩, hg'⟩ := h
      rw [hT, reorder_reorder] at hM'
      rw [hrow', hrow] at hst
      exact ⟨τ.trans σ, hM', fun hwithin => (hf hwithin).stage hi hj (hst (hwithin.reorder σ)),
        hg'⟩
    · obtain ⟨σ, hM, hf, hg⟩ := hend
      exact ⟨σ, hM, fun hwithin => (hf hwithin).last, hg⟩
  · obtain ⟨σ, hM', hf, hg'⟩ := hend
    exact ⟨⟨σ, hM', fun hwithin => monotone_of_sortedBlocks (hf hwithin)⟩, hg'⟩

/-- **The bitonic sort sorts**: the rows of all columns are permuted alike, into the order of the
key rows. -/
theorem ensures_bitonicSort {k : ℕ} (hn : n = 2 ^ k)
    (hP : Protocol.CorrectBits P layout least dataParty Good mode) (hg : Good g)
    (hM : Memory.Shares layout Live M V) (hkeys : keys ≠ [])
    (hB : (keys.map Prod.fst ++ dataB).Nodup) (hA : dataA.Nodup)
    (hlive : ∀ c ∈ table (keys.map Prod.fst) dataA dataB, Live c)
    (hroom : RoomForRounds least n) :
    Ensures mode (fun p => bitonicSort (P p) (keys.map Prod.fst) dataA dataB (keys.map Prod.snd)
        (M p)) g fun M' g' _ =>
      (∃ σ : Equiv.Perm (Fin n),
        Memory.Shares layout Live M' (reorder (table (keys.map Prod.fst) dataA dataB) σ V) ∧
        Monotone fun j => keyRow keys V (σ j)) ∧ Good g' := by
  refine (ensures_bitonicSort_within hn (comparesWithin hP) hg hM hkeys hB hA hlive hroom).mono
    fun M' g' _ h => ?_
  obtain ⟨⟨σ, hM', hmono⟩, hg'⟩ := h
  exact ⟨⟨σ, hM', hmono fun _ _ _ _ => rfl⟩, hg'⟩

end Sorting

end Tva.Operators
