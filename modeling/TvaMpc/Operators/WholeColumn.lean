import TvaMpc.Machinery.SingleBit
import TvaMpc.Operators.AggregationCorrect
import TvaMpc.Protocols.Replicated3pcBits

/-!
# Operators/WholeColumn — aggregating without keys

Without keys all rows are one group, and the group bits are a public one that party `0` shares.  The
sum converts them, which depends on the shared value only.  The maximum and the minimum extend every
**component** to a mask, and random components need not extend to the mask of all ones: each round
then blends by the mask `e` that they do extend to (`ensures_wholeColumn`), and the bits outside of
`e` never leave their row (`getLsbD_scan_blended`).
-/

namespace Tva.Operators

open Machinery

variable {N ρ n m dist least : ℕ} {d : DataType} {G : Type}

/-- The bits of `y` at the mask `e`, those of `x` elsewhere. -/
def blendWord (e x y : Word d) : Word d := (~~~e &&& x) ^^^ (e &&& y)

theorem blendWord_allOnes (x y : Word d) : blendWord (BitVec.allOnes d.bits) x y = y := by
  rw [blendWord, BitVec.not_allOnes, BitVec.zero_and, BitVec.allOnes_and, BitVec.zero_xor]

theorem getLsbD_blendWord {e : Word d} {b : ℕ} (hb : b < d.bits) (he : e.getLsbD b = false)
    (x y : Word d) : (blendWord e x y).getLsbD b = x.getLsbD b := by
  rw [blendWord, BitVec.getLsbD_xor, BitVec.getLsbD_and, BitVec.getLsbD_and, BitVec.getLsbD_not, he,
    decide_eq_true hb, Bool.false_and, Bool.xor_false, Bool.not_false, Bool.true_and, Bool.true_and]

namespace Aggregation

/-- What a round does to two rows, where the shared one extends to the mask `e`. -/
def blended (e : Word d) : Aggregation → Word d → Word d → Word d
  | sum => op sum
  | max => fun x y => blendWord e x (op max x y)
  | min => fun x y => blendWord e x (op min x y)

theorem blended_eq_op {t : Aggregation} {e : Word d} (h : t = sum ∨ e = BitVec.allOnes d.bits) :
    t.blended e = t.op := by
  rcases h with rfl | rfl
  · rfl
  · cases t with
    | sum => rfl
    | max => exact funext₂ fun x y => blendWord_allOnes x _
    | min => exact funext₂ fun x y => blendWord_allOnes x _

/-- **A bit outside of the mask stays in its row** through all rounds. -/
theorem getLsbD_scan_blended {t : Aggregation} (ht : t ≠ sum) {e : Word d} {b : ℕ}
    (hb : b < d.bits) (he : e.getLsbD b = false) (partner : ℕ → Fin n → Option (Fin n))
    (link : Fin n → Fin n → Prop) [DecidableRel link] (i : ℕ) (v : Vec n d) (r : Fin n) :
    (scan (t.blended e) partner link i v r).getLsbD b = (v r).getLsbD b := by
  induction i generalizing r with
  | zero => rfl
  | succ i ih =>
    have hstep : ∀ x y, (t.blended e x y).getLsbD b = x.getLsbD b := by
      cases t with
      | sum => exact absurd rfl ht
      | max => exact fun x y => getLsbD_blendWord hb he x _
      | min => exact fun x y => getLsbD_blendWord hb he x _
    rw [scan]
    cases hp : partner i r with
    | none => rw [scanStep_none hp, ih]
    | some s =>
      rw [scanStep_some hp]
      split
      · rw [hstep, ih]
      · exact ih r

/-- The rows that row `r` stands for: those from `r` on, or up to `r`. -/
def rows (reverse : Bool) (r : Fin n) : Finset (Fin n) :=
  if reverse then Finset.Iic r else Finset.Ici r

/-- **The whole column is aggregated**: every row holds the aggregate of its rows. -/
def OfRows (t : Aggregation) (reverse : Bool) (v z : Vec n d) : Prop :=
  ∀ r, t.Of v (rows reverse r) (z r)

end Aggregation

theorem contiguous_all : Contiguous fun _ _ : Fin n => True where
  refl _ := trivial
  symm _ := trivial
  trans _ _ := trivial
  between _ _ _ := trivial

/-- All rounds reach every row once. -/
theorem reach_all {k : ℕ} (hn : n = 2 ^ k) (reverse : Bool) (r : Fin n) :
    reach (partners reverse k) (fun _ _ => True) k r = Aggregation.rows reverse r := by
  ext s
  cases reverse with
  | false =>
    refine (contiguous_all.reach_ahead hn).trans ?_
    simp [Aggregation.rows]
  | true =>
    refine (contiguous_all.reach_behind hn).trans ?_
    simp [Aggregation.rows]

/-! ## The rounds -/

section Rounds

variable [NeZero ρ] {layout : Fin N → Fin ρ → Fin N} {P : Fin N → Protocol N ρ d G}
variable {dataParty : Fin N → Prop} {Good : (Fin N → G) → Prop} {mode : SendMode}
variable {g : Fin N → G} {Live : Column → Prop} {M : Fin N → Memory ρ n d} {V : Column → Vec n d}
variable {values results : List ℕ} {e : Word d} {one : Fin N → EVector ρ 1 d}

/-- **A shared one**, whose components extend to a sharing of `e`. -/
structure SharesOne (layout : Fin N → Fin ρ → Fin N) (e : Word d) (x : Fin N → EVector ρ m d) :
    Prop where
  shares : SharesB layout x fun _ => 1
  extend : SharesB layout (fun i k => extendLsb (x i k)) fun _ => e

theorem SharesOne.repeated (hone : SharesOne layout e one) : SharesOne layout e fun i k =>
    ((VectorData.vectorData 1).repeatedSubsetReference m).read m (one i k) where
  shares := shares_read VectorData.shows_repeated hone.shares
  extend := by
    have h := shares_read (VectorData.shows_repeated (n := m)) hone.extend
    simp only [VectorData.shows_repeated.read] at h ⊢
    exact h

/-- What the functions of a round are given for a shared one. -/
def SVector.SharesOnes (layout : Fin N → Fin ρ → Fin N) (e : Word d) (kind : SVector)
    (x : Fin N → EVector ρ m d) : Prop :=
  match kind with
  | .aSharedVector => SharesA layout x fun _ => 1
  | .bSharedVector => SharesOne layout e x

theorem ensures_autoConversion_one (hP : Protocol.Correct P layout least dataParty Good mode)
    (hg : Good g) (kind : SVector) {x : Fin N → EVector ρ m d} (hx : SharesOne layout e x) :
    Ensures mode (fun i => autoConversion (P i) kind (x i)) g fun z g' _ =>
      kind.SharesOnes layout e z ∧ Good g' := by
  cases kind with
  | aSharedVector =>
    have hlow : (lowBit fun _ => 1 : Vec m d) = fun _ => 1 := funext fun _ => BitVec.and_self
    refine (hP.b2aBit hg hx.shares).mono fun z g' _ hz => ?_
    rw [hlow] at hz
    exact hz
  | bSharedVector => exact Ensures.pure ⟨hx, hg⟩

/-- A round of the maximum or the minimum blends all rows. -/
theorem ensures_maxAggregation_one (hP : Protocol.CorrectBits P layout least dataParty Good mode)
    (minAggr : Bool) {x : Fin N → EVector ρ (n - dist) d} (hx : SharesOne layout e x) (hn : 0 < n)
    (hd : dist ≤ n) (reverse : Bool) (hresults : results.Nodup) (hlive : ∀ r ∈ results, Live (.b r))
    (hM : Memory.Shares layout Live M V) (hg : Good g) (hroom : least ≤ n - dist) :
    Ensures mode (fun i => maxAggregationWith (P i) minAggr (n - dist) dist (x i)
        (results.map Column.b) reverse (M i)) g fun M' g' _ =>
      Memory.Shares layout Live M' (fun c => if c ∈ results.map Column.b then
        scanStep (fun u v => blendWord e u (extremum minAggr u v)) (partnerAt reverse dist)
          (fun _ _ => True) (V c) else V c) ∧ Good g' := by
  refine ensures_columns (hresults.map (column_injective .bSharedVector))
    (fun c hc M V g hM hg => ?_) hM hg
  obtain ⟨r, hr, rfl⟩ := List.mem_map.mp hc
  exact ensures_maxColumn hP.keepsBits minAggr (fun _ => true) (fun _ u v => blendWord e u v)
    (fun hg hy hy' => ensures_chooseB hP.toCorrect hg hx.extend hy hy' hroom) (fun _ _ _ => rfl)
    (fun _ _ => id) (fun _ => iff_of_true rfl trivial) hn hd reverse (hlive r hr) hM hg hroom

theorem ensures_function_one (hP : Protocol.CorrectBits P layout least dataParty Good mode)
    (t : Aggregation) {x : Fin N → EVector ρ (n - dist) d} (hx : t.kind.SharesOnes layout e x)
    (hn : 0 < n) (hd : dist ≤ n) (reverse : Bool) (hresults : results.Nodup)
    (hlive : ∀ r ∈ results, Live (t.kind.column r)) (hM : Memory.Shares layout Live M V)
    (hg : Good g) (hroom : least ≤ n - dist) :
    Ensures mode (fun i =>
        t.function (P i) (n - dist) dist (x i) (results.map t.kind.column) reverse
        (M i)) g fun M' g' _ =>
      Memory.Shares layout Live M' (fun c => if c ∈ results.map t.kind.column then
        scanStep (t.blended e) (partnerAt reverse dist) (fun _ _ => True) (V c) else V c)
        ∧ Good g' := by
  cases t with
  | sum =>
    exact combines_sum hP.toCorrect dist (fun _ _ => True) (fun _ => true) x results reverse
      Live M V g hn hd hroom (fun _ _ => id) (fun _ => iff_of_true rfl trivial) hx hresults hlive hM
      hg
  | max => exact ensures_maxAggregation_one hP false hx hn hd reverse hresults hlive hM hg hroom
  | min => exact ensures_maxAggregation_one hP true hx hn hd reverse hresults hlive hM hg hroom

theorem ensures_aggregationRound_one (hP : Protocol.CorrectBits P layout least dataParty Good mode)
    (t : Aggregation) (hone : SharesOne layout e one) (hn : 0 < n) (hd : dist ≤ n) (reverse : Bool)
    (hresults : results.Nodup) (hlive : ∀ r ∈ results, Live (t.kind.column r))
    (hM : Memory.Shares layout Live M V) (hg : Good g) (hroom : least ≤ n - dist) :
    Ensures mode (fun i => aggregationRound (P i) t.kind [] results (t.function (P i)) reverse none
        (one i) dist (M i)) g fun M' g' _ =>
      Memory.Shares layout Live M' (fun c => if c ∈ results.map t.kind.column then
        scanStep (t.blended e) (partnerAt reverse dist) (fun _ _ => True) (V c) else V c)
        ∧ Good g' := by
  simp only [aggregationRound, keyBits, selectBits, pure_bind]
  exact (ensures_autoConversion_one hP.toCorrect hg t.kind hone.repeated).bind fun _ _ _ hz =>
    ensures_function_one hP t hz.1 hn hd reverse hresults hlive hM hz.2 hroom

/-- **Without keys the aggregation is the scan of the blended operation**, where the shared one
extends to the mask `e`. -/
theorem ensures_wholeColumn [NeZero N]
    (hP : Protocol.CorrectBits P layout least dataParty Good mode)
    (hone : Ensures mode (fun i => (P i).secretShareB (fun _ : Fin 1 => (1 : Word d)) 0) g
      fun one g' _ => SharesOne layout e one ∧ Good g')
    (t : Aggregation) (hM : Memory.Shares layout Live M V) {k : ℕ} (hn : n = 2 ^ k)
    (hlive : ∀ v ∈ values, Live (t.kind.column v)) (hd : Distinct t.kind [] values results)
    (reverse : Bool) (hroom : RoomForRounds least n) :
    Ensures mode (fun i => oddEvenAggregation (P i) t.kind [] values results (t.function (P i))
        reverse none (M i)) g fun M' _ _ =>
      ∀ p ∈ values.zip results, SharesC layout (t.kind.column p.2)
        (fun i => M' i (t.kind.column p.2))
        (scan (t.blended e) (partners reverse k) (fun _ _ => True) k (V (t.kind.column p.1))) := by
  obtain ⟨V₀, hM₀, hvalues, hother⟩ := shares_copyValues hd hM hlive
  have hpos : 0 < n := hn ▸ Nat.two_pow_pos k
  have hlog : Nat.log 2 n = k := by rw [hn, Nat.log_pow one_lt_two]
  simp only [oddEvenAggregation, asserting_eq hd.asserted, hlog]
  refine hone.bind fun one g₁ _ hone => ?_
  refine (ensures_rounds (t.blended e) (fun _ _ => True) hn hd hone.2 hM₀ hvalues hother
    (fun i dist M' V' g' hdist hM' _ _ hg' hrows => ?_) hroom).mono fun M' g' _ hend p hp => ?_
  · exact ensures_aggregationRound_one hP t hone.1 hpos hdist reverse hd.nodup
      (fun r hr => .inr (List.mem_map_of_mem hr)) hM' hg' hrows
  · obtain ⟨⟨V', hM', hscan, -⟩, -⟩ := hend
    rw [← hscan p hp]
    exact hM' _ (.inr (List.mem_map_of_mem (List.of_mem_zip hp).2))

end Rounds

end Tva.Operators

/-! ## What is aggregated -/

namespace Tva.Operators.Aggregation

open Machinery

variable {n : ℕ} {d : DataType} {t : Aggregation}

theorem op_comm (t : Aggregation) (x y : Word d) : t.op x y = t.op y x := by
  cases t with
  | sum => exact add_comm x y
  | max => exact extremum_comm false x y
  | min => exact extremum_comm true x y

/-- A maximum or a minimum is one of the two. -/
theorem op_eq_or (ht : t ≠ sum) (x y : Word d) : t.op x y = x ∨ t.op x y = y := by
  cases t with
  | sum => exact absurd rfl ht
  | max =>
    change smax x y = x ∨ smax x y = y
    rw [smax]
    split
    exacts [.inr rfl, .inl rfl]
  | min =>
    change smin x y = x ∨ smin x y = y
    rw [smin]
    split
    exacts [.inl rfl, .inr rfl]

namespace Of

variable {v : Vec n d} {s : Finset (Fin n)} {w : Word d}

/-- An extreme element is an element, … -/
theorem mem (ht : t ≠ sum) (h : t.Of v s w) : ∃ r, v r = w := by
  cases t with
  | sum => exact absurd rfl ht
  | max =>
    obtain ⟨r, -, hr⟩ := h.1
    exact ⟨r, BitVec.eq_of_toInt_eq hr⟩
  | min =>
    obtain ⟨r, -, hr⟩ := h.1
    exact ⟨r, BitVec.eq_of_toInt_eq hr⟩

/-- … and absorbs the others. -/
theorem absorbs (ht : t ≠ sum) (h : t.Of v s w) {r : Fin n} (hr : r ∈ s) : t.op (v r) w = w := by
  cases t with
  | sum => exact absurd rfl ht
  | max =>
    refine BitVec.eq_of_toInt_eq ((toInt_smax (v r) w).trans (max_eq_right ?_))
    exact h.2 ⟨r, hr, rfl⟩
  | min =>
    refine BitVec.eq_of_toInt_eq ((toInt_smin (v r) w).trans (min_eq_right ?_))
    exact h.2 ⟨r, hr, rfl⟩

end Of

/-- Two elements that differ in a bit, the second of which is the aggregate. -/
theorem exists_absorbed (ht : t ≠ sum) {b : ℕ} (hb : b < d.bits) :
    ∃ x y : Word d, x.getLsbD b ≠ y.getLsbD b ∧ t.op x y = y := by
  have hdiff : (0#d.bits).getLsbD b ≠ (BitVec.twoPow d.bits b).getLsbD b := by
    simp [hb]
  rcases op_eq_or ht 0#d.bits (BitVec.twoPow d.bits b) with h | h
  · exact ⟨_, _, hdiff.symm, (op_comm t _ _).trans h⟩
  · exact ⟨_, _, hdiff, h⟩

/-- The row that stands for all rows. -/
def endRow (n : ℕ) [NeZero n] (reverse : Bool) : Fin n := if reverse then Fin.rev 0 else 0

theorem mem_rows_endRow [NeZero n] (reverse : Bool) (r : Fin n) :
    r ∈ rows reverse (endRow n reverse) := by
  cases reverse with
  | false => exact Finset.mem_Ici.mpr (Fin.zero_le r)
  | true =>
    refine Finset.mem_Iic.mpr (Fin.le_def.mpr ?_)
    change (r : ℕ) ≤ (Fin.rev (0 : Fin n) : ℕ)
    rw [Fin.val_rev, Fin.val_zero]
    omega

/-- **A lost bit**: where the mask lacks one, some column is not aggregated. -/
theorem exists_not_ofRows (ht : t ≠ sum) {k : ℕ} (hk : k ≠ 0) {e : Word d} {b : ℕ} (hb : b < d.bits)
    (he : e.getLsbD b = false) (reverse : Bool) : ∃ v : Vec (2 ^ k) d,
      ¬ t.OfRows reverse v (scan (t.blended e) (partners reverse k) (fun _ _ => True) k v) := by
  obtain ⟨x, y, hbit, hop⟩ := exists_absorbed (d := d) ht hb
  have hlt : 1 < 2 ^ k := Nat.one_lt_two_pow hk
  have : Nontrivial (Fin (2 ^ k)) := Fin.nontrivial_iff_two_le.mpr hlt
  obtain ⟨r, hr⟩ := exists_ne (endRow (2 ^ k) reverse)
  -- all rows but the end row absorb it
  refine ⟨fun s => if s = endRow (2 ^ k) reverse then x else y, fun hrows => ?_⟩
  have hend := hrows (endRow (2 ^ k) reverse)
  have hlost := getLsbD_scan_blended ht hb he (partners reverse k) (fun _ _ => True) k
    (fun s => if s = endRow (2 ^ k) reverse then x else y) (endRow (2 ^ k) reverse)
  rw [if_pos rfl] at hlost
  obtain ⟨s, hs⟩ := hend.mem ht
  have habsorbs := hend.absorbs ht (mem_rows_endRow reverse r)
  rw [if_neg hr, ← hs] at habsorbs
  rw [← hs] at hlost
  split at habsorbs
  · have heq : x = y := habsorbs.symm.trans ((op_comm t y x).trans hop)
    exact hbit (heq ▸ rfl)
  · rename_i hne
    rw [if_neg hne] at hlost
    exact hbit hlost.symm

/-- **The blended rounds aggregate every column** exactly if there is nothing to blend. -/
theorem ofRows_scan_iff (t : Aggregation) (e : Word d) (k : ℕ) (reverse : Bool) :
    (∀ v : Vec (2 ^ k) d,
        t.OfRows reverse v (scan (t.blended e) (partners reverse k) (fun _ _ => True) k v)) ↔
      t = sum ∨ k = 0 ∨ e = BitVec.allOnes d.bits := by
  constructor
  · intro hrows
    by_contra hnone
    rw [not_or, not_or] at hnone
    obtain ⟨ht, hk, he⟩ := hnone
    obtain ⟨b, hb, hbit⟩ : ∃ b < d.bits, e.getLsbD b = false := by
      by_contra hall
      refine he (BitVec.eq_of_getLsbD_eq fun b hb => ?_)
      rw [BitVec.getLsbD_allOnes, decide_eq_true hb]
      exact Bool.eq_true_of_not_eq_false fun h => hall ⟨b, hb, h⟩
    obtain ⟨v, hv⟩ := exists_not_ofRows ht hk hb hbit reverse
    exact hv (hrows v)
  · intro h v r
    rw [← reach_all rfl]
    rcases h with h | rfl | h
    · rw [blended_eq_op (.inl h)]
      exact t.of_scan v _ reverse le_rfl r
    · exact t.of_singleton v r
    · rw [blended_eq_op (.inr h)]
      exact t.of_scan v _ reverse le_rfl r

end Tva.Operators.Aggregation

/-! ## Three parties -/

namespace Tva.Replicated3pc

open Machinery Operators

variable {d : DataType} {G : Type} [RandomGenerator G d] {mode : SendMode}
variable {Good : (Fin 3 → G) → Prop} {g : Fin 3 → G}

/-- The components of the one that a party with the generator `g` shares. -/
def oneShares (d : DataType) [RandomGenerator G d] (g : G) : Fin 3 → Word d :=
  let share1 := own d 1 g 0
  let share2 := own d 1 (afterRandom d 1 g) 0
  ![share1, share2, 1 ^^^ share1 ^^^ share2]

/-- **The components extend the one**: above the lowest bit an odd number of them has a bit set
below. All three are odd, then, or the two even ones have their lowest bit at the same place, as far
as it matters. -/
def OneExtends (s : Fin 3 → Word d) : Prop :=
  ∀ b < d.bits, 0 < b → (setBelow (s 0) b ^^ setBelow (s 1) b ^^ setBelow (s 2) b) = true

instance (s : Fin 3 → Word d) : Decidable (OneExtends s) :=
  inferInstanceAs (Decidable (∀ b < d.bits, 0 < b → _))

/-- The mask that the components extend to. -/
def oneMask (s : Fin 3 → Word d) : Word d := -s 0 ^^^ -s 1 ^^^ -s 2

theorem oneShares_xor (g : G) :
    oneShares d g 0 ^^^ oneShares d g 1 ^^^ oneShares d g 2 = 1 := by
  simp only [oneShares, Matrix.cons_val]
  generalize own d 1 g 0 = a
  generalize own d 1 (afterRandom d 1 g) 0 = b
  rw [BitVec.xor_assoc 1, BitVec.xor_comm 1, ← BitVec.xor_assoc, BitVec.xor_self, BitVec.zero_xor]

theorem oneMask_eq_allOnes_iff (g : G) :
    oneMask (oneShares d g) = BitVec.allOnes d.bits ↔ OneExtends (oneShares d g) :=
  neg_xor_eq_allOnes_iff (oneShares_xor g)

theorem ensures_sharedOne (hz : ZeroSharing d Good) (hg : Good g) :
    Ensures mode (fun i => (protocol d G i).secretShareB (fun _ : Fin 1 => (1 : Word d)) 0) g
      fun one g' _ => SharesOne layout (oneMask (oneShares d (g 0))) one ∧ Good g' := by
  have hshares := freshShares_restB (fun _ : Fin 1 => (1 : Word d)) (g 0) 0
  refine .of_yields (yields_secretShare_fresh restB (fun _ _ => 1) 0)
    ⟨⟨hshares, sharesB_of_xor (fun i => congrArg extendLsb (replicatedB_eq hshares i)) ?_⟩,
      hz.afterDeal hg 1 0⟩
  funext j
  obtain rfl := Subsingleton.elim j 0
  rfl

variable (mode) in
/-- What the aggregation leaves is decided by the scan. -/
theorem wholeColumn_finishes_iff (hz : ZeroMasks d Good) (hg : Good g) (t : Aggregation) (k : ℕ)
    (values results : List ℕ) (hd : Distinct t.kind [] values results) (reverse : Bool)
    (M : Fin 3 → Memory 2 (2 ^ k) d) (V : Column → Vec (2 ^ k) d)
    (hM : Memory.Shares layout (· ∈ values.map t.kind.column) M V) :
    Finishes mode (fun i => (oddEvenAggregation (protocol d G i) t.kind [] values results
        (t.function (protocol d G i)) reverse none (M i)).run (g i))
      (fun out _ => ∀ p ∈ values.zip results, ∃ z : Vec (2 ^ k) d,
        SharesC layout (t.kind.column p.2) (fun i => (out i).1 (t.kind.column p.2)) z ∧
        t.OfRows reverse (V (t.kind.column p.1)) z) ↔
      ∀ p ∈ values.zip results, t.OfRows reverse (V (t.kind.column p.1))
        (scan (t.blended (oneMask (oneShares d (g 0)))) (partners reverse k) (fun _ _ => True) k
          (V (t.kind.column p.1))) := by
  have hone : Ensures mode
      (fun i => (protocol d G i).secretShareB (fun _ : Fin 1 => (1 : Word d)) 0)
      g fun one g' _ => SharesOne layout (oneMask (oneShares d (g 0))) one ∧ Good g' :=
    ensures_sharedOne hz.toZeroSharing hg
  have hscan := ensures_wholeColumn (correctBits hz) hone t hM rfl
    (fun v hv => List.mem_map_of_mem hv) hd reverse (roomForRounds_zero _)
  refine hscan.finishes_iff (fun i => ownedBy_oddEvenAggregation (ownedBy_protocol i) _ _ _ _
    (t.ownedBy_function (ownedBy_protocol i)) _ _ _) fun out h hout => forall₂_congr fun p hp => ?_
  constructor
  · rintro ⟨z, hz, hrows⟩
    exact @Shares.unique (Word d) (Column.ring d _) _ _ _ _ layout _ _ _ hz (hout p hp) ▸ hrows
  · exact fun hrows => ⟨_, hout p hp, hrows⟩

/-- **Without keys the whole column is aggregated**, whatever the values, exactly for the sum, for
one row, or where the components of the shared one extend it. -/
theorem wholeColumn_aggregates_iff (hz : ZeroMasks d Good) (hg : Good g) (t : Aggregation) (k : ℕ)
    (values results : List ℕ) (hvalues : values ≠ []) (hd : Distinct t.kind [] values results)
    (reverse : Bool) :
    (∀ (M : Fin 3 → Memory 2 (2 ^ k) d) (V : Column → Vec (2 ^ k) d),
      Memory.Shares layout (· ∈ values.map t.kind.column) M V →
      Finishes mode (fun i => (oddEvenAggregation (protocol d G i) t.kind [] values results
          (t.function (protocol d G i)) reverse none (M i)).run (g i))
        fun out _ => ∀ p ∈ values.zip results, ∃ z : Vec (2 ^ k) d,
          SharesC layout (t.kind.column p.2) (fun i => (out i).1 (t.kind.column p.2)) z ∧
          t.OfRows reverse (V (t.kind.column p.1)) z) ↔
      t = .sum ∨ k = 0 ∨ OneExtends (oneShares d (g 0)) := by
  rw [← oneMask_eq_allOnes_iff, ← Aggregation.ofRows_scan_iff t _ k reverse]
  constructor
  · intro h v
    obtain ⟨p, hp⟩ : ∃ p, p ∈ values.zip results := by
      obtain ⟨v₀, values, rfl⟩ := List.exists_cons_of_ne_nil hvalues
      obtain ⟨r₀, results, rfl⟩ : ∃ r₀ rs, results = r₀ :: rs := by
        refine List.exists_cons_of_ne_nil fun hr => ?_
        simpa [hr] using hd.length
      exact ⟨_, List.mem_cons_self⟩
    have hM : Memory.Shares layout (· ∈ values.map t.kind.column) (fun i _ => plain v i) fun _ =>
      v :=
      fun c _ => shares_plain c v
    exact (wholeColumn_finishes_iff mode hz hg t k values results hd reverse _ _ hM).mp (h _ _ hM)
      p hp
  · exact fun h M V hM =>
      (wholeColumn_finishes_iff mode hz hg t k values results hd reverse M V hM).mpr fun p _ => h _

/-- Components `0`, `0` and `1` extend the one. -/
theorem wholeColumn_aggregates_zeros : Finishes .rendezvous
    (fun i => (oddEvenAggregation (protocol .int8_t (Streams .int8_t) i) .bSharedVector [] [0] [1]
      (maxAggregation (protocol .int8_t (Streams .int8_t) i)) true none
      (fun _ => plain ![3, -7, 5, 1] i)).run (zeroStreams .int8_t i))
    fun out _ => ∀ p ∈ [(0, 1)], ∃ z : Vec 4 .int8_t,
      SharesC layout (.b p.2) (fun i => (out i).1 (.b p.2)) z ∧
      Aggregation.max.OfRows true ![3, -7, 5, 1] z :=
  (wholeColumn_aggregates_iff zeroMasks_streams zeroStreams_zero .max 2 [0] [1] (by decide)
    ⟨by decide, rfl, by decide, by decide⟩ true).mpr (.inr (.inr (by decide))) _
      (fun _ => ![3, -7, 5, 1]) fun c _ => shares_plain c _

/-- Party `0` draws the components `0` and `2`, so that the third is `3`. -/
def drawsTwo (i : Fin 3) : Streams .int8_t :=
  ⟨fun _ _ => 0, ![fun t => if t = 0 then 0 else 2, 0, 0] i⟩

theorem drawsTwo_zero : ZeroStreams drawsTwo := fun _ _ _ => rfl

/-- The maximum of `0` and `4` is then lost. -/
theorem wholeColumn_loses_four : ¬ Finishes .rendezvous
    (fun i => (oddEvenAggregation (protocol .int8_t (Streams .int8_t) i) .bSharedVector [] [0] [0]
      (maxAggregation (protocol .int8_t (Streams .int8_t) i)) false none
      (fun _ => plain ![0, 4] i)).run (drawsTwo i))
    (fun out _ => ∀ p ∈ [(0, 0)], ∃ z : Vec 2 .int8_t,
      SharesC layout (.b p.2) (fun i => (out i).1 (.b p.2)) z ∧
      Aggregation.max.OfRows false ![0, 4] z) := by
  have hiff := wholeColumn_finishes_iff .rendezvous zeroMasks_streams drawsTwo_zero .max 1 [0] [0]
    ⟨by decide, rfl, by decide, by decide⟩ false (fun i _ => plain ![0, 4] i) (fun _ => ![0, 4])
    fun c _ => shares_plain c _
  intro h
  have hzero := hiff.mp h (0, 0) (by simp) 0
  have hfour := Aggregation.Of.absorbs (t := .max) nofun hzero (r := 1) (by decide)
  exact absurd hfour (by decide)

end Tva.Replicated3pc
