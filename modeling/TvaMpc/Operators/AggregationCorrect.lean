import TvaMpc.Machinery.Scan
import TvaMpc.Operators.Aggregation
import Mathlib.Order.Bounds.Basic

/-!
# Operators/AggregationCorrect — the aggregation is a scan

A round combines every row with its partner, if their keys are equal and both are selected
(`ensures_aggregationRound`).  So the whole aggregation is the scan of Machinery/Scan, under the
links of the keys and the selection (`ensures_oddEvenAggregation`).
-/

namespace Tva.Operators

open Machinery

variable {N ρ n m dist least : ℕ} {d : DataType} {G : Type}

/-! ## The rows at a distance -/

/-- A row, and the row `dist` further on. -/
def firstRow (k : Fin (n - dist)) : Fin n := ⟨k, lt_of_lt_of_le k.isLt (Nat.sub_le _ _)⟩

def secondRow (k : Fin (n - dist)) : Fin n := ⟨k + dist, by omega⟩

theorem shows_firstRows (hd : dist ≤ n) :
    (firstRows n dist).Shows (firstRow : Fin (n - dist) → Fin n) := by
  refine ⟨?_, fun k => ?_⟩
  · rw [firstRows, VectorData.simpleSubsetReference, VectorData.size, VectorData.size, Int.tdiv_one]
    omega
  · rw [firstRows, VectorData.simpleSubsetReference, VectorData.index, VectorData.index, mul_one,
      zero_add]
    rfl

theorem shows_secondRows (hn : 0 < n) (hd : dist ≤ n) :
    (secondRows n dist).Shows (secondRow : Fin (n - dist) → Fin n) := by
  refine ⟨?_, fun k => ?_⟩
  · simp only [secondRows, VectorData.simpleSubsetReferenceFrom, VectorData.size, Int.tdiv_one]
    omega
  · rw [secondRows, VectorData.simpleSubsetReferenceFrom, VectorData.index, VectorData.index,
      mul_one, add_comm]
    exact (Int.natCast_add _ _).symm

theorem firstRow_injective : Function.Injective (firstRow : Fin (n - dist) → Fin n) :=
  fun _ _ h => Fin.ext (Fin.mk.inj_iff.mp h)

theorem secondRow_injective : Function.Injective (secondRow : Fin (n - dist) → Fin n) :=
  fun _ _ h => Fin.ext (Nat.add_right_cancel (Fin.mk.inj_iff.mp h))

theorem ahead_firstRow (k : Fin (n - dist)) :
    ahead dist (firstRow k : Fin n) = some (secondRow k) := ahead_eq_some.mpr rfl

theorem behind_secondRow (k : Fin (n - dist)) :
    behind dist (secondRow k : Fin n) = some (firstRow k) := behind_eq_some.mpr rfl

theorem ahead_of_ne {j : Fin n} (hj : ∀ k : Fin (n - dist), firstRow k ≠ j) :
    ahead dist j = none := by
  rw [ahead_eq_none]
  by_contra hlt
  exact hj ⟨j, by omega⟩ rfl

theorem behind_of_ne {j : Fin n} (hj : ∀ k : Fin (n - dist), secondRow k ≠ j) :
    behind dist j = none := by
  rw [behind_eq_none]
  by_contra hge
  exact hj ⟨j - dist, by omega⟩ (Fin.ext (Nat.sub_add_cancel (not_lt.mp hge)))

/-- The partners of a round. -/
def partnerAt (reverse : Bool) (dist : ℕ) : Fin n → Option (Fin n) :=
  if reverse then behind dist else ahead dist

/-! ## The operations -/

/-- The signed maximum. -/
def smax (x y : Word d) : Word d := if x.slt y then y else x

/-- The signed minimum. -/
def smin (x y : Word d) : Word d := if x.slt y then x else y

theorem toInt_smax (x y : Word d) : (smax x y).toInt = max x.toInt y.toInt := by
  rw [smax]
  split
  · rw [max_eq_right (BitVec.slt_iff_toInt_lt.mp ‹_›).le]
  · rw [max_eq_left (not_lt.mp fun h => ‹¬_› (BitVec.slt_iff_toInt_lt.mpr h))]

theorem toInt_smin (x y : Word d) : (smin x y).toInt = min x.toInt y.toInt := by
  rw [smin]
  split
  · rw [min_eq_left (BitVec.slt_iff_toInt_lt.mp ‹_›).le]
  · rw [min_eq_right (not_lt.mp fun h => ‹¬_› (BitVec.slt_iff_toInt_lt.mpr h))]

theorem smax_comm (x y : Word d) : smax x y = smax y x :=
  BitVec.eq_of_toInt_eq (by rw [toInt_smax, toInt_smax, max_comm])

theorem smin_comm (x y : Word d) : smin x y = smin y x :=
  BitVec.eq_of_toInt_eq (by rw [toInt_smin, toInt_smin, min_comm])

theorem smax_self (x : Word d) : smax x x = x := by rw [smax, ite_self]

theorem smin_self (x : Word d) : smin x x = x := by rw [smin, ite_self]

/-! ## A round on one column -/

section Round

variable [NeZero ρ] {layout : Fin N → Fin ρ → Fin N} {P : Fin N → Protocol N ρ d G}
variable {dataParty : Fin N → Prop} {Good : (Fin N → G) → Prop} {mode : SendMode}
variable {g : Fin N → G} {Live : Column → Prop} {M : Fin N → Memory ρ n d} {V : Column → Vec n d}
variable {op : Word d → Word d → Word d} {link : Fin n → Fin n → Prop} [DecidableRel link]
variable {bit : Fin (n - dist) → Bool} {c : Column} {z : Fin N → EVector ρ (n - dist) d}

/-- Writing the combined rows to the first ones. -/
theorem shares_scan_first (hM : Memory.Shares layout Live M V) (hc : Live c) (hd : dist ≤ n)
    (hbit : ∀ k, bit k = true ↔ link (firstRow k) (secondRow k))
    (hz : SharesC layout c z fun k =>
      if bit k then op (V c (firstRow k)) (V c (secondRow k)) else V c (firstRow k)) :
    Memory.Shares layout Live (fun i => (M i).write ⟨c, firstRows n dist⟩ (z i))
      (Function.update V c (scanStep op (ahead dist) link (V c))) := by
  refine hM.write hc (shows_firstRows hd) firstRow_injective hz (fun k => ?_) fun j hj => ?_
  · rw [scanStep_some (ahead_firstRow k)]
    exact if_congr (hbit k).symm rfl rfl
  · exact scanStep_none (ahead_of_ne hj)

/-- Writing them to the second ones. -/
theorem shares_scan_second (hM : Memory.Shares layout Live M V) (hc : Live c) (hn : 0 < n)
    (hd : dist ≤ n) (hbit : ∀ k, bit k = true ↔ link (secondRow k) (firstRow k))
    (hz : SharesC layout c z fun k =>
      if bit k then op (V c (secondRow k)) (V c (firstRow k)) else V c (secondRow k)) :
    Memory.Shares layout Live (fun i => (M i).write ⟨c, secondRows n dist⟩ (z i))
      (Function.update V c (scanStep op (behind dist) link (V c))) := by
  refine hM.write hc (shows_secondRows hn hd) secondRow_injective hz (fun k => ?_) fun j hj => ?_
  · rw [scanStep_some (behind_secondRow k)]
    exact if_congr (hbit k).symm rfl rfl
  · exact scanStep_none (behind_of_ne hj)

/-- What the functions of a round are given: the bits of the links, as their kind needs them. -/
def SVector.SharesBits (layout : Fin N → Fin ρ → Fin N) (kind : SVector)
    (x : Fin N → EVector ρ m d) (b : Fin m → Bool) : Prop :=
  match kind with
  | .aSharedVector => SharesA layout x (bits d b)
  | .bSharedVector => SharesBit layout x b

/-- **The function of a round combines linked rows by `op`**, in every column that it is called
on. -/
def Combines (layout : Fin N → Fin ρ → Fin N) (least : ℕ) (Good : (Fin N → G) → Prop)
    (mode : SendMode) (kind : SVector) (op : Word d → Word d → Word d)
    (func : Fin N → AggregationFunction N ρ n d G) : Prop :=
  ∀ (dist : ℕ) (link : Fin n → Fin n → Prop) [DecidableRel link] (bit : Fin (n - dist) → Bool)
    (x : Fin N → EVector ρ (n - dist) d) (results : List ℕ) (reverse : Bool) (Live : Column → Prop)
    (M : Fin N → Memory ρ n d) (V : Column → Vec n d) (g : Fin N → G), 0 < n → dist ≤ n →
    least ≤ n - dist →
    (∀ r s, link r s → link s r) → (∀ k, bit k = true ↔ link (firstRow k) (secondRow k)) →
    kind.SharesBits layout x bit → results.Nodup → (∀ r ∈ results, Live (kind.column r)) →
    Memory.Shares layout Live M V → Good g →
    Ensures mode (fun i => func i (n - dist) dist (x i) (results.map kind.column) reverse (M i)) g
      fun M' g' _ => Memory.Shares layout Live M' (fun c => if c ∈ results.map kind.column then
        scanStep op (partnerAt reverse dist) link (V c) else V c) ∧ Good g'

theorem column_injective (kind : SVector) : Function.Injective kind.column := by
  cases kind
  exacts [fun _ _ h => Column.a.inj h, fun _ _ h => Column.b.inj h]

/-- **`sum_aggregation` adds.** -/
theorem combines_sum (hP : Protocol.Correct P layout least dataParty Good mode) :
    Combines layout least Good mode .aSharedVector (fun x y : Word d => x + y)
      (fun i => sumAggregation (n := n) (P i)) := by
  intro dist link _ bit x results reverse Live M V g hn hd hroom hsymm hbit hx hnodup hlive hM hg
  refine ensures_columns (hnodup.map (column_injective .aSharedVector)) (fun c hc M V g hM hg => ?_)
    hM hg
  obtain ⟨r, hr, rfl⟩ := List.mem_map.mp hc
  have hlive' := hlive r hr
  have hfirst : SharesA layout (fun i => (M i).read (n - dist) ⟨.a r, firstRows n dist⟩)
      fun k => V (.a r) (firstRow k) := hM.read hlive' (shows_firstRows hd)
  have hsecond : SharesA layout (fun i => (M i).read (n - dist) ⟨.a r, secondRows n dist⟩)
      fun k => V (.a r) (secondRow k) := hM.read hlive' (shows_secondRows hn hd)
  have hvalue : ∀ u v : Vec (n - dist) d,
      u + bits d bit * v = fun k => if bit k then u k + v k else u k := fun u v => by
    funext k
    change u k + Tva.bit d (bit k) * v k = _
    cases bit k with
    | true => rw [Tva.bit, if_pos rfl, if_pos rfl, one_mul]
    | false => rw [Tva.bit, if_neg Bool.false_ne_true, if_neg Bool.false_ne_true, zero_mul,
      add_zero]
  cases reverse with
  | false =>
    refine (hP.multiplyA hg hx hsecond hroom).bind fun z g' _ hz => ?_
    simp only [hP.addA]
    have hsum := hfirst.add hz.1
    rw [hvalue] at hsum
    exact Ensures.pure ⟨shares_scan_first hM hlive' hd hbit hsum, hz.2⟩
  | true =>
    refine (hP.multiplyA hg hx hfirst hroom).bind fun z g' _ hz => ?_
    simp only [hP.addA]
    have hsum := hsecond.add hz.1
    rw [hvalue] at hsum
    exact Ensures.pure ⟨shares_scan_second hM hlive' hn hd
      (fun k => (hbit k).trans ⟨hsymm _ _, hsymm _ _⟩) hsum, hz.2⟩

/-- The operation of `max_aggregation` with its parameter. -/
def extremum (minAggr : Bool) : Word d → Word d → Word d := if minAggr then smin else smax

theorem extremum_comm (minAggr : Bool) (x y : Word d) : extremum minAggr x y =
    extremum minAggr y x := by
  cases minAggr
  exacts [smax_comm x y, smin_comm x y]

theorem extremum_self (minAggr : Bool) (x : Word d) : extremum minAggr x x = x := by
  cases minAggr
  exacts [smax_self x, smin_self x]

/-- What the code chooses by the comparison bit, which it negates for minima. -/
theorem choose_extremum (minAggr : Bool) (x y : Word d) :
    (if (minAggr ^^ x.slt y) then y else x) = extremum minAggr x y := by
  cases minAggr <;> cases h : x.slt y <;> simp [extremum, smax, smin, h]

/-- **A round of `max_aggregation` on one column**, whatever the group bits `x` choose by. -/
theorem ensures_maxColumn (hP : Protocol.KeepsBits P layout least dataParty Good mode)
    (minAggr : Bool) {x : Fin N → EVector ρ (n - dist) d} (bit : Fin (n - dist) → Bool)
    (choose : Fin (n - dist) → Word d → Word d → Word d)
    (hchoose : ∀ {g : Fin N → G} {y y' : Fin N → EVector ρ (n - dist) d} {u v : Vec (n - dist) d},
      Good g → SharesB layout y u → SharesB layout y' v →
      Ensures mode (fun i => multiplexB (P i) (x i) (y i) (y' i)) g fun z g' _ =>
        SharesB layout z (fun k => choose k (u k) (v k)) ∧ Good g')
    (hop : ∀ k u v, choose k u (extremum minAggr u v) = if bit k then op u v else u)
    (hsymm : ∀ r s, link r s → link s r)
    (hbit : ∀ k, bit k = true ↔ link (firstRow k) (secondRow k)) (hn : 0 < n) (hd : dist ≤ n)
    (reverse : Bool) {r : ℕ} (hlive : Live (.b r)) (hM : Memory.Shares layout Live M V)
    (hg : Good g) (hroom : least ≤ n - dist) :
    Ensures mode (fun i => maxColumn (P i) minAggr (n - dist) dist (x i) reverse (M i) (.b r)) g
      fun M' g' _ => Memory.Shares layout Live M' (Function.update V (.b r)
        (scanStep op (partnerAt reverse dist) link (V (.b r)))) ∧ Good g' := by
  have hfirst : SharesB layout (fun i => (M i).read (n - dist) ⟨.b r, firstRows n dist⟩)
      fun k => V (.b r) (firstRow k) := hM.read hlive (shows_firstRows hd)
  have hsecond : SharesB layout (fun i => (M i).read (n - dist) ⟨.b r, secondRows n dist⟩)
      fun k => V (.b r) (secondRow k) := hM.read hlive (shows_secondRows hn hd)
  refine (hP.ensures_gt hg hsecond hfirst hroom).bind fun greater g₁ _ hgreater => ?_
  have hchosen : SharesBit layout
      (fun i => if minAggr then (P i).notB1 (greater i) else greater i)
      fun k => minAggr ^^ (V (.b r) (firstRow k)).slt (V (.b r) (secondRow k)) := by
    cases minAggr with
    | false => simpa using hgreater.1
    | true => simpa using hP.notB1 hgreater.1
  refine (ensures_multiplexB hP.toCorrect hgreater.2 hchosen hfirst hsecond hroom).bind
    fun best g₂ _ hbest => ?_
  simp only [choose_extremum] at hbest
  cases reverse with
  | false =>
    refine (hchoose hbest.2 hfirst hbest.1).bind fun z g₃ _ hz => ?_
    simp only [hop] at hz
    exact Ensures.pure ⟨shares_scan_first hM hlive hd hbit hz.1, hz.2⟩
  | true =>
    refine (hchoose hbest.2 hsecond hbest.1).bind fun z g₃ _ hz => ?_
    simp only [extremum_comm minAggr (V (.b r) (firstRow _)), hop] at hz
    exact Ensures.pure ⟨shares_scan_second hM hlive hn hd
      (fun k => (hbit k).trans ⟨hsymm _ _, hsymm _ _⟩) hz.1, hz.2⟩

/-- **`max_aggregation` and `min_aggregation`** take the signed maximum and minimum. -/
theorem combines_max (hP : Protocol.KeepsBits P layout least dataParty Good mode) (minAggr : Bool) :
    Combines layout least Good mode .bSharedVector (extremum minAggr)
      (fun i => maxAggregationWith (n := n) (P i) minAggr) := by
  intro dist link _ bit x results reverse Live M V g hn hd hroom hsymm hbit hx hnodup hlive hM hg
  refine ensures_columns (hnodup.map (column_injective .bSharedVector)) (fun c hc M V g hM hg => ?_)
    hM hg
  obtain ⟨r, hr, rfl⟩ := List.mem_map.mp hc
  exact ensures_maxColumn hP minAggr bit (fun k u v => if bit k then v else u)
    (fun hg hy hy' => ensures_multiplexB hP.toCorrect hg hx hy hy' hroom) (fun _ _ _ => rfl) hsymm
    hbit hn hd reverse (hlive r hr) hM hg hroom

end Round

/-! ## The links of a round -/

section Links

variable [NeZero ρ] {layout : Fin N → Fin ρ → Fin N} {P : Fin N → Protocol N ρ d G}
variable {dataParty : Fin N → Prop} {Good : (Fin N → G) → Prop} {mode : SendMode}
variable {g : Fin N → G} {Live : Column → Prop} {M : Fin N → Memory ρ n d} {V : Column → Vec n d}
variable {keys : List ℕ} {b : Fin n → Bool} {sel : Option (Fin N → EVector ρ n d)}

/-- Equal keys. -/
def sameKeys (keys : List ℕ) (V : Column → Vec n d) (r s : Fin n) : Prop :=
  ∀ key ∈ keys, V (.b key) r = V (.b key) s

instance (keys : List ℕ) (V : Column → Vec n d) : DecidableRel (sameKeys keys V) :=
  fun _ _ => inferInstanceAs (Decidable (∀ _ ∈ _, _))

/-- **Two rows are linked** if their keys are equal and both are selected. -/
def linked (keys : List ℕ) (V : Column → Vec n d) (b : Fin n → Bool) (r s : Fin n) : Prop :=
  sameKeys keys V r s ∧ b r = true ∧ b s = true

instance (keys : List ℕ) (V : Column → Vec n d) (b : Fin n → Bool) :
    DecidableRel (linked keys V b) :=
  fun _ _ => inferInstanceAs (Decidable (_ ∧ _))

theorem linked_symm (r s : Fin n) (h : linked keys V b r s) : linked keys V b s r :=
  ⟨fun key hk => (h.1 key hk).symm, h.2.2, h.2.1⟩

theorem linked_trans (r s t : Fin n) (h : linked keys V b r s) (h' : linked keys V b s t) :
    linked keys V b r t :=
  ⟨fun key hk => (h.1 key hk).trans (h'.1 key hk), h.2.1, h'.2.2⟩

/-- Groups and links depend on the keys only. -/
theorem sameKeys_congr {V' : Column → Vec n d} (h : ∀ key ∈ keys, V' (.b key) = V (.b key)) :
    sameKeys keys V' = sameKeys keys V := by
  funext r s
  refine propext (forall₂_congr fun key hk => ?_)
  rw [h key hk]

theorem linked_congr {V' : Column → Vec n d} (h : ∀ key ∈ keys, V' (.b key) = V (.b key)) :
    linked keys V' b = linked keys V b := by
  funext r s
  rw [linked, linked, sameKeys_congr h]

/-- The bits `b` are the selection, where there is one. -/
def Selects (layout : Fin N → Fin ρ → Fin N) (sel : Option (Fin N → EVector ρ n d))
    (b : Fin n → Bool) : Prop :=
  match sel with
  | none => ∀ r, b r = true
  | some x => SharesBit layout x b

theorem ensures_keyBits (hP : Protocol.KeepsBits P layout least dataParty Good mode) (hg : Good g)
    (hM : Memory.Shares layout Live M V) (hn : 0 < n) (hd : dist ≤ n) (hkeys : keys ≠ [])
    (hlive : ∀ key ∈ keys, Live (.b key)) (sharedOne : Fin N → EVector ρ 1 d)
    (hroom : least ≤ n - dist) :
    Ensures mode (fun i => keyBits (P i) (n - dist) dist keys (sharedOne i) (M i)) g fun z g' _ =>
      SharesBit layout z (fun k => decide (sameKeys keys V (firstRow k) (secondRow k))) ∧
        Good g' := by
  obtain ⟨key₀, keys, rfl⟩ := List.exists_cons_of_ne_nil hkeys
  have hone : ∀ key ∈ key₀ :: keys, ∀ {g}, Good g → Ensures mode (fun i =>
      (P i).eq ((M i).read (n - dist) ⟨.b key, firstRows n dist⟩)
        ((M i).read (n - dist) ⟨.b key, secondRows n dist⟩)) g fun z g' _ =>
      SharesBit layout z (fun k => decide (V (.b key) (firstRow k) = V (.b key) (secondRow k)))
        ∧ Good g' := fun key hk g hg =>
    hP.ensures_eq hg (hM.read (hlive key hk) (shows_firstRows hd))
      (hM.read (hlive key hk) (shows_secondRows hn hd)) hroom
  simp only [keyBits]
  refine (hone key₀ List.mem_cons_self hg).bind fun first g₁ _ h₁ => ?_
  refine (Ensures.foldlM (fun pre z g => SharesBit layout z (fun k => decide
    (sameKeys (key₀ :: pre) V (firstRow k) (secondRow k))) ∧ Good g) keys ?_ ?_).mono
      fun _ _ _ => id
  · simpa [sameKeys] using h₁
  · rintro pre key hpre z g' ⟨hz, hg'⟩
    have hk : key ∈ key₀ :: keys := .tail _ (hpre.subset (by simp))
    refine (hone key hk hg').bind fun z' g₂ _ hz' => ?_
    refine (hP.andK hz'.2 hz hz'.1 hroom).mono fun z'' g₃ _ hz'' => ?_
    have hvalue : (fun k : Fin (n - dist) => decide (sameKeys (key₀ :: (pre ++ [key])) V
          (firstRow k) (secondRow k)))
        = fun k => decide (sameKeys (key₀ :: pre) V (firstRow k) (secondRow k))
          && decide (V (.b key) (firstRow k) = V (.b key) (secondRow k)) := by
      funext k
      rw [← Bool.decide_and]
      refine decide_eq_decide.mpr ?_
      simp only [sameKeys, ← List.cons_append, List.forall_mem_append, List.forall_mem_singleton]
    rw [hvalue]
    exact hz''

theorem ensures_selectBits (hP : Protocol.KeepsBits P layout least dataParty Good mode)
    (hg : Good g) (hn : 0 < n) (hd : dist ≤ n) (hsel : Selects layout sel b)
    {x : Fin N → EVector ρ (n - dist) d} {a : Fin (n - dist) → Bool} (hx : SharesBit layout x a)
    (hroom : least ≤ n - dist) :
    Ensures mode (fun i => selectBits (P i) (n - dist) dist (sel.map (· i)) (x i)) g fun z g' _ =>
      SharesBit layout z (fun k => a k && b (firstRow k) && b (secondRow k)) ∧ Good g' := by
  cases sel with
  | none =>
    have hb : ∀ r, b r = true := hsel
    simp only [hb, Bool.and_true]
    exact Ensures.pure ⟨hx, hg⟩
  | some y =>
    have hy : SharesBit layout y b := hsel
    have hfirst : SharesBit layout (fun i k => (firstRows n dist).read (n - dist) (y i k))
        fun k => b (firstRow k) := by
      simp only [(shows_firstRows hd).read]
      exact hy.comp firstRow
    have hsecond : SharesBit layout (fun i k => (secondRows n dist).read (n - dist) (y i k))
        fun k => b (secondRow k) := by
      simp only [(shows_secondRows hn hd).read]
      exact hy.comp secondRow
    refine (hP.andK hg hx hfirst hroom).bind fun z g₁ _ hz => ?_
    exact (hP.andK hz.2 hz.1 hsecond hroom).mono fun _ _ _ => id

theorem ensures_autoConversion (hP : Protocol.Correct P layout least dataParty Good mode)
    (hg : Good g) (kind : SVector) {x : Fin N → EVector ρ m d} {a : Fin m → Bool}
    (hx : SharesBit layout x a) :
    Ensures mode (fun i => autoConversion (P i) kind (x i)) g fun z g' _ =>
      kind.SharesBits layout z a ∧ Good g' := by
  cases kind with
  | aSharedVector =>
    refine (hP.b2aBit hg hx.shares).mono fun z g' _ hz => ?_
    rw [lowBit_bits] at hz
    exact hz
  | bSharedVector => exact Ensures.pure ⟨hx, hg⟩

/-- **A round is one round of the scan.** -/
theorem ensures_aggregationRound (hP : Protocol.KeepsBits P layout least dataParty Good mode)
    {kind : SVector} {op : Word d → Word d → Word d} {func : Fin N → AggregationFunction N ρ n d G}
    (hfunc : Combines layout least Good mode kind op func) (hg : Good g)
    (hM : Memory.Shares layout Live M V) (hn : 0 < n) (hd : dist ≤ n) (hkeys : keys ≠ [])
    (hlive : ∀ key ∈ keys, Live (.b key)) (hsel : Selects layout sel b) {results : List ℕ}
    (hresults : results.Nodup) (hlive' : ∀ r ∈ results, Live (kind.column r)) (reverse : Bool)
    (sharedOne : Fin N → EVector ρ 1 d) (hroom : least ≤ n - dist) :
    Ensures mode (fun i => aggregationRound (P i) kind keys results (func i) reverse
        (sel.map (· i)) (sharedOne i) dist (M i)) g fun M' g' _ =>
      Memory.Shares layout Live M' (fun c => if c ∈ results.map kind.column then
        scanStep op (partnerAt reverse dist) (linked keys V b) (V c) else V c) ∧ Good g' := by
  refine (ensures_keyBits hP hg hM hn hd hkeys hlive sharedOne hroom).bind fun x g₁ _ hx => ?_
  refine (ensures_selectBits hP hx.2 hn hd hsel hx.1 hroom).bind fun y g₂ _ hy => ?_
  refine (ensures_autoConversion hP.toCorrect hy.2 kind hy.1).bind fun z g₃ _ hz => ?_
  refine (hfunc dist (linked keys V b) _ z results reverse Live M V g₃ hn hd hroom linked_symm
    (fun k => ?_) hz.1 hresults hlive' hM hz.2).mono fun _ _ _ => id
  simp [linked, and_assoc]

end Links

/-! ## The whole aggregation -/

section Whole

variable [NeZero ρ] {layout : Fin N → Fin ρ → Fin N} {P : Fin N → Protocol N ρ d G}
variable {dataParty : Fin N → Prop} {Good : (Fin N → G) → Prop} {mode : SendMode}
variable {g : Fin N → G} {Live : Column → Prop} {M : Fin N → Memory ρ n d} {V : Column → Vec n d}
variable {keys values results : List ℕ} {kind : SVector}

/-- Columns of one kind are shared alike. -/
theorem sharesC_column (kind : SVector) (i j : ℕ) {x : Fin N → EVector ρ n d} {v : Vec n d} :
    SharesC layout (kind.column i) x v ↔ SharesC layout (kind.column j) x v := by
  cases kind <;> exact Iff.rfl

/-- **Which objects the aggregation may be given**: as many results as values, at least one,
pairwise distinct, each of them the same as its values, or none of the values and of the keys. -/
structure Distinct (kind : SVector) (keys values results : List ℕ) : Prop where
  nonempty : values ≠ []
  length : values.length = results.length
  nodup : results.Nodup
  fresh : ∀ p ∈ values.zip results, p.1 = p.2 ∨
    p.2 ∉ values ∧ kind.column p.2 ∉ keys.map Column.b

namespace Distinct

variable (hd : Distinct kind keys values results)
include hd

theorem asserted : values.length > 0 ∧ results.length > 0 :=
  ⟨List.length_pos_iff.mpr hd.nonempty, hd.length ▸ List.length_pos_iff.mpr hd.nonempty⟩

theorem map_snd : (values.zip results).map Prod.snd = results := List.map_snd_zip hd.length.ge

theorem map_fst : (values.zip results).map Prod.fst = values := List.map_fst_zip hd.length.le

/-- A result has one column of values. -/
theorem unique {p q : ℕ × ℕ} (hp : p ∈ values.zip results) (hq : q ∈ values.zip results)
    (h : p.2 = q.2) : p = q := by
  have hnodup : ((values.zip results).map Prod.snd).Nodup := hd.map_snd.symm ▸ hd.nodup
  exact List.inj_on_of_nodup_map hnodup hp hq h

end Distinct

/-- **After the deep assignments** every result holds its values, and nothing else has changed. -/
theorem shares_copyValues (hd : Distinct kind keys values results)
    (hM : Memory.Shares layout Live M V) (hlive : ∀ v ∈ values, Live (kind.column v)) :
    ∃ V', Memory.Shares layout (fun c => Live c ∨ c ∈ results.map kind.column)
        (fun i => copyValues kind values results (M i)) V' ∧
      (∀ p ∈ values.zip results, V' (kind.column p.2) = V (kind.column p.1)) ∧
      ∀ c ∉ results.map kind.column, V' c = V c := by
  suffices h : ∀ ps, ps <+: values.zip results → ∃ V', Memory.Shares layout
      (fun c => Live c ∨ c ∈ ps.map fun p => kind.column p.2)
      (fun i => ps.foldl (fun M vr => if vr.1 ≠ vr.2 then
        Function.update M (kind.column vr.2) (M (kind.column vr.1)) else M) (M i)) V' ∧
      (∀ p ∈ ps, V' (kind.column p.2) = V (kind.column p.1)) ∧
      ∀ c ∉ ps.map (fun p => kind.column p.2), V' c = V c by
    have hall := h _ (List.prefix_refl _)
    have hmap : (values.zip results).map (fun p => kind.column p.2) = results.map kind.column := by
      rw [← hd.map_snd, List.map_map, hd.map_snd]
      rfl
    rw [hmap] at hall
    exact hall
  intro ps
  induction ps using List.reverseRecOn with
  | nil => exact fun _ =>
    ⟨V, fun c hc => hM c (hc.resolve_right (by simp)), by simp, fun _ _ => rfl⟩
  | append_singleton ps p ih =>
    intro hpre
    obtain ⟨V', hV', hvalues, hother⟩ := ih ((List.prefix_append ps [p]).trans hpre)
    have hp : p ∈ values.zip results := hpre.subset (by simp)
    have hmem : ∀ q ∈ ps, q ∈ values.zip results := fun q hq => hpre.subset (by simp [hq])
    have hpv : p.1 ∈ values := by
      rw [← hd.map_fst]
      exact List.mem_map_of_mem hp
    -- the values of `p` are as they were
    have hsource : V' (kind.column p.1) = V (kind.column p.1) := by
      by_cases hc : kind.column p.1 ∈ ps.map fun p => kind.column p.2
      · obtain ⟨q, hq, he⟩ := List.mem_map.mp hc
        have he' : q.2 = p.1 := column_injective kind he
        have hsame : q.1 = q.2 := (hd.fresh q (hmem q hq)).resolve_right fun h => h.1 (he' ▸ hpv)
        rw [← he', hvalues q hq, hsame]
      · exact hother _ hc
    have hpq : ∀ q ∈ ps, kind.column q.2 ≠ kind.column p.2 := by
      intro q hq he
      have hnodup : ((ps ++ [p]).map Prod.snd).Nodup :=
        List.Nodup.sublist (hpre.sublist.map Prod.snd) (hd.map_snd.symm ▸ hd.nodup)
      rw [List.map_append, List.nodup_append] at hnodup
      exact hnodup.2.2 q.2 (List.mem_map_of_mem hq) p.2 (by simp) (column_injective kind he)
    simp only [List.foldl_append, List.foldl_cons, List.foldl_nil]
    by_cases hne : p.1 ≠ p.2
    · simp only [if_pos hne]
      refine ⟨Function.update V' (kind.column p.2) (V' (kind.column p.1)), fun c hc => ?_,
        fun q hq => ?_, fun c hc => ?_⟩
      · refine hV'.assign ((sharesC_column kind p.1 p.2).mp (hV' _ (.inl (hlive _ hpv)))) c ?_
        rcases hc with hc | hc
        · exact .inr (.inl hc)
        · rw [List.map_append, List.mem_append, List.map_singleton, List.mem_singleton] at hc
          exact hc.elim (fun h => .inr (.inr h)) .inl
      · rcases List.mem_append.mp hq with hq | hq
        · rw [Function.update_of_ne (hpq q hq)]
          exact hvalues q hq
        · obtain rfl := List.mem_singleton.mp hq
          rw [Function.update_self, hsource]
      · rw [List.map_append, List.mem_append, not_or, List.map_singleton, List.mem_singleton] at hc
        rw [Function.update_of_ne hc.2]
        exact hother c hc.1
    · simp only [if_neg hne]
      refine ⟨V', fun c hc => hV' c ?_, fun q hq => ?_, fun c hc => hother c fun h => hc ?_⟩
      · rcases hc with hc | hc
        · exact .inl hc
        · rw [List.map_append, List.mem_append, List.map_singleton, List.mem_singleton] at hc
          rcases hc with h | rfl
          · exact .inr h
          · exact .inl (not_not.mp hne ▸ hlive _ hpv)
      · rcases List.mem_append.mp hq with hq | hq
        · exact hvalues q hq
        · obtain rfl := List.mem_singleton.mp hq
          rw [← not_not.mp hne]
          exact hsource
      · rw [List.map_append]
        exact List.mem_append_left _ h

/-- The partners of all rounds. -/
def partners (reverse : Bool) (k i : ℕ) : Fin n → Option (Fin n) :=
  if reverse then back i else forth k i

theorem partnerAt_roundDistance {k i : ℕ} (hn : n = 2 ^ k) (hi : i < k) (reverse : Bool) :
    roundDistance n reverse (i + 1) ≤ n ∧
      (partnerAt reverse (roundDistance n reverse (i + 1)) : Fin n → Option (Fin n))
        = partners reverse k i := by
  subst hn
  refine ⟨?_, ?_⟩
  · rw [roundDistance]
    split
    exacts [Nat.pow_le_pow_right two_pos hi.le, Nat.div_le_self _ _]
  · cases reverse with
    | false =>
      change ahead (2 ^ k / 2 ^ (i + 1)) = ahead (2 ^ (k - (i + 1)))
      rw [Nat.pow_div hi two_pos]
    | true => rfl

/-- **The rounds scan** the results, whose links stay, if every round does. -/
theorem ensures_rounds (op : Word d → Word d → Word d) (link : Fin n → Fin n → Prop)
    [DecidableRel link] {func : Fin N → AggregationFunction N ρ n d G} {reverse : Bool}
    {sel : Fin N → Option (EVector ρ n d)} {one : Fin N → EVector ρ 1 d} {k : ℕ} (hn : n = 2 ^ k)
    (hd : Distinct kind keys values results) (hg : Good g) {V' : Column → Vec n d}
    (hM : Memory.Shares layout (fun c => Live c ∨ c ∈ results.map kind.column) M V')
    (hvalues : ∀ p ∈ values.zip results, V' (kind.column p.2) = V (kind.column p.1))
    (hother : ∀ c ∉ results.map kind.column, V' c = V c)
    (hround : ∀ i dist (M : Fin N → Memory ρ n d) (V' : Column → Vec n d) (g : Fin N → G),
      dist ≤ n → Memory.Shares layout (fun c => Live c ∨ c ∈ results.map kind.column) M V' →
      (∀ p ∈ values.zip results, V' (kind.column p.2)
        = scan op (partners reverse k) link i (V (kind.column p.1))) →
      (∀ c ∉ results.map kind.column, V' c = V c) → Good g → least ≤ n - dist →
      Ensures mode (fun j =>
          aggregationRound (P j) kind keys results (func j) reverse (sel j) (one j)
          dist (M j)) g fun M' g' _ =>
        Memory.Shares layout (fun c => Live c ∨ c ∈ results.map kind.column) M'
          (fun c => if c ∈ results.map kind.column then
            scanStep op (partnerAt reverse dist) link (V' c) else V' c) ∧ Good g')
    (hroom : RoomForRounds least n) :
    Ensures mode (fun j =>
        (List.range k).foldlM (fun M i => aggregationRound (P j) kind keys results
        (func j) reverse (sel j) (one j) (roundDistance n reverse (i + 1)) M) (M j)) g
        fun M' g' _ =>
      (∃ V', Memory.Shares layout (fun c => Live c ∨ c ∈ results.map kind.column) M' V' ∧
        (∀ p ∈ values.zip results, V' (kind.column p.2)
          = scan op (partners reverse k) link k (V (kind.column p.1))) ∧
        ∀ c ∉ results.map kind.column, V' c = V c) ∧ Good g' := by
  refine (Ensures.foldlM_range (fun i M g => ∃ V', Memory.Shares layout
      (fun c => Live c ∨ c ∈ results.map kind.column) M V' ∧
    (∀ p ∈ values.zip results, V' (kind.column p.2)
      = scan op (partners reverse k) link i (V (kind.column p.1))) ∧
    (∀ c ∉ results.map kind.column, V' c = V c) ∧ Good g) k ?_ fun i hi M' g' hinv => ?_).mono
      fun M' g' _ hend => ?_
  · exact ⟨V', hM, hvalues, hother, hg⟩
  · obtain ⟨V', hM', hscan, hother', hg'⟩ := hinv
    obtain ⟨hdist, hpartner⟩ := partnerAt_roundDistance hn hi reverse
    have hlog : i < Nat.log 2 n := by rwa [hn, Nat.log_pow one_lt_two]
    refine (hround i _ M' V' g' hdist hM' hscan hother' hg' (hroom.round hlog reverse)).mono
      fun M'' g'' _ h => ?_
    refine ⟨_, h.1, fun p hp => ?_, fun c hc => ?_, h.2⟩
    · have hr : kind.column p.2 ∈ results.map kind.column := by
        rw [← hd.map_snd]
        exact List.mem_map_of_mem (List.mem_map_of_mem hp)
      rw [if_pos hr, hpartner, hscan p hp, scan]
    · rw [if_neg hc, hother' c hc]
  · obtain ⟨V', hM', hscan, hother', hg'⟩ := hend
    exact ⟨⟨V', hM', hscan, hother'⟩, hg'⟩

/-- **The aggregation is a scan**: every result holds the scan of its values, under the links of the
keys and the selection, and nothing else has changed.  A result that is a key must be combined by
an operation under which equal elements stay. -/
theorem ensures_oddEvenAggregation_bits [NeZero N] (hdata : dataParty 0)
    (hP : Protocol.KeepsBits P layout least dataParty Good mode) {op : Word d → Word d → Word d}
    {func : Fin N → AggregationFunction N ρ n d G}
    (hfunc : Combines layout least Good mode kind op func)
    (hg : Good g) (hM : Memory.Shares layout Live M V) {k : ℕ} (hn : n = 2 ^ k) (hkeys : keys ≠ [])
    (hliveKeys : ∀ key ∈ keys, Live (.b key)) (hliveValues : ∀ v ∈ values, Live (kind.column v))
    (hd : Distinct kind keys values results)
    (hop : ∀ r ∈ results, kind.column r ∈ keys.map Column.b → ∀ x, op x x = x) (reverse : Bool)
    {sel : Option (Fin N → EVector ρ n d)} {b : Fin n → Bool} (hsel : Selects layout sel b)
    (hroom : RoomForRounds least n) :
    Ensures mode (fun i => oddEvenAggregation (P i) kind keys values results (func i) reverse
        (sel.map (· i)) (M i)) g fun M' g' _ =>
      (∃ V', Memory.Shares layout (fun c => Live c ∨ c ∈ results.map kind.column) M' V' ∧
        (∀ p ∈ values.zip results, V' (kind.column p.2)
          = scan op (partners reverse k) (linked keys V b) k (V (kind.column p.1))) ∧
        ∀ c ∉ results.map kind.column, V' c = V c) ∧ Good g' := by
  obtain ⟨V₀, hM₀, hvalues, hother⟩ := shares_copyValues hd hM hliveValues
  have hpos : 0 < n := hn ▸ Nat.two_pow_pos k
  have hlog : Nat.log 2 n = k := by rw [hn, Nat.log_pow one_lt_two]
  simp only [oddEvenAggregation, asserting_eq hd.asserted, hlog]
  refine (hP.secretShareB hdata hg).bind fun one g₁ _ hone => ?_
  refine ensures_rounds op (linked keys V b) hn hd hone.2 hM₀ hvalues hother
    (fun i dist M' V' g' hdist hM' hscan hother' hg' hrows => ?_) hroom
  -- the keys are as they were: a key that is a result is a scan of itself
  have hkeep : ∀ key ∈ keys, V' (.b key) = V (.b key) := by
    intro key hk
    by_cases hc : Column.b key ∈ results.map kind.column
    · obtain ⟨r, hr, he⟩ := List.mem_map.mp hc
      rw [← hd.map_snd] at hr
      obtain ⟨p, hp, rfl⟩ := List.mem_map.mp hr
      have hsame : p.1 = p.2 := (hd.fresh p hp).resolve_right fun h =>
        h.2 (he ▸ List.mem_map_of_mem hk)
      rw [← he, hscan p hp, hsame]
      have hr' : p.2 ∈ results := by
        rw [← hd.map_snd]
        exact List.mem_map_of_mem hp
      refine scan_const (hop p.2 hr' (he ▸ List.mem_map_of_mem hk)) (fun r s hlink => ?_) i
      rw [he]
      exact hlink.1 key hk
    · exact hother' _ hc
  have hround := ensures_aggregationRound hP hfunc hg' hM' hpos hdist hkeys
    (fun key hk => .inl (hliveKeys key hk)) hsel hd.nodup
    (fun r hr => .inr (List.mem_map_of_mem hr)) reverse one hrows
  have hlinks : linked keys V' b = linked keys V b := linked_congr hkeep
  refine hround.mono fun M'' g'' _ h => ⟨?_, h.2⟩
  convert h.1 using 4
  rw [hlinks]

/-- With a protocol that sets bits, too. -/
theorem ensures_oddEvenAggregation [NeZero N] (hdata : dataParty 0)
    (hP : Protocol.CorrectBits P layout least dataParty Good mode) {op : Word d → Word d → Word d}
    {func : Fin N → AggregationFunction N ρ n d G}
    (hfunc : Combines layout least Good mode kind op func)
    (hg : Good g) (hM : Memory.Shares layout Live M V) {k : ℕ} (hn : n = 2 ^ k) (hkeys : keys ≠ [])
    (hliveKeys : ∀ key ∈ keys, Live (.b key)) (hliveValues : ∀ v ∈ values, Live (kind.column v))
    (hd : Distinct kind keys values results)
    (hop : ∀ r ∈ results, kind.column r ∈ keys.map Column.b → ∀ x, op x x = x) (reverse : Bool)
    {sel : Option (Fin N → EVector ρ n d)} {b : Fin n → Bool} (hsel : Selects layout sel b)
    (hroom : RoomForRounds least n) :
    Ensures mode (fun i => oddEvenAggregation (P i) kind keys values results (func i) reverse
        (sel.map (· i)) (M i)) g fun M' g' _ =>
      (∃ V', Memory.Shares layout (fun c => Live c ∨ c ∈ results.map kind.column) M' V' ∧
        (∀ p ∈ values.zip results, V' (kind.column p.2)
          = scan op (partners reverse k) (linked keys V b) k (V (kind.column p.1))) ∧
        ∀ c ∉ results.map kind.column, V' c = V c) ∧ Good g' :=
  ensures_oddEvenAggregation_bits hdata hP.keepsBits hfunc hg hM hn hkeys hliveKeys hliveValues hd
    hop reverse hsel hroom

end Whole

/-! ## The aggregates -/

/-- The functions that the aggregation is called with. -/
inductive Aggregation where
  | sum
  | max
  | min

namespace Aggregation

/-- The kind of vectors that a function aggregates. -/
def kind : Aggregation → SVector
  | sum => .aSharedVector
  | max | min => .bSharedVector

/-- The function itself. -/
def function (P : Protocol N ρ d G) : Aggregation → AggregationFunction N ρ n d G
  | sum => sumAggregation P
  | max => maxAggregation P
  | min => minAggregation P

/-- The operation on the elements. -/
def op : Aggregation → Word d → Word d → Word d
  | sum => fun x y => x + y
  | max => extremum false
  | min => extremum true

/-- **The aggregate of the elements at `s`**: their sum modulo the width, or their signed maximum or
minimum. -/
def Of (t : Aggregation) (v : Vec n d) (s : Finset (Fin n)) (x : Word d) : Prop :=
  match t with
  | sum => x = ∑ r ∈ s, v r
  | max => IsGreatest ((fun r => (v r).toInt) '' s) x.toInt
  | min => IsLeast ((fun r => (v r).toInt) '' s) x.toInt

theorem of_singleton (t : Aggregation) (v : Vec n d) (r : Fin n) : t.Of v {r} (v r) := by
  cases t with
  | sum => exact (Finset.sum_singleton v r).symm
  | max =>
    rw [Of, Finset.coe_singleton, Set.image_singleton]
    exact isGreatest_singleton
  | min =>
    rw [Of, Finset.coe_singleton, Set.image_singleton]
    exact isLeast_singleton

theorem of_union (t : Aggregation) (v : Vec n d) (s s' : Finset (Fin n)) (x x' : Word d)
    (hdisj : Disjoint s s') (h : t.Of v s x) (h' : t.Of v s' x') : t.Of v (s ∪ s') (t.op x x') := by
  cases t with
  | sum =>
    obtain rfl : x = ∑ r ∈ s, v r := h
    obtain rfl : x' = ∑ r ∈ s', v r := h'
    exact (Finset.sum_union hdisj).symm
  | max =>
    have hmax : (op max x x').toInt = Max.max x.toInt x'.toInt := toInt_smax x x'
    rw [Of, Finset.coe_union, Set.image_union, hmax]
    exact IsGreatest.union h h'
  | min =>
    have hmin : (op min x x').toInt = Min.min x.toInt x'.toInt := toInt_smin x x'
    rw [Of, Finset.coe_union, Set.image_union, hmin]
    exact IsLeast.union h h'

/-- **Every function combines the elements of linked rows.** -/
theorem combines_bits [NeZero ρ] {layout : Fin N → Fin ρ → Fin N} {P : Fin N → Protocol N ρ d G}
    {dataParty : Fin N → Prop} {Good : (Fin N → G) → Prop} {mode : SendMode} (t : Aggregation)
    (hP : Protocol.KeepsBits P layout least dataParty Good mode) :
    Combines layout least Good mode t.kind t.op (fun i => t.function (n := n) (P i)) := by
  cases t
  exacts [combines_sum hP.toCorrect, combines_max hP false, combines_max hP true]

theorem combines [NeZero ρ] {layout : Fin N → Fin ρ → Fin N} {P : Fin N → Protocol N ρ d G}
    {dataParty : Fin N → Prop} {Good : (Fin N → G) → Prop} {mode : SendMode} (t : Aggregation)
    (hP : Protocol.CorrectBits P layout least dataParty Good mode) :
    Combines layout least Good mode t.kind t.op (fun i => t.function (n := n) (P i)) :=
  t.combines_bits hP.keepsBits

theorem ownedBy_function {P : Protocol N ρ d G} {i : Fin N} (hP : Protocol.OwnedBy i P)
    (t : Aggregation) (m dist : ℕ) (bits : EVector ρ m d) (cols : List Column) (reverse : Bool)
    (M : Memory ρ n d) : OwnedBy i (t.function P m dist bits cols reverse M) := by
  cases t
  exacts [ownedBy_sumAggregation hP _ _ _ _ _ _, ownedBy_maxAggregationWith hP _ _ _ _ _ _ _,
    ownedBy_maxAggregationWith hP _ _ _ _ _ _ _]

/-- **A scan holds the aggregates of what is reached.** -/
theorem of_scan (t : Aggregation) (v : Vec n d) (link : Fin n → Fin n → Prop) [DecidableRel link]
    (reverse : Bool) {k i : ℕ} (hi : i ≤ k) (r : Fin n) :
    t.Of v (reach (partners reverse k) link i r) (scan t.op (partners reverse k) link i v r) := by
  refine scan_aggregate (t.of_union v) (fun j hj r s hs => ?_) (t.of_singleton v) hi r
  cases reverse
  exacts [reach_forth_disjoint hj hs, reach_back_disjoint hs]

end Aggregation

/-- The rows of the key group of `r` from `r` on, or up to `r`. -/
def groupRows (keys : List ℕ) (V : Column → Vec n d) (reverse : Bool) (r : Fin n) :
    Finset (Fin n) :=
  Finset.univ.filter fun s => sameKeys keys V r s ∧ if reverse then s ≤ r else r ≤ s

/-- Rows with equal keys are contiguous. -/
def KeysContiguous (keys : List ℕ) (V : Column → Vec n d) : Prop :=
  ∀ r s t : Fin n, r ≤ s → s ≤ t → sameKeys keys V r t → sameKeys keys V r s

instance (keys : List ℕ) (V : Column → Vec n d) : Decidable (KeysContiguous keys V) :=
  inferInstanceAs (Decidable (∀ r s t : Fin n, r ≤ s → s ≤ t → sameKeys keys V r t →
    sameKeys keys V r s))

theorem KeysContiguous.linked {keys : List ℕ} {V : Column → Vec n d} (h : KeysContiguous keys V) :
    Contiguous (linked keys V fun _ => true) where
  refl _ := ⟨fun _ _ => rfl, rfl, rfl⟩
  symm h := linked_symm _ _ h
  trans h h' := ⟨fun key hk => (h.1 key hk).trans (h'.1 key hk), rfl, rfl⟩
  between hrs hst hrt := ⟨h _ _ _ hrs hst hrt.1, rfl, rfl⟩

/-- **All rounds reach the group**, each row once. -/
theorem reach_groupRows {keys : List ℕ} {V : Column → Vec n d} (h : KeysContiguous keys V) {k : ℕ}
    (hn : n = 2 ^ k) (reverse : Bool) (r : Fin n) :
    reach (partners reverse k) (linked keys V fun _ => true) k r = groupRows keys V reverse r := by
  ext s
  rw [groupRows, Finset.mem_filter]
  cases reverse with
  | false =>
    refine (h.linked.reach_ahead hn).trans ?_
    simp [linked]
  | true =>
    refine (h.linked.reach_behind hn).trans ?_
    simp [linked]

end Tva.Operators
