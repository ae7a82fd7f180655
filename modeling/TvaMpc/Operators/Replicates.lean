import TvaMpc.Operators.Distinct
import TvaMpc.Protocols.Replicates

/-!
# Operators/Replicates — the operators on tables keep the copies equal

Views read and assign all copies of a vector alike, so every operator keeps a memory replicated,
with any number of rows, any keys, and the same vector under any number of names.
-/

namespace Tva

open Machinery

variable {N ρ n m least : ℕ} [NeZero ρ] {d : DataType} {G : Type} {layout : Fin N → Fin ρ → Fin N}

namespace Memory

/-- **Equal copies in all vectors.** -/
def Replicated (layout : Fin N → Fin ρ → Fin N) (M : Fin N → Memory ρ n d) : Prop :=
  ∀ c, Machinery.Replicated layout fun i => M i c

namespace Replicated

variable {M : Fin N → Memory ρ n d} (hM : Memory.Replicated layout M)
include hM

theorem read (m : ℕ) (r : Reference) : Machinery.Replicated layout fun i => (M i).read m r :=
  (hM r.column).map (r.data.read m)

theorem update (c : Column) {z : Fin N → EVector ρ n d} (hz : Machinery.Replicated layout z) :
    Memory.Replicated layout fun i => Function.update (M i) c (z i) := by
  intro c'
  by_cases h : c' = c
  · subst h
    simpa only [Function.update_self] using hz
  · simpa only [Function.update_of_ne h] using hM c'

theorem write (r : Reference) {z : Fin N → EVector ρ m d} (hz : Machinery.Replicated layout z) :
    Memory.Replicated layout fun i => (M i).write r (z i) :=
  hM.update r.column ((hM r.column).map₂ hz fun x w =>
    r.data.write (fun i => if h : i < m then w ⟨i, h⟩ else 0) x)

end Replicated

end Memory

namespace Operators

variable {P : Fin N → Protocol N ρ d G} {dataParty : Fin N → Prop} {Good : (Fin N → G) → Prop}
variable {mode : SendMode} {x y sel : Fin N → EVector ρ n d} {M : Fin N → Memory ρ n d}

section Replicates

variable (hP : Protocol.Replicates P layout least dataParty Good mode)
include hP

/-! ## Sorting -/

theorem keeps_multiplexB (hs : Replicated layout sel) (hx : Replicated layout x)
    (hy : Replicated layout y) (hn : least ≤ n) :
    Keeps mode Good (Replicated layout) fun i => multiplexB (P i) (sel i) (x i) (y i) := by
  have hmask := hs.map extendLsb
  exact (hP.andB (hP.notB hmask) hx hn).bind fun _ hl => (hP.andB hmask hy hn).bind fun _ hr =>
    .pure (hP.xorB hl hr)

theorem keeps_multiplexA (hs : Replicated layout sel) (hx : Replicated layout x)
    (hy : Replicated layout y) (hn : least ≤ n) :
    Keeps mode Good (Replicated layout) fun i => multiplexA (P i) (sel i) (x i) (y i) :=
  (hP.multiplyA hs hx hn).bind fun _ hl => (hP.multiplyA hs hy hn).bind fun _ hr =>
    .pure (hP.addA (hP.subA hx hl) hr)

theorem keeps_compare (hx : Replicated layout x) (hy : Replicated layout y)
    (hn : least ≤ n) :
    Keeps mode Good (ReplicatedPair layout) fun i => compare (P i) (x i) (y i) := by
  refine (hP.bitSame hx hy hn).bind fun same hsame => ?_
  have hshifted := (hsame.map (bitRightShift 1)).map (setBits ((1 : Word d) <<< (d.digits - 1)))
  refine (hP.andB hshifted (hP.notB hsame) hn).bind fun edge hedge => ?_
  refine (hP.andB hedge hx hn).bind fun bit hbit => ?_
  exact (hP.treatSigns hx hy (hbit.map bitXor) hn).bind fun _ hgt =>
    .pure ⟨hP.notB1 (hedge.map bitXor), hgt⟩

theorem keeps_compareKey (hx : Replicated layout x) (hy : Replicated layout y) (inverse : Bool)
    (hn : least ≤ n) :
    Keeps mode Good (ReplicatedPair layout) fun i => compareKey (P i) (x i) (y i) inverse := by
  cases inverse
  exacts [keeps_compare hP hx hy hn, keeps_compare hP hy hx hn]

theorem keeps_compareRows {X Y : Fin N → ℕ → EVector ρ m d} (hX : ∀ c, Replicated layout (X · c))
    (hY : ∀ c, Replicated layout (Y · c)) (columns : List ℕ) (inverse : List Bool)
    (hn : least ≤ m) :
    Keeps mode Good (Replicated layout) fun i =>
      compareRows (P i) (columns.map (X i)) (columns.map (Y i)) inverse := by
  have hzip : ∀ i, (columns.map (X i)).zip ((columns.map (Y i)).zip inverse)
      = (columns.zip inverse).map fun c => (X i c.1, Y i c.1, c.2) := by
    intro i
    induction columns generalizing inverse with
    | nil => rfl
    | cons c columns ih =>
      cases inverse with
      | nil => rfl
      | cons b inverse => exact congrArg _ (ih inverse)
  simp only [compareRows, hzip]
  cases columns.zip inverse with
  | nil => exact .pure (.const _)
  | cons key keys =>
    simp only [List.map_cons, List.foldlM_map]
    refine (keeps_compareKey hP (hX _) (hY _) _ hn).bind fun first hfirst => ?_
    refine (Keeps.foldlM (R := ReplicatedPair layout) keys hfirst ?_).bind fun _ hres =>
      .pure hres.2
    exact fun key _ eqGt h => (keeps_compareKey hP (hX _) (hY _) _ hn).bind fun _ hnew =>
      (hP.andB hnew.2 h.1 hn).bind fun _ hz => (hP.andB h.1 hnew.1 hn).bind fun _ heq =>
        .pure ⟨heq, hP.xorB h.2 hz⟩

theorem keeps_swapB (x y : List Reference) {bits : Fin N → EVector ρ m d}
    (hbits : Replicated layout bits) (hM : Memory.Replicated layout M)
    (hn : least ≤ m) :
    Keeps mode Good (Memory.Replicated layout) fun i => swapB (P i) x y (bits i) (M i) := by
  have hb := hbits.map extendLsb
  refine Keeps.foldlM _ hM fun r _ M hM => ?_
  have hx := hM.read m r.1
  have hy := hM.read m r.2
  exact (hP.andB hb hy hn).bind fun _ h₁ => (hP.andB (hP.notB hb) hx hn).bind fun _ h₂ =>
    (hP.andB hb hx hn).bind fun _ h₃ => (hP.andB (hP.notB hb) hy hn).bind fun _ h₄ =>
      .pure ((hM.write _ (hP.xorB h₃ h₄)).write _ (hP.xorB h₁ h₂))

theorem keeps_swapA (x y : List Reference) {bits : Fin N → EVector ρ m d}
    (hbits : Replicated layout bits) (hM : Memory.Replicated layout M)
    (hn : least ≤ m) :
    Keeps mode Good (Memory.Replicated layout) fun i => swapA (P i) x y (bits i) (M i) := by
  refine Keeps.foldlM _ hM fun r _ M hM => ?_
  have hx := hM.read m r.1
  have hy := hM.read m r.2
  exact (keeps_multiplexA hP hbits hx hy hn).bind fun _ htmp =>
    (keeps_multiplexA hP hbits hy hx hn).bind fun _ hnew => .pure ((hM.write _ hnew).write _ htmp)

theorem keeps_exchangeRows (m : ℕ) (left right : VectorData) (columns dataA dataB : List ℕ)
    (desc : List Bool) (hM : Memory.Replicated layout M) (hn : least ≤ m) :
    Keeps mode Good (Memory.Replicated layout) fun i =>
      exchangeRows (P i) m left right columns dataA dataB desc (M i) := by
  simp only [exchangeRows, List.map_map]
  refine (keeps_compareRows hP (X := fun i c => (M i).read m ⟨.b c, left⟩)
    (Y := fun i c => (M i).read m ⟨.b c, right⟩) (fun c => hM.read m _) (fun c => hM.read m _)
    columns desc hn).bind fun bits hbits => ?_
  refine (keeps_swapB hP _ _ hbits hM hn).bind fun M hM => ?_
  refine Keeps.bind (R := Memory.Replicated layout) ?_ fun M hM => ?_
  · simp only [swapDataB]
    split
    exacts [keeps_swapB hP _ _ hbits hM hn, .pure hM]
  · simp only [swapDataA]
    split
    exacts [(hP.b2aBit hbits).bind fun _ hA => keeps_swapA hP _ _ hA hM hn, .pure hM]

omit hP in
/-- At least half of the rows are left rows. -/
theorem le_leftRows {h : ℕ} (hh : 0 < h) : n ≤ 2 * (leftRows n (h : ℤ)).size.toNat := by
  have hview : leftRows n (h : ℤ) = .alternating (.vectorData n) h h := by
    rw [leftRows, VectorData.alternatingSubsetReference, if_pos (by omega)]
  have hsum : (h : ℤ) + h = (2 * h : ℕ) := by push_cast; ring
  have hmod := Nat.mod_lt n (show 0 < 2 * h by omega)
  have hsplit : n / (2 * h) * h * 2 + n % (2 * h) = n := by
    rw [Nat.mul_assoc, Nat.mul_comm h 2, Nat.div_add_mod']
  rw [hview, VectorData.size, VectorData.size, hsum, ← Int.ofNat_tdiv, ← Int.ofNat_tmod]
  generalize n % (2 * h) = r at *
  have hcast : ((n / (2 * h) : ℕ) : ℤ) * h = (n / (2 * h) * h : ℕ) := by push_cast; rfl
  rw [hcast]
  generalize n / (2 * h) * h = a at *
  omega

omit hP in
theorem RoomForRounds.leftRows (hroom : RoomForRounds least n) {i : ℕ} (hi : i < Nat.log 2 n)
    (j : ℕ) : least ≤ (leftRows n ((1 <<< (i - j) : ℕ) : ℤ)).size.toNat := by
  have hhalf := le_leftRows (n := n) (h := 1 <<< (i - j)) (by
    rw [Nat.shiftLeft_eq, Nat.one_mul]
    exact Nat.two_pow_pos _)
  have hn : 2 ≤ n := by
    by_contra hlt
    rw [Nat.log_of_lt (Nat.not_le.mp hlt)] at hi
    exact Nat.not_lt_zero _ hi
  rcases hroom with hone | hroom <;> omega

/-- **The sort.** -/
theorem keeps_bitonicSort (columns dataA dataB : List ℕ) (desc : List Bool)
    (hM : Memory.Replicated layout M) (hroom : RoomForRounds least n) :
    Keeps mode Good (Memory.Replicated layout) fun i =>
      bitonicSort (P i) columns dataA dataB desc (M i) := by
  refine Keeps.foldlM _ hM fun r hr M hM => Keeps.foldlM _ hM fun j _ M hM => ?_
  exact keeps_exchangeRows hP _ _ _ _ _ _ _ hM (hroom.leftRows (List.mem_range.mp hr) j)

/-! ## Aggregation -/

/-- Functions of a round that keep a memory replicated. -/
def KeepsRounds (layout : Fin N → Fin ρ → Fin N) (least : ℕ) (Good : (Fin N → G) → Prop)
    (mode : SendMode) (func : Fin N → AggregationFunction N ρ n d G) : Prop :=
  ∀ (m dist : ℕ) (bits : Fin N → EVector ρ m d) (results : List Column) (reverse : Bool)
    (M : Fin N → Memory ρ n d), least ≤ m → Replicated layout bits → Memory.Replicated layout M →
    Keeps mode Good (Memory.Replicated layout) fun i => func i m dist (bits i) results reverse (M i)

theorem keeps_sumAggregation :
    KeepsRounds layout least Good mode fun i => sumAggregation (n := n) (P i) := by
  intro m dist bits results reverse M hm hbits hM
  refine Keeps.foldlM _ hM fun c _ M hM => ?_
  have hfirst := hM.read m ⟨c, firstRows n dist⟩
  have hsecond := hM.read m ⟨c, secondRows n dist⟩
  simp only [sumColumn]
  split
  · exact (hP.multiplyA hbits hfirst hm).bind fun _ hz => .pure (hM.write _ (hP.addA hsecond hz))
  · exact (hP.multiplyA hbits hsecond hm).bind fun _ hz => .pure (hM.write _ (hP.addA hfirst hz))

theorem keeps_maxAggregationWith (minAggr : Bool) :
    KeepsRounds layout least Good mode fun i => maxAggregationWith (n := n) (P i) minAggr := by
  intro m dist bits results reverse M hm hbits hM
  refine Keeps.foldlM _ hM fun c _ M hM => ?_
  have hfirst := hM.read m ⟨c, firstRows n dist⟩
  have hsecond := hM.read m ⟨c, secondRows n dist⟩
  refine (hP.gt hsecond hfirst hm).bind fun greater hgreater => ?_
  have hchosen : Replicated layout fun i =>
      if minAggr then (P i).notB1 (greater i) else greater i := by
    cases minAggr
    exacts [hgreater, hP.notB1 hgreater]
  refine (keeps_multiplexB hP hchosen hfirst hsecond hm).bind fun best hbest => ?_
  split
  · exact (keeps_multiplexB hP hbits hsecond hbest hm).bind fun _ hz => .pure (hM.write _ hz)
  · exact (keeps_multiplexB hP hbits hfirst hbest hm).bind fun _ hz => .pure (hM.write _ hz)

omit hP in
theorem replicated_copyValues (kind : SVector) (values results : List ℕ)
    (hM : Memory.Replicated layout M) :
    Memory.Replicated layout fun i => copyValues kind values results (M i) := by
  simp only [copyValues]
  induction values.zip results generalizing M with
  | nil => exact hM
  | cons vr rest ih =>
    simp only [List.foldl_cons]
    refine ih (M := fun i => _) ?_
    split
    exacts [hM.update _ (hM _), hM]

theorem keeps_keyBits (m dist : ℕ) (keys : List ℕ) {one : Fin N → EVector ρ 1 d}
    (hone : Replicated layout one) (hM : Memory.Replicated layout M) (hn : least ≤ m) :
    Keeps mode Good (Replicated layout) fun i => keyBits (P i) m dist keys (one i) (M i) := by
  cases keys with
  | nil => exact .pure (hone.map (((VectorData.vectorData 1).repeatedSubsetReference m).read m))
  | cons key keys =>
    refine (hP.eq (hM.read m _) (hM.read m _) hn).bind fun _ hbits => ?_
    exact Keeps.foldlM _ hbits fun _ _ _ hbits =>
      (hP.eq (hM.read m _) (hM.read m _) hn).bind fun _ hbits' => hP.andB hbits hbits' hn

/-- No selection, or a replicated one. -/
def ReplicatedSelection (layout : Fin N → Fin ρ → Fin N) (selB : Fin N → Option (EVector ρ n d)) :
    Prop :=
  (∀ i, selB i = none) ∨ ∃ sel, Replicated layout sel ∧ ∀ i, selB i = some (sel i)

theorem keeps_selectBits (m dist : ℕ) {selB : Fin N → Option (EVector ρ n d)}
    (hsel : ReplicatedSelection layout selB) {bits : Fin N → EVector ρ m d}
    (hbits : Replicated layout bits) (hn : least ≤ m) :
    Keeps mode Good (Replicated layout) fun i => selectBits (P i) m dist (selB i) (bits i) := by
  rcases hsel with hnone | ⟨sel, hsel, hsome⟩
  · simp only [hnone, selectBits]
    exact .pure hbits
  · simp only [hsome, selectBits]
    exact (hP.andB hbits (hsel.map ((firstRows n dist).read m)) hn).bind fun _ hz =>
      hP.andB hz (hsel.map ((secondRows n dist).read m)) hn

/-- **The aggregation**, with any function that keeps a memory replicated. -/
theorem keeps_oddEvenAggregation [NeZero N] (hdata : dataParty 0) (kind : SVector)
    (keys values results : List ℕ) {func : Fin N → AggregationFunction N ρ n d G}
    (hfunc : KeepsRounds layout least Good mode func) (reverse : Bool)
    {selB : Fin N → Option (EVector ρ n d)} (hsel : ReplicatedSelection layout selB)
    (hM : Memory.Replicated layout M) (hvalues : values.length > 0 ∧ results.length > 0)
    (hroom : RoomForRounds least n) :
    Keeps mode Good (Memory.Replicated layout) fun i =>
      oddEvenAggregation (P i) kind keys values results (func i) reverse (selB i) (M i) := by
  simp only [oddEvenAggregation, asserting_eq hvalues]
  refine (hP.secretShareB hdata _).bind fun one hone => ?_
  refine Keeps.foldlM _ (replicated_copyValues kind values results hM) fun r hr M hM => ?_
  have hm := hroom.round (List.mem_range.mp hr) reverse
  refine (keeps_keyBits hP _ _ keys hone hM hm).bind fun _ hkey => ?_
  refine (keeps_selectBits hP _ _ hsel hkey hm).bind fun bits hbits => ?_
  refine Keeps.bind (R := Replicated layout) ?_ fun _ hA => hfunc _ _ _ _ _ _ hm hA hM
  cases kind
  exacts [hP.b2aBit hbits, .pure hbits]

/-! ## Marks -/

theorem keeps_differing (key : ℕ) (hM : Memory.Replicated layout M)
    (hn : least ≤ n - 1) :
    Keeps mode Good (Replicated layout) fun i => differing (P i) key (M i) :=
  hP.ne (hM.read _ _) (hM.read _ _) hn

/-- **`distinct`.** -/
theorem keeps_distinct [NeZero N] (hdata : dataParty 0) (keys : List ℕ) (res : ℕ)
    (hM : Memory.Replicated layout M) (hn : least ≤ n - 1) :
    Keeps mode Good (Memory.Replicated layout) fun i => distinct (P i) keys res (M i) := by
  cases keys with
  | nil => exact .pure hM
  | cons key keys =>
    refine (hP.secretShareB hdata _).bind fun _ hzero => ?_
    have hM₁ := hM.write ⟨.b res, (VectorData.vectorData n).simpleSubsetReference 0 1 0⟩
      (hzero.map (mask 1))
    refine (keeps_differing hP key hM₁ hn).bind fun _ hz => ?_
    refine Keeps.foldlM _ (hM₁.write _ hz) fun key _ M hM => ?_
    exact (keeps_differing hP key hM hn).bind fun _ hz =>
      (hP.andB (hM.read _ _) hz hn).bind fun _ hz' => .pure (hM.write _ hz')

omit hP in
theorem replicated_repeatedElement {z : Fin N → EVector ρ 1 d} (hz : Replicated layout z) :
    Replicated layout fun i => repeatedElement n (z i) :=
  hz.map (((VectorData.vectorData 1).repeatedSubsetReference n).read n)

omit hP in
/-- What is read behind the vector is overwritten. -/
theorem replicated_marks (c : Column) {one : Fin N → EVector ρ 1 d}
    {z : Fin N → EVector ρ (n - 1) d}
    (pastEnd : Fin N → Fin ρ → Word d) (hone : Replicated layout one) (hz : Replicated layout z)
    (hM : Memory.Replicated layout M) : Memory.Replicated layout fun i =>
      Memory.write (Function.update (M i) c (markFirst (one i) (pastEnd i) (M i c)))
        ⟨c, secondRows n 1⟩ (z i) := by
  simp only [Memory.write, Function.update_self, Function.update_idem]
  refine hM.update c ?_
  rcases Nat.eq_zero_or_pos n with rfl | hn
  · exact fun _ _ => Subsingleton.elim _ _
  · simp only [write_secondRows hn, markFirst_zero hn]
    exact (hone.map (mask 1)).map₂ hz fun a w j => Sum.elim (fun _ => a 0) w (startPlace j)

theorem keeps_markGapSession [NeZero N] (hdata : dataParty 0) (timestamp sessionStart : ℕ)
    (gap : Word d) (pastEnd : Fin N → Fin ρ → Word d) (hM : Memory.Replicated layout M)
    (hn : least ≤ n - 1) :
    Keeps mode Good (Memory.Replicated layout) fun i =>
      markGapSession (P i) timestamp sessionStart gap (pastEnd i) (M i) := by
  refine (hP.secretShareB hdata _).bind fun one hone => ?_
  refine (hP.secretShareA hdata _).bind fun gapVec hgap => ?_
  have hgaps := hP.subA (hP.addA ((hM (.a timestamp)).map ((firstRows n 1).read (n - 1)))
    (replicated_repeatedElement hgap)) ((hM (.a timestamp)).map ((secondRows n 1).read (n - 1)))
  exact (hP.a2b hgaps hn).bind fun _ hz => .pure (replicated_marks _ pastEnd hone (hP.ltz hz) hM)

theorem keeps_spreadMarks [NeZero N] (hdata : dataParty 0) (keys : List ℕ) (timestampB windowId : ℕ)
    {selB : Fin N → Option (EVector ρ n d)} (hsel : ReplicatedSelection layout selB)
    (hM : Memory.Replicated layout M) (hroom : RoomForRounds least n)
    (hrows : least ≤ n) :
    Keeps mode Good (Memory.Replicated layout) fun i =>
      spreadMarks (P i) keys timestampB windowId (selB i) (M i) := by
  refine (hP.secretShareB hdata _).bind fun _ hone => ?_
  refine (keeps_multiplexB hP (hM _) (replicated_repeatedElement hone) (hM _) hrows).bind
    fun _ hz => ?_
  exact keeps_oddEvenAggregation hP hdata _ _ _ _ (keeps_maxAggregationWith hP false) true hsel
    (hM.update _ hz) ⟨Nat.one_pos, Nat.one_pos⟩ hroom

/-- **The session windows.** -/
theorem keeps_gapSessionWindow [NeZero N] (hdata : dataParty 0) (keys : List ℕ)
    (timestampA timestampB windowId : ℕ) (gap : Word d) (pastEnd : Fin N → Fin ρ → Word d)
    (hM : Memory.Replicated layout M) (hroom : RoomForRounds least n)
    (hrows : least ≤ n - 1) :
    Keeps mode Good (Memory.Replicated layout) fun i =>
      gapSessionWindow (P i) keys timestampA timestampB windowId gap (pastEnd i) (M i) :=
  (keeps_markGapSession hP hdata timestampA windowId gap pastEnd hM hrows).bind fun _ hM =>
    keeps_spreadMarks hP hdata keys timestampB windowId (.inl fun _ => rfl) hM hroom (by omega)

theorem keeps_thresholdSessionWindow [NeZero N] (hdata : dataParty 0) (keys : List ℕ)
    (functionRes timestampB windowId : ℕ) (threshold : Word d) (hM : Memory.Replicated layout M)
    (hroom : RoomForRounds least n) (hrows : least ≤ n - 1) :
    Keeps mode Good (Memory.Replicated layout) fun i =>
      thresholdSessionWindow (P i) keys functionRes timestampB windowId threshold (M i) := by
  refine Keeps.bind (R := fun z => Replicated layout (fun i => (z i).1) ∧
    Memory.Replicated layout fun i => (z i).2) ?_ fun z hz =>
      keeps_spreadMarks hP hdata keys timestampB windowId (.inr ⟨_, hz.1, fun _ => rfl⟩) hz.2
        hroom (by omega)
  refine (hP.secretShareB hdata _).bind fun one hone => ?_
  refine (hP.gt (hM _) (replicated_repeatedElement hone) (by omega)).bind fun window hwindow => ?_
  have hsecond := hwindow.map ((secondRows n 1).read (n - 1))
  have hfirst := hwindow.map ((firstRows n 1).read (n - 1))
  exact (hP.andB hsecond (hP.xorB hsecond hfirst) hrows).bind
    fun _ hz => .pure ⟨hwindow, hM.write _ hz⟩

end Replicates

end Operators

end Tva
