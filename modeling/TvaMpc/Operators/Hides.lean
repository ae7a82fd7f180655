import TvaMpc.Operators.Distinct
import TvaMpc.Protocols.Hides

/-!
# Operators/Hides — which operators on tables hide their rows

The operators that keep to boolean shares hide what they work on: the row comparison and the sort of
boolean columns, maxima and minima, `distinct` and the session windows.  A sort that moves
arithmetic columns and an aggregation of them call `b2a_bit`, and are left out here.
-/

namespace Tva.Operators

open Machinery

variable {N ρ n m : ℕ} {d : DataType} {G J W : Type} {P : Fin N → Protocol N ρ d G}
variable {mode : SendMode} {tapes : (J → ℕ → W) → Fin N → G} {p : Fin N} {secret : J → Prop}
variable {x x' y y' sel sel' : Fin N → EVector ρ n d} {M M' : Fin N → Memory ρ n d}

section Hides

variable (hP : Protocol.Hides P mode tapes p secret)
include hP

/-! ## Sorting -/

theorem hides_multiplexB (hs : sel p = sel' p) (hx : x p = x' p) (hy : y p = y' p) :
    HidesAt mode tapes p secret (fun i => multiplexB (P i) (sel i) (x i) (y i))
      fun i => multiplexB (P i) (sel' i) (x' i) (y' i) := by
  refine (hP.andB ?_ hx).bind fun l l' hl => (hP.andB ?_ hy).bind fun r r' hr =>
    .pure (by rw [hl, hr])
  · rw [hs]
  · rw [hs]

theorem hides_compare (hx : x p = x' p) (hy : y p = y' p) :
    HidesAt mode tapes p secret (fun i => compare (P i) (x i) (y i))
      fun i => compare (P i) (x' i) (y' i) := by
  refine (hP.bitSame hx hy).bind fun same same' hsame => ?_
  refine (hP.andB ?_ ?_).bind fun edge edge' hedge => ?_
  · rw [hsame]
  · rw [hsame]
  refine (hP.andB hedge hx).bind fun bit bit' hbit => ?_
  refine (hP.treatSigns hx hy ?_).bind fun gt gt' hgt => .pure (by rw [hedge, hgt])
  rw [hbit]

theorem hides_compareKey (hx : x p = x' p) (hy : y p = y' p) (inverse : Bool) :
    HidesAt mode tapes p secret (fun i => compareKey (P i) (x i) (y i) inverse)
      fun i => compareKey (P i) (x' i) (y' i) inverse := by
  cases inverse
  exacts [hides_compare hP hx hy, hides_compare hP hy hx]

theorem hides_compareRows (X X' Y Y' : Fin N → ℕ → EVector ρ m d) (hX : X p = X' p)
    (hY : Y p = Y' p) (columns : List ℕ) (inverse : List Bool) :
    HidesAt mode tapes p secret
      (fun i => compareRows (P i) (columns.map (X i)) (columns.map (Y i)) inverse)
      fun i => compareRows (P i) (columns.map (X' i)) (columns.map (Y' i)) inverse := by
  have hzip : ∀ X Y : ℕ → EVector ρ m d, (columns.map X).zip ((columns.map Y).zip inverse)
      = (columns.zip inverse).map fun c => (X c.1, Y c.1, c.2) := by
    intro X Y
    induction columns generalizing inverse with
    | nil => rfl
    | cons c columns ih =>
      cases inverse with
      | nil => rfl
      | cons b inverse => exact congrArg _ (ih inverse)
  have hkey : ∀ c b, HidesAt mode tapes p secret (fun i => compareKey (P i) (X i c) (Y i c) b)
      fun i => compareKey (P i) (X' i c) (Y' i c) b := fun c b =>
    hides_compareKey hP (congrFun hX c) (congrFun hY c) b
  simp only [compareRows, hzip]
  cases columns.zip inverse with
  | nil => exact .pure rfl
  | cons key rest =>
    simp only [List.map_cons, List.foldlM_map]
    refine (hkey _ _).bind fun first first' hfirst => ?_
    refine (Hides.foldlM hfirst fun key _ z z' hz => ?_).bind fun res res' hres =>
      .pure (by rw [hres])
    refine (hkey _ _).bind fun new new' hnew => ?_
    refine (hP.andB ?_ ?_).bind fun gt gt' hgt => ?_
    · rw [hnew]
    · rw [hz]
    refine (hP.andB ?_ ?_).bind fun eq eq' heq => .pure (by rw [hz, hgt, heq])
    · rw [hz]
    · rw [hnew]

theorem hides_swapB (x y : List Reference) {bits bits' : Fin N → EVector ρ m d}
    (hbits : bits p = bits' p) (hM : M p = M' p) :
    HidesAt mode tapes p secret (fun i => swapB (P i) x y (bits i) (M i))
      fun i => swapB (P i) x y (bits' i) (M' i) := by
  refine Hides.foldlM hM fun r _ M M' hM => ?_
  refine (hP.andB ?_ ?_).bind fun l₁ l₁' h₁ => ?_
  · rw [hbits]
  · rw [hM]
  refine (hP.andB ?_ ?_).bind fun r₁ r₁' h₂ => ?_
  · rw [hbits]
  · rw [hM]
  refine (hP.andB ?_ ?_).bind fun l₂ l₂' h₃ => ?_
  · rw [hbits]
  · rw [hM]
  refine (hP.andB ?_ ?_).bind fun r₂ r₂' h₄ => .pure (by rw [hM, h₁, h₂, h₃, h₄])
  · rw [hbits]
  · rw [hM]

/-- A round of the sort, of boolean columns alone. -/
theorem hides_exchangeRows (m : ℕ) (left right : VectorData) (columns dataB : List ℕ)
    (desc : List Bool) (hM : M p = M' p) : HidesAt mode tapes p secret
      (fun i => exchangeRows (P i) m left right columns [] dataB desc (M i))
      fun i => exchangeRows (P i) m left right columns [] dataB desc (M' i) := by
  simp only [exchangeRows, List.map_map]
  have hrows : ∀ data, (fun c => (M p).read m ⟨.b c, data⟩) = fun c => (M' p).read m ⟨.b c, data⟩ :=
    fun data => by rw [hM]
  refine (hides_compareRows hP (fun i c => (M i).read m ⟨.b c, left⟩)
    (fun i c => (M' i).read m ⟨.b c, left⟩) (fun i c => (M i).read m ⟨.b c, right⟩)
    (fun i c => (M' i).read m ⟨.b c, right⟩) (hrows left) (hrows right) columns desc).bind
    fun bits bits' hbits => ?_
  refine (hides_swapB hP _ _ hbits hM).bind fun M M' hM => ?_
  refine Hides.bind ?_ fun M M' hM => .pure hM
  simp only [swapDataB]
  split
  exacts [hides_swapB hP _ _ hbits hM, .pure hM]

/-- **The sort of boolean columns.** -/
theorem hides_bitonicSort (columns dataB : List ℕ) (desc : List Bool) (hM : M p = M' p) :
    HidesAt mode tapes p secret (fun i => bitonicSort (P i) columns [] dataB desc (M i))
      fun i => bitonicSort (P i) columns [] dataB desc (M' i) :=
  Hides.foldlM hM fun _ _ _ _ hM => Hides.foldlM hM fun _ _ _ _ hM =>
    hides_exchangeRows hP _ _ _ _ _ _ hM

/-! ## Aggregation -/

/-- Functions of a round that hide the rows. -/
def HidesRounds (mode : SendMode) (tapes : (J → ℕ → W) → Fin N → G) (p : Fin N) (secret : J → Prop)
    (func : Fin N → AggregationFunction N ρ n d G) : Prop :=
  ∀ (m dist : ℕ) (bits bits' : Fin N → EVector ρ m d) (results : List Column) (reverse : Bool)
    (M M' : Fin N → Memory ρ n d), bits p = bits' p → M p = M' p →
    HidesAt mode tapes p secret (fun i => func i m dist (bits i) results reverse (M i))
      fun i => func i m dist (bits' i) results reverse (M' i)

theorem hides_maxAggregationWith (minAggr : Bool) :
    HidesRounds mode tapes p secret fun i => maxAggregationWith (n := n) (P i) minAggr := by
  intro m dist bits bits' results reverse M M' hbits hM
  refine Hides.foldlM hM fun c _ M M' hM => ?_
  simp only [maxColumn]
  refine (hP.gt ?_ ?_).bind fun greater greater' hgreater => ?_
  · rw [hM]
  · rw [hM]
  refine (hides_multiplexB hP ?_ ?_ ?_).bind fun best best' hbest => ?_
  · rw [hgreater]
  · rw [hM]
  · rw [hM]
  split
  · refine (hides_multiplexB hP hbits ?_ hbest).bind fun z z' hz => .pure (by rw [hM, hz])
    rw [hM]
  · refine (hides_multiplexB hP hbits ?_ hbest).bind fun z z' hz => .pure (by rw [hM, hz])
    rw [hM]

theorem hides_keyBits (m dist : ℕ) (keys : List ℕ) {one one' : Fin N → EVector ρ 1 d}
    (hone : one p = one' p) (hM : M p = M' p) :
    HidesAt mode tapes p secret (fun i => keyBits (P i) m dist keys (one i) (M i))
      fun i => keyBits (P i) m dist keys (one' i) (M' i) := by
  have heq : ∀ key, HidesAt mode tapes p secret
      (fun i => (P i).eq ((M i).read m ⟨.b key, firstRows n dist⟩)
        ((M i).read m ⟨.b key, secondRows n dist⟩))
      fun i => (P i).eq ((M' i).read m ⟨.b key, firstRows n dist⟩)
        ((M' i).read m ⟨.b key, secondRows n dist⟩) := fun key => hP.eq (by rw [hM]) (by rw [hM])
  cases keys with
  | nil => exact .pure (by rw [hone])
  | cons key keys =>
    exact (heq key).bind fun bits bits' hbits => Hides.foldlM hbits fun key _ bits bits' hbits =>
      (heq key).bind fun new new' hnew => hP.andB hbits hnew

theorem hides_selectBits (m dist : ℕ) {selB selB' : Option (Fin N → EVector ρ n d)}
    (hsel : selB.map (· p) = selB'.map (· p)) {bits bits' : Fin N → EVector ρ m d}
    (hbits : bits p = bits' p) :
    HidesAt mode tapes p secret (fun i => selectBits (P i) m dist (selB.map (· i)) (bits i))
      fun i => selectBits (P i) m dist (selB'.map (· i)) (bits' i) := by
  match selB, selB', hsel with
  | none, none, _ => exact .pure hbits
  | some sel, some sel', hsel =>
    have hsel : sel p = sel' p := Option.some.inj hsel
    have hread : ∀ data : VectorData, (fun k => data.read m (sel p k))
        = fun k => data.read m (sel' p k) := fun data => by rw [hsel]
    exact (hP.andB hbits (hread _)).bind fun z z' hz => hP.andB hz (hread _)

/-- **The aggregation of boolean columns**, with any function that hides the rows. -/
theorem hides_oddEvenAggregation [NeZero N] (keys values results : List ℕ)
    {func : Fin N → AggregationFunction N ρ n d G} (hfunc : HidesRounds mode tapes p secret func)
    (reverse : Bool) (selB selB' : Option (Fin N → EVector ρ n d))
    (hsel : selB.map (· p) = selB'.map (· p)) (hM : M p = M' p)
    (hvalues : values.length > 0 ∧ results.length > 0) :
    HidesAt mode tapes p secret
      (fun i => oddEvenAggregation (P i) .bSharedVector keys values results (func i) reverse
        (selB.map (· i)) (M i))
      fun i => oddEvenAggregation (P i) .bSharedVector keys values results (func i) reverse
        (selB'.map (· i)) (M' i) := by
  simp only [oddEvenAggregation, asserting_eq hvalues]
  refine (hP.secretShareB fun _ => rfl).bind fun one one' hone => ?_
  refine Hides.foldlM (by rw [hM]) fun _ _ M M' hM => ?_
  refine (hides_keyBits hP _ _ keys hone hM).bind fun bits bits' hbits => ?_
  exact (hides_selectBits hP _ _ hsel hbits).bind fun bits bits' hbits =>
    (Hides.pure hbits).bind fun bits bits' hbits => hfunc _ _ _ _ _ _ _ _ hbits hM

/-! ## Marks -/

theorem hides_differing (key : ℕ) (hM : M p = M' p) :
    HidesAt mode tapes p secret (fun i => differing (P i) key (M i))
      fun i => differing (P i) key (M' i) :=
  hP.ne (by rw [hM]) (by rw [hM])

/-- **`distinct`.** -/
theorem hides_distinct [NeZero N] (keys : List ℕ) (res : ℕ) (hM : M p = M' p) :
    HidesAt mode tapes p secret (fun i => distinct (P i) keys res (M i))
      fun i => distinct (P i) keys res (M' i) := by
  cases keys with
  | nil => exact .pure hM
  | cons key keys =>
    refine (hP.secretShareB fun _ => rfl).bind fun zero zero' hzero => ?_
    refine (hides_differing hP key ?_).bind fun z z' hz => ?_
    · rw [hM, hzero]
    refine Hides.foldlM (by rw [hM, hzero, hz]) fun key _ M M' hM => ?_
    refine (hides_differing hP key hM).bind fun z z' hz => ?_
    refine (hP.andB ?_ hz).bind fun z z' hz => .pure (by rw [hM, hz])
    rw [hM]

theorem hides_markGapSession [NeZero N] (timestamp sessionStart : ℕ) (gap : Word d)
    {pastEnd pastEnd' : Fin N → Fin ρ → Word d} (hpast : pastEnd p = pastEnd' p)
    (hM : M p = M' p) : HidesAt mode tapes p secret
      (fun i => markGapSession (P i) timestamp sessionStart gap (pastEnd i) (M i))
      fun i => markGapSession (P i) timestamp sessionStart gap (pastEnd' i) (M' i) := by
  refine (hP.secretShareB fun _ => rfl).bind fun one one' hone => ?_
  refine (hP.secretShareA fun _ => rfl).bind fun gaps gaps' hgaps => ?_
  refine (hP.a2b ?_).bind fun z z' hz => .pure (by rw [hM, hone, hpast, hz])
  rw [hM, hone, hgaps, hpast]

theorem hides_spreadMarks [NeZero N] (keys : List ℕ) (timestampB windowId : ℕ)
    (selB selB' : Option (Fin N → EVector ρ n d)) (hsel : selB.map (· p) = selB'.map (· p))
    (hM : M p = M' p) : HidesAt mode tapes p secret
      (fun i => spreadMarks (P i) keys timestampB windowId (selB.map (· i)) (M i))
      fun i => spreadMarks (P i) keys timestampB windowId (selB'.map (· i)) (M' i) := by
  refine (hP.secretShareB fun _ => rfl).bind fun one one' hone => ?_
  refine (hides_multiplexB hP ?_ ?_ ?_).bind fun z z' hz => ?_
  · rw [hM]
  · rw [hone]
  · rw [hM]
  exact hides_oddEvenAggregation hP keys _ _ (hides_maxAggregationWith hP false) true _ _ hsel
    (by rw [hM, hz]) ⟨Nat.one_pos, Nat.one_pos⟩

/-- **The session windows.** -/
theorem hides_gapSessionWindow [NeZero N] (keys : List ℕ) (timestampA timestampB windowId : ℕ)
    (gap : Word d) {pastEnd pastEnd' : Fin N → Fin ρ → Word d} (hpast : pastEnd p = pastEnd' p)
    (hM : M p = M' p) : HidesAt mode tapes p secret
      (fun i => gapSessionWindow (P i) keys timestampA timestampB windowId gap (pastEnd i) (M i))
      fun i => gapSessionWindow (P i) keys timestampA timestampB windowId gap (pastEnd' i) (M' i) :=
  (hides_markGapSession hP timestampA windowId gap hpast hM).bind fun _ _ hM =>
    hides_spreadMarks hP keys timestampB windowId none none rfl hM

theorem hides_thresholdSessionWindow [NeZero N] (keys : List ℕ)
    (functionRes timestampB windowId : ℕ) (threshold : Word d) (hM : M p = M' p) :
    HidesAt mode tapes p secret
      (fun i => thresholdSessionWindow (P i) keys functionRes timestampB windowId threshold (M i))
      fun i =>
        thresholdSessionWindow (P i) keys functionRes timestampB windowId threshold (M' i) := by
  have hmarks : HidesAt mode tapes p secret
      (fun i => markThresholdSession (P i) functionRes windowId threshold (M i))
      fun i => markThresholdSession (P i) functionRes windowId threshold (M' i) := by
    refine (hP.secretShareB fun _ => rfl).bind fun one one' hone => ?_
    refine (hP.gt ?_ ?_).bind fun window window' hwindow => ?_
    · rw [hM]
    · rw [hone]
    refine (hP.andB ?_ ?_).bind fun starts starts' hstarts => .pure (by rw [hwindow, hM, hstarts])
    · rw [hwindow]
    · rw [hwindow]
  exact hmarks.bind fun z z' hz => hides_spreadMarks hP keys timestampB windowId
    (some fun i => (z i).1) (some fun i => (z' i).1) (congrArg some (congrArg Prod.fst hz))
    (congrArg Prod.snd hz)

end Hides

end Tva.Operators
