import TvaMpc.Containers.SharedVectorAccesses
import TvaMpc.Operators.Aggregation

/-!
# Operators/TimeSeriesAccesses — which elements the time-series operators access

The operators assign to views of their results, whose lengths come from indices of last elements.
All of these lengths are right but one: `mark_gap_session` assigns one element to the first two.
-/

namespace Tva.Accesses

open Machinery Operators

variable {ρ : ℕ}

/-! ## The operators -/

/-- The functions that `odd_even_aggregation` gets. -/
inductive Aggregation where
  | sum
  | max
  | min

/-- What they aggregate. -/
def Aggregation.kind : Aggregation → SVector
  | sum => .aSharedVector
  | max => .bSharedVector
  | min => .bSharedVector

/-- A column that is aggregated: where its values are, and where the results go. -/
structure AggregatedColumn (ρ : ℕ) where
  value : EVectorShape ρ
  result : EVectorShape ρ
  /-- `values[i] != results[i]` -/
  different : Bool

namespace Setting

section Model

variable [NeZero ρ] (S : Setting ρ)

/-- The size of the first vector. -/
def firstSize : List (EVectorShape ρ) → ℤ
  | [] => 0
  | x :: _ => (x 0).size

/-- `first_vector != second_vector`, of a key's rows with the rows before. -/
def differing (key : EVectorShape ρ) : Accessing (EVectorShape ρ) :=
  S.ne (key.simpleSubsetReference 0 1 ((key 0).size - 2)) (key.simpleSubsetReferenceFrom 1 1)

/-- `distinct`, of at least one key. -/
def distinct (keys : List (EVectorShape ρ)) (res : EVectorShape ρ) : Accessing Unit :=
  match keys with
  | [] => return ()
  | key :: keys => do
      let zeroIndex := res.simpleSubsetReference 0 1 0
      let zero ← S.secretShareB (.new 1)
      let bit ← zero.unaryOp
      zeroIndex.assign bit
      let notZeroIndex := res.simpleSubsetReferenceFrom 1 1
      let z ← S.differing key
      notZeroIndex.assign z
      keys.forM fun key => do
        let z ← S.differing key
        let both ← S.andB notZeroIndex z
        notZeroIndex.assign both

/-- `mark_gap_session`. -/
def markGapSession (timestamp sessionStart : EVectorShape ρ) : Accessing Unit := do
  let one ← S.secretShareB (.new 1)
  let bit ← one.unaryOp
  (sessionStart.simpleSubsetReference 0 1 1).assign bit
  let sharedGapVec ← S.secretShareA (.new 1)
  let extended := sharedGapVec.repeatedSubsetReference ((timestamp 0).size - 1)
  let sum ← S.addA (timestamp.simpleSubsetReference 0 1 ((timestamp 0).size - 2)) extended
  let pairWiseGap ← S.subA sum (timestamp.simpleSubsetReferenceFrom 1 1)
  let pairWiseGapB ← S.a2b pairWiseGap
  let starts ← S.ltz pairWiseGapB
  (sessionStart.simpleSubsetReferenceFrom 1 1).assign starts

/-- `mark_threshold_session`. -/
def markThresholdSession (functionRes sessionStart potentialWindow : EVectorShape ρ) :
    Accessing Unit := do
  let shared ← S.secretShareB (.new 1)
  let z ← S.gt functionRes (shared.repeatedSubsetReference (functionRes 0).size)
  potentialWindow.assign z
  let second := potentialWindow.simpleSubsetReferenceFrom 1 1
  let changed ← S.xorB second
    (potentialWindow.simpleSubsetReference 0 1 ((potentialWindow 0).size - 2))
  let starts ← S.andB second changed
  (sessionStart.simpleSubsetReferenceFrom 1 1).assign starts

/-! ### `odd_even_aggregation` -/

/-- The round of `sum_aggregation` on one column. -/
def sumColumn (totalSize dist : ℤ) (groupBitsA : EVectorShape ρ) (reverse : Bool)
    (x : EVectorShape ρ) : Accessing Unit := do
  let first := x.simpleSubsetReference 0 1 (totalSize - dist - 1)
  let second := x.simpleSubsetReferenceFrom dist 1
  if reverse then do
    let product ← S.multiplyA groupBitsA first
    let sum ← S.addA second product
    second.assign sum
  else do
    let product ← S.multiplyA groupBitsA second
    let sum ← S.addA first product
    first.assign sum

/-- `if (min_aggr)`. -/
def negateWhen (minAggr : Bool) (secondGreater : EVectorShape ρ) : Accessing Unit :=
  if minAggr then do
    let negated ← S.notB1 secondGreater
    secondGreater.assign negated
  else return ()

/-- The round of `max_aggregation` on one column. -/
def maxColumn (minAggr : Bool) (totalSize dist : ℤ) (groupBits : EVectorShape ρ) (reverse : Bool)
    (x : EVectorShape ρ) : Accessing Unit := do
  let first := x.simpleSubsetReference 0 1 (totalSize - dist - 1)
  let second := x.simpleSubsetReferenceFrom dist 1
  let secondGreater ← S.gt second first
  S.negateWhen minAggr secondGreater
  let best ← S.multiplexB secondGreater first second
  if reverse then do
    let z ← S.multiplexB groupBits second best
    second.assign z
  else do
    let z ← S.multiplexB groupBits first best
    first.assign z

/-- `sum_aggregation`, `max_aggregation` and `min_aggregation`. -/
def aggregate (func : Aggregation) (dist : ℤ) (groupBits : EVectorShape ρ)
    (results : List (EVectorShape ρ)) (reverse : Bool) : Accessing Unit :=
  results.forM <| match func with
    | .sum => S.sumColumn (firstSize results) dist groupBits reverse
    | .max => S.maxColumn false (firstSize results) dist groupBits reverse
    | .min => S.maxColumn true (firstSize results) dist groupBits reverse

/-- `auto_conversion` of the group bits. -/
def autoConversion (kind : SVector) (x res : EVectorShape ρ) : Accessing Unit :=
  match kind with
  | .aSharedVector => do
      let z ← S.b2aBit x
      res.assign z
  | .bSharedVector => res.assign x

/-- `first_vector == second_vector`, of a key's rows at a distance. -/
def sameKey (totalSize dist : ℤ) (key : EVectorShape ρ) : Accessing (EVectorShape ρ) :=
  S.eq (key.simpleSubsetReference 0 1 (totalSize - dist - 1)) (key.simpleSubsetReferenceFrom dist 1)

/-- Which of the rows at the distance have equal keys. -/
def keyBits (totalSize dist : ℤ) (keys : List (EVectorShape ρ))
    (sharedOne groupBits : EVectorShape ρ) : Accessing Unit :=
  match keys with
  | [] => groupBits.assign (sharedOne.repeatedSubsetReference (groupBits 0).size)
  | key :: keys => do
      let z ← S.sameKey totalSize dist key
      groupBits.assign z
      keys.forM fun key => do
        let bits ← S.sameKey totalSize dist key
        let both ← S.andB groupBits bits
        groupBits.assign both

/-- `if (sel_b != NULL)`: both rows must be selected, too. -/
def selectBits (totalSize dist : ℤ) (selB : Option (EVectorShape ρ)) (groupBits : EVectorShape ρ) :
    Accessing Unit :=
  match selB with
  | none => return ()
  | some sel => do
      let first ← S.andB groupBits (sel.simpleSubsetReference 0 1 (totalSize - dist - 1))
      let both ← S.andB first (sel.simpleSubsetReferenceFrom dist 1)
      groupBits.assign both

/-- A round at a distance. -/
def aggregationRound (func : Aggregation) (keys results : List (EVectorShape ρ)) (reverse : Bool)
    (selB : Option (EVectorShape ρ)) (sharedOne : EVectorShape ρ) (totalSize dist : ℤ) :
    Accessing Unit := do
  let groupBits : EVectorShape ρ := .new (totalSize - dist)
  S.keyBits totalSize dist keys sharedOne groupBits
  S.selectBits totalSize dist selB groupBits
  let groupBitsA : EVectorShape ρ := .new (groupBits 0).size
  S.autoConversion func.kind groupBits groupBitsA
  S.aggregate func dist groupBitsA results reverse

/-- The deep assignments of `odd_even_aggregation` at its start. -/
def copyValues (columns : List (AggregatedColumn ρ)) : Accessing Unit :=
  columns.forM fun c => if c.different then c.result.assign c.value else return ()

/-- `odd_even_aggregation`. -/
def oddEvenAggregation (func : Aggregation) (keys : List (EVectorShape ρ))
    (columns : List (AggregatedColumn ρ)) (reverse : Bool) (selB : Option (EVectorShape ρ)) :
    Accessing Unit := do
  copyValues columns
  let totalSize := firstSize (columns.map (·.value))
  let sharedOne ← S.secretShareB (.new 1)
  (List.range (Nat.log 2 totalSize.toNat)).forM fun i =>
    S.aggregationRound func keys (columns.map (·.result)) reverse selB sharedOne totalSize
      (roundDistance totalSize.toNat reverse (i + 1))

/-! ### The windows -/

/-- What both windows do with the marks. -/
def spreadMarks (keys : List (EVectorShape ρ)) (timestampB windowId : EVectorShape ρ)
    (selB : Option (EVectorShape ρ)) : Accessing Unit := do
  let sharedMinusOne ← S.secretShareB (.new 1)
  let z ← S.multiplexB windowId (sharedMinusOne.repeatedSubsetReference (windowId 0).size)
    timestampB
  windowId.assign z
  S.oddEvenAggregation .max keys [⟨windowId, windowId, false⟩] true selB

/-- `gap_session_window`. -/
def gapSessionWindow (keys : List (EVectorShape ρ))
    (timestampA timestampB windowId : EVectorShape ρ) : Accessing Unit := do
  S.markGapSession timestampA windowId
  S.spreadMarks keys timestampB windowId none

/-- `threshold_session_window`. -/
def thresholdSessionWindow (keys : List (EVectorShape ρ))
    (functionRes timestampB windowId : EVectorShape ρ) : Accessing Unit := do
  let potentialWindow : EVectorShape ρ := .new (windowId 0).size
  S.markThresholdSession functionRes windowId potentialWindow
  S.spreadMarks keys timestampB windowId (some potentialWindow)

end Model

/-! ## What they access -/

section Spec

variable {S : Setting ρ} {least n : ℕ} {x y res : EVectorShape ρ}

/-- The rows with a row before them. -/
theorem whole_after (hn : 0 < n) (hx : x.Whole n) :
    (x.simpleSubsetReferenceFrom 1 1).Whole (n - 1) := hx.rowsFrom hn hn

/-- The rows with a row at the distance after them. -/
theorem whole_first {dist : ℕ} (hd : dist ≤ n) (hx : x.Whole n) :
    (x.simpleSubsetReference 0 1 (n - dist - 1)).Whole (n - dist) :=
  hx.firstRows (by omega) (n.sub_le dist)

/-- A secret of one element. -/
theorem spec_sharedOne (h : S.Lawful least n) (hn : 0 < n) :
    Spec True (S.secretShareB (.new 1)) (·.Whole 1) :=
  spec_secretShareB h hn (VectorShape.whole_new 1)

variable [NeZero ρ]

/-- The rows with a row after them. -/
theorem whole_before (hn : 0 < n) (hx : x.Whole n) :
    (x.simpleSubsetReference 0 1 ((x 0).size - 2)).Whole (n - 1) :=
  hx.firstRows (by rw [(hx 0).size]; omega) (n.sub_le 1)

section Marks

variable (h : S.Lawful least n) (hn : 0 < n)
include h hn

theorem spec_differing (hx : x.Whole n) :
    Spec (S.Batched least (n - 1)) (S.differing x) (·.Whole (n - 1)) :=
  spec_ne h (n.sub_le 1) (whole_before hn hx) (whole_after hn hx)

theorem spec_distinct {keys : List (EVectorShape ρ)} (hne : keys ≠ [])
    (hkeys : ∀ key ∈ keys, key.Whole n) (hres : res.Whole n) :
    Spec (S.Batched least (n - 1)) (S.distinct keys res) fun _ => True := by
  obtain ⟨key, keys, rfl⟩ := List.exists_cons_of_ne_nil hne
  have hzero : (res.simpleSubsetReference 0 1 0).Whole 1 := hres.firstRows rfl hn
  have hafter := whole_after hn hres
  refine (spec_sharedOne h hn).safe fun _ hshared => ?_
  refine (EVectorShape.spec_unaryOp hshared.spans).safe fun _ hbit => ?_
  refine (EVectorShape.spec_assign_safe hzero.spans hbit.spans).safe fun _ _ => ?_
  refine (spec_differing h hn (hkeys key List.mem_cons_self)).absorb (fun _ hz => ?_)
    fun hc (_ : keys ≠ []) => hc
  refine (EVectorShape.spec_assign_safe hafter.spans hz.spans).safe fun _ _ => ?_
  refine .forM_same fun key hkey => ?_
  refine (spec_differing h hn (hkeys key (List.mem_cons_of_mem _ hkey))).same fun _ hz => ?_
  refine (spec_andB h (n.sub_le 1) hafter hz).andThen fun _ hboth => ?_
  exact EVectorShape.spec_assign_safe hafter.spans hboth.spans

/-- **The first assignment of `mark_gap_session` reads behind its vector** unless there is only one
row. -/
theorem spec_markGapSession (hx : x.Whole n) (hres : res.Whole n) :
    Spec (n = 1 ∧ ∀ t ∈ S.addSizes (n - 1), S.Batched least t) (S.markGapSession x res)
      fun _ => True := by
  have hle := n.sub_le 1
  refine (spec_sharedOne h hn).safe fun _ hshared => ?_
  refine (EVectorShape.spec_unaryOp hshared.spans).safe fun _ hbit => ?_
  have hfirst : (res.simpleSubsetReference 0 1 1).Whole (min n 2) := fun c =>
    (hres c).firstRows rfl
  refine Logged.Spec.bind ((EVectorShape.spec_assign (NeZero.pos ρ) hfirst.spans hbit).iff
    (by omega)) fun _ _ => ?_
  refine (spec_secretShareA h hn (VectorShape.whole_new 1)).safe fun _ hgap => ?_
  have hextended := hgap.repeated (n - 1)
  rw [Nat.cast_sub hn, Nat.cast_one, ← (hx 0).size] at hextended
  refine (spec_addA h hle (whole_before hn hx) hextended).safe fun _ hsum => ?_
  refine (spec_subA h hle hsum (whole_after hn hx)).safe fun _ hpairWise => ?_
  refine (spec_a2b h hle hpairWise).andThen fun _ hbits => ?_
  refine (spec_ltz h hle hbits).safe fun _ hstarts => ?_
  exact EVectorShape.spec_assign_safe (whole_after hn hres).spans hstarts.spans

theorem spec_markThresholdSession (hx : x.Whole n) (hres : res.Whole n) (hy : y.Whole n) :
    Spec (S.Batched least n ∧ S.Batched least (n - 1)) (S.markThresholdSession x res y)
      fun _ => True := by
  have hle := n.sub_le 1
  have hafter := whole_after hn hy
  refine (spec_sharedOne h hn).safe fun _ hshared => ?_
  have hextended := hshared.repeated n
  rw [← (hx 0).size] at hextended
  refine (spec_gt h le_rfl hx hextended).bind fun _ hz => ?_
  refine (EVectorShape.spec_assign_safe hy.spans hz.spans).safe fun _ _ => ?_
  refine (spec_xorB h hle hafter (whole_before hn hy)).safe fun _ hchanged => ?_
  refine (spec_andB h hle hafter hchanged).andThen fun _ hstarts => ?_
  exact EVectorShape.spec_assign_safe (whole_after hn hres).spans hstarts.spans

end Marks

/-! ### The aggregation -/

section Aggregations

variable {dist : ℕ} {groupBits sharedOne : EVectorShape ρ} {reverse : Bool}
variable {keys results : List (EVectorShape ρ)} {selB : Option (EVectorShape ρ)}

theorem firstSize_eq (hresults : ∀ x ∈ results, x.Whole n) (hne : results ≠ []) :
    firstSize results = n := by
  obtain ⟨x, results, rfl⟩ := List.exists_cons_of_ne_nil hne
  exact (hresults x List.mem_cons_self 0).size

theorem spec_negateWhen (h : S.Lawful least n) {s : ℕ} (hs : s ≤ n) (minAggr : Bool)
    (hx : x.Whole s) : Spec True (S.negateWhen minAggr x) fun _ => True := by
  rw [negateWhen]
  split
  · exact (spec_notB1 h hs hx).safe fun _ hnegated =>
      EVectorShape.spec_assign_safe hx.spans hnegated.spans
  · exact .pure trivial

theorem spec_autoConversion (h : S.Lawful least n) {s : ℕ} (hs : s ≤ n) (kind : SVector)
    (hx : x.Whole s) (hres : res.Whole s) :
    Spec True (S.autoConversion kind x res) fun _ => True := by
  cases kind with
  | aSharedVector =>
    exact (spec_b2aBit h hs hx).safe fun _ hz =>
      EVectorShape.spec_assign_safe hres.spans hz.spans
  | bSharedVector => exact EVectorShape.spec_assign_safe hres.spans hx.spans

variable (h : S.Lawful least n) (hn : 0 < n) (hd : dist ≤ n)
include h hn hd

theorem spec_sumColumn (hbits : groupBits.Whole (n - dist)) (hx : x.Whole n) :
    Spec (S.Batched least (n - dist)) (S.sumColumn n dist groupBits reverse x) fun _ => True := by
  have hle := n.sub_le dist
  have hfirst := whole_first hd hx
  have hsecond := hx.rowsFrom hn hd
  cases reverse with
  | true =>
    refine (spec_multiplyA h hle hbits hfirst).andThen fun _ hproduct => ?_
    refine (spec_addA h hle hsecond hproduct).safe fun _ hsum => ?_
    exact EVectorShape.spec_assign_safe hsecond.spans hsum.spans
  | false =>
    refine (spec_multiplyA h hle hbits hsecond).andThen fun _ hproduct => ?_
    refine (spec_addA h hle hfirst hproduct).safe fun _ hsum => ?_
    exact EVectorShape.spec_assign_safe hfirst.spans hsum.spans

theorem spec_maxColumn (minAggr : Bool) (hbits : groupBits.Whole (n - dist)) (hx : x.Whole n) :
    Spec (S.Batched least (n - dist)) (S.maxColumn minAggr n dist groupBits reverse x)
      fun _ => True := by
  have hle := n.sub_le dist
  have hfirst := whole_first hd hx
  have hsecond := hx.rowsFrom hn hd
  refine (spec_gt h hle hsecond hfirst).same fun secondGreater hgreater => ?_
  refine (spec_negateWhen h hle minAggr hgreater).safe fun _ _ => ?_
  refine (spec_multiplexB h hle hgreater hfirst hsecond).same fun _ hbest => ?_
  cases reverse with
  | true =>
    refine (spec_multiplexB h hle hbits hsecond hbest).andThen fun _ hz => ?_
    exact EVectorShape.spec_assign_safe hsecond.spans hz.spans
  | false =>
    refine (spec_multiplexB h hle hbits hfirst hbest).andThen fun _ hz => ?_
    exact EVectorShape.spec_assign_safe hfirst.spans hz.spans

theorem spec_aggregate (func : Aggregation) (hbits : groupBits.Whole (n - dist))
    (hresults : ∀ x ∈ results, x.Whole n) :
    Spec (results ≠ [] → S.Batched least (n - dist))
      (S.aggregate func dist groupBits results reverse) fun _ => True := by
  refine .forM_same fun x hx => ?_
  rw [firstSize_eq hresults (List.ne_nil_of_mem hx)]
  cases func with
  | sum => exact spec_sumColumn h hn hd hbits (hresults x hx)
  | max => exact spec_maxColumn h hn hd false hbits (hresults x hx)
  | min => exact spec_maxColumn h hn hd true hbits (hresults x hx)

theorem spec_sameKey (hx : x.Whole n) :
    Spec (S.Batched least (n - dist)) (S.sameKey n dist x) (·.Whole (n - dist)) :=
  spec_eq h (n.sub_le dist) (whole_first hd hx) (hx.rowsFrom hn hd)

/-- With a key there is a product. -/
theorem spec_keyBits (hne : keys ≠ []) (hkeys : ∀ key ∈ keys, key.Whole n)
    (hbits : groupBits.Whole (n - dist)) :
    Spec (S.Batched least (n - dist)) (S.keyBits n dist keys sharedOne groupBits)
      fun _ => True := by
  obtain ⟨key, keys, rfl⟩ := List.exists_cons_of_ne_nil hne
  refine (spec_sameKey h hn hd (hkeys key List.mem_cons_self)).absorb (fun _ hz => ?_)
    fun hc (_ : keys ≠ []) => hc
  refine (EVectorShape.spec_assign_safe hbits.spans hz.spans).safe fun _ _ => ?_
  refine .forM_same fun key hkey => ?_
  refine (spec_sameKey h hn hd (hkeys key (List.mem_cons_of_mem _ hkey))).same fun _ hz => ?_
  refine (spec_andB h (n.sub_le dist) hbits hz).andThen fun _ hboth => ?_
  exact EVectorShape.spec_assign_safe hbits.spans hboth.spans

theorem spec_selectBits (hsel : ∀ sel ∈ selB, sel.Whole n) (hbits : groupBits.Whole (n - dist)) :
    Spec (selB.isSome → S.Batched least (n - dist)) (S.selectBits n dist selB groupBits)
      fun _ => True := by
  cases selB with
  | none => exact (Logged.Spec.pure trivial).iff (by simp)
  | some sel =>
    have hx := hsel sel rfl
    refine Logged.Spec.iff ?_ (imp_iff_right rfl).symm
    refine (spec_andB h (n.sub_le dist) hbits (whole_first hd hx)).same fun _ hfirst => ?_
    refine (spec_andB h (n.sub_le dist) hfirst (hx.rowsFrom hn hd)).andThen fun _ hboth => ?_
    exact EVectorShape.spec_assign_safe hbits.spans hboth.spans

theorem spec_aggregationRound (func : Aggregation) (hne : keys ≠ [])
    (hkeys : ∀ key ∈ keys, key.Whole n) (hresults : ∀ x ∈ results, x.Whole n)
    (hsel : ∀ sel ∈ selB, sel.Whole n) :
    Spec (S.Batched least (n - dist))
      (S.aggregationRound func keys results reverse selB sharedOne n dist) fun _ => True := by
  have hnew : EVectorShape.Whole (.new (n - dist : ℕ) : EVectorShape ρ) (n - dist) :=
    EVectorShape.whole_new _
  rw [aggregationRound, ← Nat.cast_sub hd]
  -- the later conditions follow from the first
  have hlater : S.Batched least (n - dist) → (selB.isSome → S.Batched least (n - dist)) ∧
      (results ≠ [] → S.Batched least (n - dist)) := fun hc => ⟨fun _ => hc, fun _ => hc⟩
  refine (spec_keyBits h hn hd hne hkeys hnew).absorb (fun _ _ => ?_) hlater
  refine (spec_selectBits h hn hd hsel hnew).bind fun _ _ => ?_
  simp only [(hnew 0).size]
  refine (spec_autoConversion h (n.sub_le dist) func.kind hnew hnew).safe fun _ _ => ?_
  exact spec_aggregate h hn hd func hnew hresults

end Aggregations

theorem roundDistance_le (hn : 0 < n) {i : ℕ} (hi : i < Nat.log 2 n) (reverse : Bool) :
    roundDistance n reverse (i + 1) ≤ n := by
  rw [roundDistance]
  split
  · exact (Nat.pow_le_pow_right two_pos hi.le).trans (Nat.pow_log_le_self 2 hn.ne')
  · exact Nat.div_le_self _ _

/-- The sizes of the vectors that the rounds multiply. -/
def roundSizes (n : ℕ) (reverse : Bool) : List ℕ :=
  (List.range (Nat.log 2 n)).map fun i => n - roundDistance n reverse (i + 1)

section Calls

variable {keys : List (EVectorShape ρ)} {selB : Option (EVectorShape ρ)}
variable (h : S.Lawful least n) (hn : 0 < n) (hne : keys ≠ [])
variable (hkeys : ∀ key ∈ keys, key.Whole n) (hsel : ∀ sel ∈ selB, sel.Whole n)
include h hn hne hkeys hsel

theorem spec_oddEvenAggregation {columns : List (AggregatedColumn ρ)} (func : Aggregation)
    (reverse : Bool) (hcolumns : columns ≠ [])
    (hvalues : ∀ c ∈ columns, c.value.Whole n ∧ c.result.Whole n) :
    Spec (∀ s ∈ roundSizes n reverse, S.Batched least s)
      (S.oddEvenAggregation func keys columns reverse selB) fun _ => True := by
  have hcopy : Spec True (copyValues columns) fun _ => True := .forM_safe fun c hc => by
    obtain ⟨hvalue, hresult⟩ := hvalues c hc
    split
    · exact EVectorShape.spec_assign_safe hresult.spans hvalue.spans
    · exact .pure trivial
  have hresults : ∀ x ∈ columns.map (·.result), x.Whole n :=
    List.forall_mem_map.mpr fun c hc => (hvalues c hc).2
  have hsize : firstSize (columns.map (·.value)) = n :=
    firstSize_eq (List.forall_mem_map.mpr fun c hc => (hvalues c hc).1)
      (List.map_eq_nil_iff.not.mpr hcolumns)
  refine hcopy.safe fun _ _ => ?_
  simp only [hsize, Int.toNat_natCast]
  refine (spec_sharedOne h hn).safe fun sharedOne _ => ?_
  refine (Logged.Spec.forM fun i hi => ?_).iff List.forall_mem_map.symm
  exact spec_aggregationRound h hn (roundDistance_le hn (List.mem_range.mp hi) reverse) func hne
    hkeys hresults hsel

theorem spec_spreadMarks (hx : x.Whole n) (hres : res.Whole n) :
    Spec (S.Batched least n ∧ ∀ s ∈ roundSizes n true, S.Batched least s)
      (S.spreadMarks keys x res selB) fun _ => True := by
  refine (spec_sharedOne h hn).safe fun _ hshared => ?_
  have hextended := hshared.repeated n
  rw [← (hres 0).size] at hextended
  refine (spec_multiplexB h le_rfl hres hextended hx).bind fun _ hz => ?_
  refine (EVectorShape.spec_assign_safe hres.spans hz.spans).safe fun _ _ => ?_
  exact spec_oddEvenAggregation h hn hne hkeys hsel .max true (List.cons_ne_nil _ _)
    (by simpa using hres)

end Calls

end Spec

end Setting

/-! ## All operators -/

/-- What a party runs on. -/
def PartyOf.setting (party : PartyOf ρ) (rt : Service.RunTime) (d : DataType)
    (usePrefixAdder : Bool) : Setting ρ :=
  ⟨rt, party.primitives d, d, usePrefixAdder⟩

/-- A call of an operator, on the vectors of a party. -/
inductive Operator (ρ : ℕ) where
  | distinct (keys : List (EVectorShape ρ)) (res : EVectorShape ρ)
  | markGapSession (timestamp sessionStart : EVectorShape ρ)
  | markThresholdSession (functionRes sessionStart potentialWindow : EVectorShape ρ)
  | gapSessionWindow (keys : List (EVectorShape ρ))
      (timestampA timestampB windowId : EVectorShape ρ)
  | thresholdSessionWindow (keys : List (EVectorShape ρ))
      (functionRes timestampB windowId : EVectorShape ρ)
  | oddEvenAggregation (func : Aggregation) (keys : List (EVectorShape ρ))
      (columns : List (AggregatedColumn ρ)) (reverse : Bool) (selB : Option (EVectorShape ρ))

namespace Operator

/-- The run of the operator. -/
def run [NeZero ρ] (S : Setting ρ) : Operator ρ → Accessing Unit
  | distinct keys res => S.distinct keys res
  | markGapSession timestamp sessionStart => S.markGapSession timestamp sessionStart
  | markThresholdSession functionRes sessionStart potentialWindow =>
      S.markThresholdSession functionRes sessionStart potentialWindow
  | gapSessionWindow keys timestampA timestampB windowId =>
      S.gapSessionWindow keys timestampA timestampB windowId
  | thresholdSessionWindow keys functionRes timestampB windowId =>
      S.thresholdSessionWindow keys functionRes timestampB windowId
  | oddEvenAggregation func keys columns reverse selB =>
      S.oddEvenAggregation func keys columns reverse selB

/-- At least one key, and every key has `n` rows. -/
def Keyed (n : ℕ) (keys : List (EVectorShape ρ)) : Prop :=
  keys ≠ [] ∧ ∀ key ∈ keys, key.Whole n

/-- **The columns of the call have `n` rows**, and there is a key where keys are needed. -/
def Takes (n : ℕ) : Operator ρ → Prop
  | distinct keys res => Keyed n keys ∧ res.Whole n
  | markGapSession timestamp sessionStart => timestamp.Whole n ∧ sessionStart.Whole n
  | markThresholdSession functionRes sessionStart potentialWindow =>
      functionRes.Whole n ∧ sessionStart.Whole n ∧ potentialWindow.Whole n
  | gapSessionWindow keys timestampA timestampB windowId =>
      Keyed n keys ∧ timestampA.Whole n ∧ timestampB.Whole n ∧ windowId.Whole n
  | thresholdSessionWindow keys functionRes timestampB windowId =>
      Keyed n keys ∧ functionRes.Whole n ∧ timestampB.Whole n ∧ windowId.Whole n
  | oddEvenAggregation _ keys columns _ selB =>
      Keyed n keys ∧ columns ≠ [] ∧ (∀ c ∈ columns, c.value.Whole n ∧ c.result.Whole n)
        ∧ ∀ sel ∈ selB, sel.Whole n

/-- The operators that mark the starts of sessions by gaps. -/
def MarksGaps : Operator ρ → Prop
  | markGapSession _ _ => True
  | gapSessionWindow _ _ _ _ => True
  | _ => False

/-- The sizes of the vectors that the operator multiplies. -/
def productSizes (S : Setting ρ) (n : ℕ) : Operator ρ → List ℕ
  | distinct _ _ => [n - 1]
  | markGapSession _ _ => S.addSizes (n - 1)
  | markThresholdSession _ _ _ => [n, n - 1]
  | gapSessionWindow _ _ _ _ => S.addSizes (n - 1) ++ n :: Setting.roundSizes n true
  | thresholdSessionWindow _ _ _ _ => n :: (n - 1) :: Setting.roundSizes n true
  | oddEvenAggregation _ _ _ reverse _ => Setting.roundSizes n reverse

variable {S : Setting ρ} {least n : ℕ}

theorem setting_lawful (party : PartyOf ρ) (rt : Service.RunTime) (d : DataType)
    (usePrefixAdder : Bool) (hbatch : 1 ≤ rt.batchSize) (hthreads : 1 ≤ rt.threadsNum)
    (hint : n + rt.batchSize < 2 ^ 31) :
    (party.setting rt d usePrefixAdder).Lawful party.least n :=
  ⟨party.lawful d, hbatch, hthreads, hint⟩

theorem takes_distinct_new (n : ℕ) :
    (distinct [.new n] (.new n) : Operator ρ).Takes n :=
  ⟨⟨List.cons_ne_nil _ _, by simpa using EVectorShape.whole_new n⟩, EVectorShape.whole_new n⟩

variable [NeZero ρ]

/-- What every operator accesses. -/
theorem spec_run (h : S.Lawful least n) (hn : 0 < n) {op : Operator ρ} (htakes : op.Takes n) :
    Spec ((op.MarksGaps → n = 1) ∧ ∀ s ∈ op.productSizes S n, S.Batched least s) (op.run S)
      fun _ => True := by
  cases op with
  | distinct keys res =>
    obtain ⟨hkeys, hres⟩ := htakes
    exact (Setting.spec_distinct h hn hkeys.1 hkeys.2 hres).iff
      (by simp [MarksGaps, productSizes])
  | markGapSession timestamp sessionStart =>
    obtain ⟨htimestamp, hstart⟩ := htakes
    exact (Setting.spec_markGapSession h hn htimestamp hstart).iff
      (by simp [MarksGaps, productSizes])
  | markThresholdSession functionRes sessionStart potentialWindow =>
    obtain ⟨hfunction, hstart, hwindow⟩ := htakes
    exact (Setting.spec_markThresholdSession h hn hfunction hstart hwindow).iff
      (by simp [MarksGaps, productSizes])
  | gapSessionWindow keys timestampA timestampB windowId =>
    obtain ⟨hkeys, hA, hB, hid⟩ := htakes
    have hnone : ∀ sel ∈ (none : Option (EVectorShape ρ)), sel.Whole n := by simp
    refine Logged.Spec.iff ((Setting.spec_markGapSession h hn hA hid).bind fun _ _ =>
      Setting.spec_spreadMarks h hn hkeys.1 hkeys.2 hnone hB hid) ?_
    simp [MarksGaps, productSizes, and_assoc, or_imp, forall_and]
  | thresholdSessionWindow keys functionRes timestampB windowId =>
    obtain ⟨hkeys, hfunction, hB, hid⟩ := htakes
    have hwindow : EVectorShape.Whole (.new n : EVectorShape ρ) n := EVectorShape.whole_new n
    have hsome : ∀ sel ∈ some (EVectorShape.new n : EVectorShape ρ), sel.Whole n := by
      simpa using hwindow
    rw [run, Setting.thresholdSessionWindow, (hid 0).size]
    refine Logged.Spec.iff ((Setting.spec_markThresholdSession h hn hfunction hid hwindow).bind
      fun _ _ => Setting.spec_spreadMarks h hn hkeys.1 hkeys.2 hsome hB hid) ?_
    simp only [MarksGaps, productSizes, List.forall_mem_cons]
    tauto
  | oddEvenAggregation func keys columns reverse selB =>
    obtain ⟨hkeys, hne, hcolumns, hsel⟩ := htakes
    exact (Setting.spec_oddEvenAggregation h hn hkeys.1 hkeys.2 hsel func reverse hne
      hcolumns).iff (by simp [MarksGaps, productSizes])

/-- **An operator stays within its vectors exactly if** it does not mark gaps, or there is only one
row, and all batches of the products are large enough for the protocol. -/
theorem inBounds_iff (party : PartyOf ρ) (rt : Service.RunTime) (d : DataType)
    (usePrefixAdder : Bool) (op : Operator ρ) {k : ℕ} (hn : n = 2 ^ k)
    (hbatch : 1 ≤ rt.batchSize) (hthreads : 1 ≤ rt.threadsNum) (hint : n + rt.batchSize < 2 ^ 31)
    (htakes : op.Takes n) :
    (op.run (party.setting rt d usePrefixAdder)).Within Access.Ok ↔
      (op.MarksGaps → n = 1) ∧ ∀ s ∈ op.productSizes (party.setting rt d usePrefixAdder) n,
        ∀ r ∈ batches rt s, party.least ≤ r.2 - r.1 :=
  (spec_run (setting_lawful party rt d usePrefixAdder hbatch hthreads hint)
    (hn ▸ Nat.two_pow_pos k) htakes).within

/-- `distinct` of four rows, and of two, at a party of `Fantastic_4PC`. -/
theorem inBounds_distinct_four :
    ((distinct [.new 4] (.new 4)).run ((PartyOf.fantastic4pc 0).setting ⟨50000, 1⟩ .int32_t
      true)).Within Access.Ok ∧
    ¬ ((distinct [.new 2] (.new 2)).run ((PartyOf.fantastic4pc 0).setting ⟨50000, 1⟩ .int32_t
      true)).Within Access.Ok := by
  refine ⟨(inBounds_iff (.fantastic4pc 0) ⟨50000, 1⟩ .int32_t true _ (k := 2) (n := 4) rfl
    (by decide) (by decide) (by decide) (takes_distinct_new 4)).mpr ⟨False.elim, by decide⟩,
    fun h => ?_⟩
  have hleast := ((inBounds_iff (.fantastic4pc 0) ⟨50000, 1⟩ .int32_t true _ (k := 1) (n := 2) rfl
    (by decide) (by decide) (by decide) (takes_distinct_new 2)).mp h).2
  exact absurd hleast (by decide)

/-- `mark_gap_session` of two rows, at a party of `Replicated_3PC`. -/
theorem markGapSession_two_reads_behind :
    (markGapSession (.new 2) (.new 2) : Operator 2).Takes (2 ^ 1) ∧
      ¬ ((markGapSession (.new 2) (.new 2)).run ((PartyOf.replicated3pc 0).setting ⟨50000, 1⟩
        .int32_t true)).Within Access.Ok := by
  have hnew : EVectorShape.Whole (.new 2 : EVectorShape 2) 2 := EVectorShape.whole_new 2
  refine ⟨⟨hnew, hnew⟩, fun h => ?_⟩
  have hspec := Setting.spec_markGapSession (setting_lawful (n := 2) (.replicated3pc 0) ⟨50000, 1⟩
    .int32_t true (by decide) (by decide) (by decide)) two_pos hnew hnew
  exact absurd (hspec.within.mp h).1 (by decide)

end Operator

end Tva.Accesses
