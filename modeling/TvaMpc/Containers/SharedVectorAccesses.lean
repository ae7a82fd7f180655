import TvaMpc.Containers.RippleCarry
import TvaMpc.Protocols.PrimitiveAccesses
import TvaMpc.Service.Batching

/-!
# Containers/SharedVectorAccesses — which elements the operators on shared vectors access

An operator on shared vectors calls primitives through the runtime, which cuts its operands into
batches.  Here too the sizes decide: `Setting.Batched` says that the batches of a vector are large
enough for a product, and the conditions of the operators are conjunctions of these.
-/

namespace Tva.Accesses

open Machinery

variable {ρ : ℕ}

/-- The ranges of the batches in which the runtime executes a call. -/
def batches (rt : Service.RunTime) (totalSize : ℕ) : List (ℕ × ℕ) :=
  ((rt.plan totalSize).getD []).map Prod.snd

/-- What the operators of a party run on. -/
structure Setting (ρ : ℕ) where
  runTime : Service.RunTime
  primitives : Primitives ρ
  dataType : DataType
  /-- `USE_PARALLEL_PREFIX_ADDER`. -/
  usePrefixAdder : Bool

namespace Setting

section Model

variable [NeZero ρ] (S : Setting ρ)

/-! ## The calls of the runtime -/

/-- `runtime_evaluate_using_objects`: on every batch, `_res` is assigned what the function makes. -/
def evaluate (totalSize : ℤ) (func : ℤ → ℤ → Accessing (EVectorShape ρ)) :
    Accessing (EVectorShape ρ) := do
  let res : EVectorShape ρ := .new totalSize
  (batches S.runTime totalSize.toNat).forM fun r => do
    let z ← func r.1 r.2
    (res.setBatch r.1 r.2).assign z
  return res

/-- `runtime_evaluate_using_objects_2`. -/
def evaluate2 (func : EVectorShape ρ → EVectorShape ρ → Accessing (EVectorShape ρ))
    (x y : EVectorShape ρ) : Accessing (EVectorShape ρ) :=
  S.evaluate (x 0).totalSize fun start stop => func (x.setBatch start stop) (y.setBatch start stop)

/-- `runtime_evaluate_using_objects_1`, and `execute_parallel`. -/
def evaluate1 (func : EVectorShape ρ → Accessing (EVectorShape ρ)) (x : EVectorShape ρ) :
    Accessing (EVectorShape ρ) :=
  S.evaluate (x 0).totalSize fun start stop => func (x.setBatch start stop)

/-- `runtime_evaluate_using_objects_1` on a vector that is not shared. -/
def evaluateVector (func : VectorShape → Accessing (EVectorShape ρ)) (x : VectorShape) :
    Accessing (EVectorShape ρ) :=
  S.evaluate x.totalSize fun start stop => func (x.setBatch start stop)

/-- `runtime_evaluate_using_objects_1_v`, for a function with two results. -/
def evaluatePair (func : EVectorShape ρ → Accessing (EVectorShape ρ × EVectorShape ρ))
    (x : EVectorShape ρ) : Accessing (EVectorShape ρ × EVectorShape ρ) := do
  let res1 : EVectorShape ρ := .new (x 0).totalSize
  let res2 : EVectorShape ρ := .new (x 0).totalSize
  (batches S.runTime (x 0).totalSize.toNat).forM fun r => do
    let z ← func (x.setBatch r.1 r.2)
    (res1.setBatch r.1 r.2).assign z.1
    (res2.setBatch r.1 r.2).assign z.2
  return (res1, res2)

/-- `modify_parallel`. -/
def modifyParallel (x : EVectorShape ρ) : Accessing Unit :=
  (batches S.runTime (x 0).totalSize.toNat).forM fun r => (x.setBatch r.1 r.2).modify

/-! ## `BSharedVector` -/

/-- `operator^`. -/
def xorB : EVectorShape ρ → EVectorShape ρ → Accessing (EVectorShape ρ) :=
  S.evaluate2 S.primitives.xorB

/-- `operator&`. -/
def andB : EVectorShape ρ → EVectorShape ρ → Accessing (EVectorShape ρ) :=
  S.evaluate2 S.primitives.andB

/-- `operator~`. -/
def notB : EVectorShape ρ → Accessing (EVectorShape ρ) := S.evaluate1 S.primitives.notB

/-- `operator!`. -/
def notB1 : EVectorShape ρ → Accessing (EVectorShape ρ) := S.evaluate1 S.primitives.notB1

/-- `ltz`. -/
def ltz : EVectorShape ρ → Accessing (EVectorShape ρ) := S.evaluate1 S.primitives.ltz

/-- `b2a_bit`. -/
def b2aBit : EVectorShape ρ → Accessing (EVectorShape ρ) := S.evaluate1 S.primitives.b2aBit

/-- `bit_level_shift`, `reverse_bit_level_shift`, `bit_right_shift`, `bit_left_shift`, `bit_xor` and
`extend_lsb`. -/
def bitwise : EVectorShape ρ → Accessing (EVectorShape ρ) := S.evaluate1 EVectorShape.unaryOp

/-- `operator|`. -/
def or (x y : EVectorShape ρ) : Accessing (EVectorShape ρ) := do
  let notX ← S.notB x
  let notY ← S.notB y
  let neither ← S.andB notX notY
  S.notB neither

/-- The rounds of `bit_same` and of `parallel_prefix_adder`. -/
def levels : List ℕ :=
  Protocol.adderLevels S.dataType.maxBitsNumber S.dataType.maxBitsNumber 2

/-- `bit_same`. -/
def bitSame (x y : EVectorShape ρ) : Accessing (EVectorShape ρ) := do
  let differing ← S.xorB x y
  let sameBit ← S.notB differing
  S.levels.forM fun _ => do
    let shifted ← S.bitwise sameBit
    let z ← S.andB shifted sameBit
    sameBit.assign z
  return sameBit

/-- `operator==`. -/
def eq (x y : EVectorShape ρ) : Accessing (EVectorShape ρ) := do
  let sameBits ← S.bitSame x y
  S.modifyParallel sameBits
  return sameBits

/-- `operator!=`. -/
def ne (x y : EVectorShape ρ) : Accessing (EVectorShape ρ) := do
  let equal ← S.eq x y
  S.notB1 equal

/-- `operator>`. -/
def gt (x y : EVectorShape ρ) : Accessing (EVectorShape ρ) := do
  let sameBit ← S.bitSame x y
  let shifted ← S.bitwise sameBit
  S.modifyParallel shifted
  let next ← S.bitwise sameBit
  let differing ← S.notB sameBit
  let edge ← S.andB next differing
  let xEdgeBit ← S.andB edge x
  let res ← S.bitwise xEdgeBit
  let sign1 ← S.bitwise x
  let sign2 ← S.bitwise y
  let diffs ← S.xorB sign1 sign2
  let different ← S.andB diffs sign2
  let same ← S.notB1 diffs
  let kept ← S.andB same res
  let z ← S.xorB different kept
  res.assign z
  return res

/-- `parallel_prefix_adder`, with `prefix_sum`. -/
def parallelPrefixAdder (current other : EVectorShape ρ) : Accessing (EVectorShape ρ) := do
  let p ← S.xorB current other
  let g ← S.andB current other
  let propagate : EVectorShape ρ := .new (p 0).size
  propagate.assign p
  S.levels.forM fun _ => do
    let gShift ← S.bitwise g
    let pShift ← S.bitwise p
    let carried ← S.andB p gShift
    let gOut ← S.or g carried
    let pOut ← S.andB p pShift
    g.assign gOut
    p.assign pOut
  let carries ← S.bitwise g
  S.xorB propagate carries

/-- `ripple_carry_adder`. -/
def rippleCarryAdder (a b : EVectorShape ρ) : Accessing (EVectorShape ρ) := do
  let w := S.dataType.maxBitsNumber
  let aXorB ← S.xorB a b
  let aAndB ← S.andB a b
  let carryI : EVectorShape ρ := .new (divCeil (a 0).size.toNat w)
  let sum : EVectorShape ρ := .new (a 0).size
  (List.range w).forM fun i => do
    let aXorBI ← aXorB.simpleBitCompress S.dataType i 1 i 1
    let aAndBI ← aAndB.simpleBitCompress S.dataType i 1 i 1
    let sumI ← S.xorB aXorBI carryI
    sum.simpleBitDecompress S.dataType sumI i 1 i 1
    if i < w - 1 then do
      let propagated ← S.andB carryI aXorBI
      let carry ← S.or aAndBI propagated
      carryI.assign carry
    else return ()
  return sum

/-- `operator+` of boolean shared vectors. -/
def addB (x y : EVectorShape ρ) : Accessing (EVectorShape ρ) :=
  if S.usePrefixAdder then S.parallelPrefixAdder x y else S.rippleCarryAdder x y

/-! ## `ASharedVector` -/

/-- `operator+`. -/
def addA : EVectorShape ρ → EVectorShape ρ → Accessing (EVectorShape ρ) :=
  S.evaluate2 S.primitives.addA

/-- `operator-`. -/
def subA : EVectorShape ρ → EVectorShape ρ → Accessing (EVectorShape ρ) :=
  S.evaluate2 S.primitives.subA

/-- `operator*`. -/
def multiplyA : EVectorShape ρ → EVectorShape ρ → Accessing (EVectorShape ρ) :=
  S.evaluate2 S.primitives.multiplyA

/-- `a2b`. -/
def a2b (x : EVectorShape ρ) : Accessing (EVectorShape ρ) := do
  let bVecs ← S.evaluatePair S.primitives.redistributeSharesB x
  S.addB bVecs.1 bVecs.2

/-! ## Secrets and `multiplex` -/

/-- `secret_share_a`. -/
def secretShareA : VectorShape → Accessing (EVectorShape ρ) :=
  S.evaluateVector S.primitives.secretShareA

/-- `secret_share_b`. -/
def secretShareB : VectorShape → Accessing (EVectorShape ρ) :=
  S.evaluateVector S.primitives.secretShareB

/-- `multiplex` of boolean shared vectors. -/
def multiplexB (sel a b : EVectorShape ρ) : Accessing (EVectorShape ρ) := do
  let selExtended ← S.bitwise sel
  let notSel ← S.notB selExtended
  let left ← S.andB notSel a
  let right ← S.andB selExtended b
  S.xorB left right

end Model

/-! ## What they access -/

/-- **The batches of a vector of `s` elements have at least `least` elements.** -/
def Batched (S : Setting ρ) (least s : ℕ) : Prop := ∀ r ∈ batches S.runTime s, least ≤ r.2 - r.1

/-- The primitives are lawful, and the runtime can cut vectors of up to `limit` elements. -/
structure Lawful (S : Setting ρ) (least limit : ℕ) : Prop where
  primitives : S.primitives.Lawful least
  batchSize : 0 < S.runTime.batchSize
  threadsNum : 0 < S.runTime.threadsNum
  int : limit + S.runTime.batchSize < 2 ^ 31

section Spec

variable {S : Setting ρ} {least limit s : ℕ} {x y : EVectorShape ρ} {v : VectorShape}

theorem Lawful.tiles (h : S.Lawful least limit) (hs : s ≤ limit) :
    Tiles 0 s (batches S.runTime s) := by
  have hint := h.int
  obtain ⟨plan, hplan, htiles, -⟩ :=
    @Service.tiles_plan S.runTime s h.batchSize h.threadsNum (by omega)
  rwa [batches, hplan]

/-- The loop over the batches. -/
theorem spec_batches (h : S.Lawful least limit) (hs : s ≤ limit) {c : ℕ → Prop}
    {body : ℕ × ℕ → Accessing Unit}
    (hbody : ∀ a b : ℕ, a ≤ b → b ≤ s → Spec (c (b - a)) (body (a, b)) fun _ => True) :
    Spec (∀ r ∈ batches S.runTime s, c (r.2 - r.1)) ((batches S.runTime s).forM body)
      fun _ => True :=
  .forM fun r hr =>
    have hmem := (h.tiles hs).mem hr
    hbody r.1 r.2 hmem.2.1.le hmem.2.2

/-- **A call of the runtime**: the conditions are those on the batches. -/
theorem spec_evaluate (h : S.Lawful least limit) (hs : s ≤ limit) {size : ℤ} (hsize : size = s)
    {c : ℕ → Prop} {func : ℤ → ℤ → Accessing (EVectorShape ρ)}
    (hfunc : ∀ a b : ℕ, a ≤ b → b ≤ s → Spec (c (b - a)) (func a b) (·.Spans (b - a))) :
    Spec (∀ r ∈ batches S.runTime s, c (r.2 - r.1)) (S.evaluate size func) (·.Whole s) := by
  subst hsize
  have hres : EVectorShape.Whole (.new s : EVectorShape ρ) s := EVectorShape.whole_new s
  refine (spec_batches h hs fun a b hab hb => ?_).andThen fun _ _ => .pure hres
  exact (hfunc a b hab hb).andThen fun _ hz =>
    EVectorShape.spec_assign_safe (hres.setBatch hab hb) hz

theorem spec_evaluateVector (h : S.Lawful least limit) (hs : s ≤ limit)
    {func : VectorShape → Accessing (EVectorShape ρ)}
    (hfunc : ∀ {a : VectorShape} {t : ℕ}, a.Spans t → Spec True (func a) (·.Spans t))
    (hv : v.Whole s) : Spec True (S.evaluateVector func v) (·.Whole s) :=
  (spec_evaluate h hs (c := fun _ => True) hv.totalSize fun _ _ hab hb =>
    hfunc (hv.setBatch hab hb)).iff (by simp)

theorem spec_secretShareA (h : S.Lawful least limit) (hs : s ≤ limit) (hv : v.Whole s) :
    Spec True (S.secretShareA v) (·.Whole s) :=
  spec_evaluateVector h hs h.primitives.secretShareA hv

theorem spec_secretShareB (h : S.Lawful least limit) (hs : s ≤ limit) (hv : v.Whole s) :
    Spec True (S.secretShareB v) (·.Whole s) :=
  spec_evaluateVector h hs h.primitives.secretShareB hv

theorem levels_ne_nil (S : Setting ρ) : S.levels ≠ [] := by
  rw [levels]
  cases S.dataType <;> decide

variable [NeZero ρ]

theorem spec_evaluate2 (h : S.Lawful least limit) (hs : s ≤ limit) {c : ℕ → Prop}
    {func : EVectorShape ρ → EVectorShape ρ → Accessing (EVectorShape ρ)}
    (hfunc : ∀ {a b : EVectorShape ρ} {t : ℕ}, a.Spans t → b.Spans t →
      Spec (c t) (func a b) (·.Spans t))
    (hx : x.Whole s) (hy : y.Whole s) :
    Spec (∀ r ∈ batches S.runTime s, c (r.2 - r.1)) (S.evaluate2 func x y) (·.Whole s) :=
  spec_evaluate h hs (hx 0).totalSize fun _ _ hab hb =>
    hfunc (hx.setBatch hab hb) (hy.setBatch hab hb)

theorem spec_evaluate1 (h : S.Lawful least limit) (hs : s ≤ limit)
    {func : EVectorShape ρ → Accessing (EVectorShape ρ)}
    (hfunc : ∀ {a : EVectorShape ρ} {t : ℕ}, a.Spans t → Spec True (func a) (·.Spans t))
    (hx : x.Whole s) : Spec True (S.evaluate1 func x) (·.Whole s) :=
  (spec_evaluate h hs (c := fun _ => True) (hx 0).totalSize fun _ _ hab hb =>
    hfunc (hx.setBatch hab hb)).iff (by simp)

theorem spec_evaluate2_safe (h : S.Lawful least limit) (hs : s ≤ limit)
    {func : EVectorShape ρ → EVectorShape ρ → Accessing (EVectorShape ρ)}
    (hfunc : ∀ {a b : EVectorShape ρ} {t : ℕ}, a.Spans t → b.Spans t →
      Spec True (func a b) (·.Spans t))
    (hx : x.Whole s) (hy : y.Whole s) : Spec True (S.evaluate2 func x y) (·.Whole s) :=
  (spec_evaluate2 h hs (c := fun _ => True) hfunc hx hy).iff (by simp)

theorem spec_modifyParallel (h : S.Lawful least limit) (hs : s ≤ limit) (hx : x.Whole s) :
    Spec True (S.modifyParallel x) fun _ => True := by
  rw [modifyParallel, (hx 0).totalSize]
  exact (spec_batches h hs (c := fun _ => True) fun _ _ hab hb =>
    EVectorShape.spec_modify (hx.setBatch hab hb)).iff (by simp)

theorem spec_evaluatePair (h : S.Lawful least limit) (hs : s ≤ limit)
    {func : EVectorShape ρ → Accessing (EVectorShape ρ × EVectorShape ρ)}
    (hfunc : ∀ {a : EVectorShape ρ} {t : ℕ}, a.Spans t →
      Spec True (func a) fun res => res.1.Spans t ∧ res.2.Spans t)
    (hx : x.Whole s) :
    Spec True (S.evaluatePair func x) fun res => res.1.Whole s ∧ res.2.Whole s := by
  have hres : EVectorShape.Whole (.new s : EVectorShape ρ) s := EVectorShape.whole_new s
  rw [evaluatePair, (hx 0).totalSize]
  refine ((spec_batches h hs (c := fun _ => True) fun a b hab hb => ?_).iff (by simp)).safe
    fun _ _ => .pure ⟨hres, hres⟩
  refine (hfunc (hx.setBatch hab hb)).safe fun _ hz => ?_
  refine (EVectorShape.spec_assign_safe (hres.setBatch hab hb) hz.1).safe fun _ _ => ?_
  exact EVectorShape.spec_assign_safe (hres.setBatch hab hb) hz.2

/-! ### The operators of `BSharedVector` -/

section Operators

variable (h : S.Lawful least limit) (hs : s ≤ limit)
include h hs

theorem spec_xorB (hx : x.Whole s) (hy : y.Whole s) : Spec True (S.xorB x y) (·.Whole s) :=
  spec_evaluate2_safe h hs h.primitives.xorB hx hy

theorem spec_andB (hx : x.Whole s) (hy : y.Whole s) :
    Spec (S.Batched least s) (S.andB x y) (·.Whole s) :=
  spec_evaluate2 h hs h.primitives.andB hx hy

theorem spec_notB (hx : x.Whole s) : Spec True (S.notB x) (·.Whole s) :=
  spec_evaluate1 h hs h.primitives.notB hx

theorem spec_notB1 (hx : x.Whole s) : Spec True (S.notB1 x) (·.Whole s) :=
  spec_evaluate1 h hs h.primitives.notB1 hx

theorem spec_ltz (hx : x.Whole s) : Spec True (S.ltz x) (·.Whole s) :=
  spec_evaluate1 h hs h.primitives.ltz hx

theorem spec_b2aBit (hx : x.Whole s) : Spec True (S.b2aBit x) (·.Whole s) :=
  spec_evaluate1 h hs h.primitives.b2aBit hx

theorem spec_bitwise (hx : x.Whole s) : Spec True (S.bitwise x) (·.Whole s) :=
  spec_evaluate1 h hs spec_unary hx

theorem spec_or (hx : x.Whole s) (hy : y.Whole s) :
    Spec (S.Batched least s) (S.or x y) (·.Whole s) := by
  refine (spec_notB h hs hx).safe fun _ hnotX => ?_
  refine (spec_notB h hs hy).safe fun _ hnotY => ?_
  refine (spec_andB h hs hnotX hnotY).andThen fun _ hneither => ?_
  exact spec_notB h hs hneither

theorem spec_bitSame (hx : x.Whole s) (hy : y.Whole s) :
    Spec (S.Batched least s) (S.bitSame x y) (·.Whole s) := by
  refine (spec_xorB h hs hx hy).safe fun _ hdiffering => ?_
  refine (spec_notB h hs hdiffering).safe fun sameBit hsame => ?_
  refine ((Logged.Spec.forM_same fun _ _ => ?_).iff (imp_iff_right S.levels_ne_nil)).andThen
    fun _ _ => .pure hsame
  refine (spec_bitwise h hs hsame).safe fun _ hshifted => ?_
  refine (spec_andB h hs hshifted hsame).andThen fun _ hz => ?_
  exact EVectorShape.spec_assign_safe hsame.spans hz.spans

theorem spec_eq (hx : x.Whole s) (hy : y.Whole s) :
    Spec (S.Batched least s) (S.eq x y) (·.Whole s) := by
  refine (spec_bitSame h hs hx hy).andThen fun _ hsame => ?_
  exact (spec_modifyParallel h hs hsame).safe fun _ _ => .pure hsame

theorem spec_ne (hx : x.Whole s) (hy : y.Whole s) :
    Spec (S.Batched least s) (S.ne x y) (·.Whole s) :=
  (spec_eq h hs hx hy).andThen fun _ hequal => spec_notB1 h hs hequal

theorem spec_gt (hx : x.Whole s) (hy : y.Whole s) :
    Spec (S.Batched least s) (S.gt x y) (·.Whole s) := by
  refine (spec_bitSame h hs hx hy).same fun _ hsame => ?_
  refine (spec_bitwise h hs hsame).safe fun _ hshifted => ?_
  refine (spec_modifyParallel h hs hshifted).safe fun _ _ => ?_
  refine (spec_bitwise h hs hsame).safe fun _ hnext => ?_
  refine (spec_notB h hs hsame).safe fun _ hdiffering => ?_
  refine (spec_andB h hs hnext hdiffering).same fun _ hedge => ?_
  refine (spec_andB h hs hedge hx).same fun _ hxEdge => ?_
  refine (spec_bitwise h hs hxEdge).safe fun _ hres => ?_
  refine (spec_bitwise h hs hx).safe fun _ hsign1 => ?_
  refine (spec_bitwise h hs hy).safe fun _ hsign2 => ?_
  refine (spec_xorB h hs hsign1 hsign2).safe fun _ hdiffs => ?_
  refine (spec_andB h hs hdiffs hsign2).same fun _ hdifferent => ?_
  refine (spec_notB1 h hs hdiffs).safe fun _ hnegated => ?_
  refine (spec_andB h hs hnegated hres).andThen fun _ hkept => ?_
  refine (spec_xorB h hs hdifferent hkept).safe fun _ hz => ?_
  exact (EVectorShape.spec_assign_safe hres.spans hz.spans).safe fun _ _ => .pure hres

theorem spec_parallelPrefixAdder (hx : x.Whole s) (hy : y.Whole s) :
    Spec (S.Batched least s) (S.parallelPrefixAdder x y) (·.Whole s) := by
  refine (spec_xorB h hs hx hy).safe fun p hp => ?_
  refine (spec_andB h hs hx hy).same fun g hg => ?_
  have hnew : EVectorShape.Whole (.new s : EVectorShape ρ) s := EVectorShape.whole_new s
  rw [(hp 0).size]
  refine (EVectorShape.spec_assign_safe hnew.spans hp.spans).safe fun _ _ => ?_
  refine ((Logged.Spec.forM_same fun _ _ => ?_).iff (imp_iff_right S.levels_ne_nil)).andThen
    fun _ _ => ?_
  · refine (spec_bitwise h hs hg).safe fun _ hgShift => ?_
    refine (spec_bitwise h hs hp).safe fun _ hpShift => ?_
    refine (spec_andB h hs hp hgShift).same fun _ hcarried => ?_
    refine (spec_or h hs hg hcarried).same fun _ hgOut => ?_
    refine (spec_andB h hs hp hpShift).andThen fun _ hpOut => ?_
    refine (EVectorShape.spec_assign_safe hg.spans hgOut.spans).safe fun _ _ => ?_
    exact EVectorShape.spec_assign_safe hp.spans hpOut.spans
  · refine (spec_bitwise h hs hg).safe fun _ hcarries => ?_
    exact spec_xorB h hs hnew hcarries

theorem spec_rippleCarryAdder (hx : x.Whole s) (hy : y.Whole s) :
    Spec (S.Batched least s ∧ S.Batched least (divCeil s S.dataType.maxBitsNumber))
      (S.rippleCarryAdder x y) (·.Whole s) := by
  have hw : 2 ≤ S.dataType.maxBitsNumber := by cases S.dataType <;> decide
  have ht : divCeil s S.dataType.maxBitsNumber ≤ limit := (divCeil_le s (by omega)).trans hs
  have hcarry : EVectorShape.Whole (.new (divCeil s S.dataType.maxBitsNumber) : EVectorShape ρ)
      (divCeil s S.dataType.maxBitsNumber) := EVectorShape.whole_new _
  have hsum : EVectorShape.Whole (.new s : EVectorShape ρ) s := EVectorShape.whole_new s
  refine (spec_xorB h hs hx hy).safe fun _ hxor => ?_
  refine (spec_andB h hs hx hy).bind fun _ hand => ?_
  rw [(hx 0).size, Int.toNat_natCast]
  refine ((Logged.Spec.forM (c := fun i => i < S.dataType.maxBitsNumber - 1 →
    S.Batched least (divCeil s S.dataType.maxBitsNumber)) fun i _ => ?_).iff ?_).andThen
      fun _ _ => .pure hsum
  · -- the columns of the bits `i`
    have hcolumn : ∀ {z : EVectorShape ρ}, z.Whole s →
        Spec True (z.simpleBitCompress S.dataType i 1 i 1)
          (·.Whole (divCeil s S.dataType.maxBitsNumber)) := fun hz =>
      compressedSize_at S.dataType s i ▸ EVectorShape.spec_simpleBitCompress hz.spans
    refine (hcolumn hxor).safe fun _ hxorI => ?_
    refine (hcolumn hand).safe fun _ handI => ?_
    refine (spec_xorB h ht hxorI hcarry).safe fun _ hsumI => ?_
    rw [← compressedSize_at S.dataType s i] at hsumI
    refine (EVectorShape.spec_simpleBitDecompress hsum.spans hsumI.spans).safe fun _ _ => ?_
    split
    next hi =>
      refine Logged.Spec.iff ?_ (imp_iff_right hi).symm
      refine (spec_andB h ht hcarry hxorI).same fun _ hpropagated => ?_
      refine (spec_or h ht handI hpropagated).andThen fun _ hnext => ?_
      exact EVectorShape.spec_assign_safe hcarry.spans hnext.spans
    next hi => exact (Logged.Spec.pure trivial).iff (iff_of_true trivial fun hlt => absurd hlt hi)
  · -- there is a round that carries
    exact ⟨fun hall => hall 0 (List.mem_range.mpr (by omega)) (by omega), fun hc _ _ _ => hc⟩

/-- The sizes of the vectors that `operator+` multiplies. -/
def addSizes (S : Setting ρ) (s : ℕ) : List ℕ :=
  if S.usePrefixAdder then [s] else [s, divCeil s S.dataType.maxBitsNumber]

theorem spec_addB (hx : x.Whole s) (hy : y.Whole s) :
    Spec (∀ t ∈ S.addSizes s, S.Batched least t) (S.addB x y) (·.Whole s) := by
  rw [addB, addSizes]
  split
  · exact (spec_parallelPrefixAdder h hs hx hy).iff (by simp)
  · exact (spec_rippleCarryAdder h hs hx hy).iff (by simp)

/-! ### `ASharedVector`, and `multiplex` -/

theorem spec_addA (hx : x.Whole s) (hy : y.Whole s) : Spec True (S.addA x y) (·.Whole s) :=
  spec_evaluate2_safe h hs h.primitives.addA hx hy

theorem spec_subA (hx : x.Whole s) (hy : y.Whole s) : Spec True (S.subA x y) (·.Whole s) :=
  spec_evaluate2_safe h hs h.primitives.subA hx hy

theorem spec_multiplyA (hx : x.Whole s) (hy : y.Whole s) :
    Spec (S.Batched least s) (S.multiplyA x y) (·.Whole s) :=
  spec_evaluate2 h hs h.primitives.multiplyA hx hy

theorem spec_a2b (hx : x.Whole s) :
    Spec (∀ t ∈ S.addSizes s, S.Batched least t) (S.a2b x) (·.Whole s) :=
  (spec_evaluatePair h hs h.primitives.redistributeSharesB hx).safe fun _ hres =>
    spec_addB h hs hres.1 hres.2

theorem spec_multiplexB {sel : EVectorShape ρ} (hsel : sel.Whole s) (hx : x.Whole s)
    (hy : y.Whole s) : Spec (S.Batched least s) (S.multiplexB sel x y) (·.Whole s) := by
  refine (spec_bitwise h hs hsel).safe fun _ hextended => ?_
  refine (spec_notB h hs hextended).safe fun _ hnot => ?_
  refine (spec_andB h hs hnot hx).same fun _ hleft => ?_
  refine (spec_andB h hs hextended hy).andThen fun _ hright => ?_
  exact spec_xorB h hs hleft hright

end Operators

end Spec

end Setting

end Tva.Accesses
