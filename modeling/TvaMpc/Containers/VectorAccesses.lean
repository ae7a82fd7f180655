import TvaMpc.Containers.BitCompress
import TvaMpc.Containers.VectorData
import TvaMpc.Machinery.Logged

/-!
# Containers/VectorAccesses — which elements the operations on vectors access

Which elements an operation reads and writes depends on the sizes and views of its operands alone.
So a vector is its data and the range of its current batch here, and an operation logs its accesses.
Elements that one round of a loop accesses again and again are logged once.

An operation is meant for operands of equal size, and trusts that the others have the size of the
first one: `spec_assign` says when that goes wrong.
-/

namespace Tva

open Machinery

/-- **The index of an access is below the number of elements**, of a view and of what it views. -/
def VectorData.InBounds : VectorData → ℤ → Prop
  | vectorData n, i => 0 ≤ i ∧ i < n
  | simple data s e step, i =>
      (0 ≤ i ∧ i < (simple data s e step).size) ∧ data.InBounds (s + i * step)
  | alternating data included excluded, i =>
      (0 ≤ i ∧ i < (alternating data included excluded).size)
        ∧ data.InBounds (i.tdiv included * (included + excluded) + i.tmod included)
  | reversedAlternating data included excluded, i =>
      (0 ≤ i ∧ i < (reversedAlternating data included excluded).size)
        ∧ data.InBounds (min (i.tdiv included * (included + excluded) + included - 1)
          (data.size - 1) - i.tmod included)
  | reversed data, i =>
      (0 ≤ i ∧ i < (reversed data).size) ∧ data.InBounds (max (data.size - 1) 0 - i)
  | repeated data r, i => (0 ≤ i ∧ i < (repeated data r).size) ∧ data.InBounds (i.tdiv r)
  | cyclic data c, i => (0 ≤ i ∧ i < (cyclic data c).size) ∧ data.InBounds (i.tmod data.size)

theorem VectorData.InBounds.lt {v : VectorData} {i : ℤ} (h : v.InBounds i) :
    0 ≤ i ∧ i < v.size := by
  cases v with
  | vectorData n => exact h
  | _ => exact h.1

namespace Accesses

/-- An access: the data and the index. -/
structure Access where
  data : VectorData
  index : ℤ

/-- The index is below the number of elements. -/
def Access.Ok (a : Access) : Prop := a.data.InBounds a.index

/-- A computation that logs its accesses. -/
abbrev Accessing := Logged Access

/-- All accesses are in bounds exactly if `c`, and the result satisfies `Q`. -/
abbrev Spec {α : Type} (c : Prop) (m : Accessing α) (Q : α → Prop) : Prop :=
  Logged.Spec Access.Ok c m Q

/-- The shape of a `Vector`. -/
structure VectorShape where
  data : VectorData
  batchStart : ℤ
  batchEnd : ℤ

namespace VectorShape

/-- `size()`. -/
def size (v : VectorShape) : ℤ := v.batchEnd - v.batchStart

/-- `total_size()`. -/
def totalSize (v : VectorShape) : ℤ := v.data.size

/-- A vector on data, with `reset_batch()`. -/
def ofData (data : VectorData) : VectorShape := ⟨data, 0, data.size⟩

/-- `Vector(size)`. -/
def new (size : ℤ) : VectorShape := ofData (.vectorData size.toNat)

/-- `set_batch`. -/
def setBatch (v : VectorShape) (startInd endInd : ℤ) : VectorShape :=
  ⟨v.data, if startInd ≥ 0 then startInd else 0,
    if endInd ≤ v.totalSize then endInd else v.totalSize⟩

/-- `simple_subset_reference(start, step, end)`. -/
def simpleSubsetReference (v : VectorShape) (startIndex step endIndex : ℤ) : VectorShape :=
  ofData (v.data.simpleSubsetReference startIndex step endIndex)

/-- `simple_subset_reference(start, step)`; the step is `1` if it is left out. -/
def simpleSubsetReferenceFrom (v : VectorShape) (startIndex step : ℤ) : VectorShape :=
  ofData (v.data.simpleSubsetReferenceFrom startIndex step)

/-- `repeated_subset_reference`. -/
def repeatedSubsetReference (v : VectorShape) (repetition : ℤ) : VectorShape :=
  ofData (v.data.repeatedSubsetReference repetition)

/-- `operator[]`. -/
def access (v : VectorShape) (index : ℤ) : Accessing Unit :=
  Logged.tell ⟨v.data, v.batchStart + index⟩

/-- `for (int i = 0; i < size; ++i)`. -/
def loop (size : ℤ) (body : ℤ → Accessing Unit) : Accessing Unit :=
  (List.range size.toNat).forM fun i : ℕ => body i

/-! ## The operations on a vector -/

/-- `define_binary_vector_op`. -/
def binaryOp (x y : VectorShape) : Accessing VectorShape := do
  let res := new x.size
  loop x.size fun i => do
    x.access i
    y.access i
    res.access i
  return res

/-- `define_unary_vector_op`, `define_binary_vector_element_op`, `ltz`, `extend_lsb`, `bit_xor` and
the bit shifts. -/
def unaryOp (x : VectorShape) : Accessing VectorShape := do
  let res := new x.size
  loop x.size fun i => do
    x.access i
    res.access i
  return res

/-- `mask` and `set_bits`. -/
def modify (x : VectorShape) : Accessing Unit := loop x.size fun i => x.access i

/-- The deep `operator=`. -/
def assign (x other : VectorShape) : Accessing Unit :=
  loop x.size fun i => do
    other.access i
    x.access i

/-- `same_as`, up to its end. -/
def sameAs (x other : VectorShape) : Accessing Unit :=
  if x.size ≠ other.size then return ()
  else loop other.size fun i => do
    x.access i
    other.access i

/-- `simple_bit_compress`. -/
def simpleBitCompress (d : DataType) (x : VectorShape) (start step stop repetition : ℤ) :
    Accessing VectorShape := do
  let bits := bitsPerElement start step stop repetition
  let totalBits := bits * x.size
  let res := new (divCeil totalBits.toNat d.bits)
  loop totalBits fun i => do
    x.access (i.tdiv bits)
    res.access (i.tdiv d.bits)
  return res

/-- `simple_bit_decompress`. -/
def simpleBitDecompress (d : DataType) (x other : VectorShape) (start step stop repetition : ℤ) :
    Accessing Unit :=
  let bits := bitsPerElement start step stop repetition
  loop (bits * x.size) fun i => do
    other.access (i.tdiv d.bits)
    x.access (i.tdiv bits)

end VectorShape

/-- The columns of an `EVector`. -/
abbrev EVectorShape (ρ : ℕ) := Fin ρ → VectorShape

namespace EVectorShape

variable {ρ : ℕ}

/-- `EVector(size)`. -/
def new (size : ℤ) : EVectorShape ρ := fun _ => .new size

/-- `set_batch`. -/
def setBatch (x : EVectorShape ρ) (startInd endInd : ℤ) : EVectorShape ρ :=
  fun c => (x c).setBatch startInd endInd

/-- `simple_subset_reference(start, step, end)`. -/
def simpleSubsetReference (x : EVectorShape ρ) (startIndex step endIndex : ℤ) : EVectorShape ρ :=
  fun c => (x c).simpleSubsetReference startIndex step endIndex

/-- `simple_subset_reference(start, step)`. -/
def simpleSubsetReferenceFrom (x : EVectorShape ρ) (startIndex step : ℤ) : EVectorShape ρ :=
  fun c => (x c).simpleSubsetReferenceFrom startIndex step

/-- `repeated_subset_reference`. -/
def repeatedSubsetReference (x : EVectorShape ρ) (repetition : ℤ) : EVectorShape ρ :=
  fun c => (x c).repeatedSubsetReference repetition

/-- An operation on every column (`define_apply_to_replicated`). -/
def forColumns (f : Fin ρ → Accessing Unit) : Accessing Unit := (List.finRange ρ).forM f

/-- The deep `operator=`. -/
def assign (x other : EVectorShape ρ) : Accessing Unit :=
  forColumns fun c => (x c).assign (other c)

/-- `define_binary_evector_evector_op`. -/
def binaryOp (x y : EVectorShape ρ) : Accessing (EVectorShape ρ) :=
  Logged.family fun c => (x c).binaryOp (y c)

/-- The operations that make a vector of the same size from every column. -/
def unaryOp (x : EVectorShape ρ) : Accessing (EVectorShape ρ) :=
  Logged.family fun c => (x c).unaryOp

/-- `mask` and `set_bits`. -/
def modify (x : EVectorShape ρ) : Accessing Unit := forColumns fun c => (x c).modify

/-- `simple_bit_compress`. -/
def simpleBitCompress (d : DataType) (x : EVectorShape ρ) (start step stop repetition : ℤ) :
    Accessing (EVectorShape ρ) :=
  Logged.family fun c => (x c).simpleBitCompress d start step stop repetition

/-- `simple_bit_decompress`. -/
def simpleBitDecompress (d : DataType) (x other : EVectorShape ρ)
    (start step stop repetition : ℤ) : Accessing Unit :=
  forColumns fun c => (x c).simpleBitDecompress d (other c) start step stop repetition

end EVectorShape

/-! ## Sizes -/

/-- The data has `s` elements, and all indices below `s` are in bounds. -/
structure Sized (data : VectorData) (s : ℕ) : Prop where
  size : data.size = s
  inBounds {i : ℕ} (hi : i < s) : data.InBounds i

namespace VectorShape

variable {v x y : VectorShape} {s t : ℕ}

/-- The current batch has `s` elements, which are in bounds. -/
structure Spans (v : VectorShape) (s : ℕ) : Prop where
  size : v.size = s
  inBounds {i : ℕ} (hi : i < s) : v.data.InBounds (v.batchStart + i)

/-- The current batch is the whole vector, of `s` elements. -/
structure Whole (v : VectorShape) (s : ℕ) : Prop where
  eq : v = ofData v.data
  sized : Sized v.data s

theorem whole_ofData {data : VectorData} (h : Sized data s) : Whole (ofData data) s := ⟨rfl, h⟩

theorem sized_vectorData (s : ℕ) : Sized (.vectorData s) s :=
  ⟨rfl, fun {i} hi => ⟨Int.natCast_nonneg i, Int.ofNat_lt.mpr hi⟩⟩

theorem whole_new (s : ℕ) : Whole (new s) s := whole_ofData (sized_vectorData s)

theorem Whole.totalSize (h : Whole v s) : v.totalSize = s := h.sized.size

theorem Whole.spans (h : Whole v s) : Spans v s := by
  obtain ⟨heq, hsized⟩ := h
  rw [heq]
  refine ⟨?_, fun {i} hi => ?_⟩
  · exact (sub_zero _).trans hsized.size
  · have h := hsized.inBounds hi
    rwa [← zero_add (i : ℤ)] at h

theorem Whole.size (h : Whole v s) : v.size = s := h.spans.size

/-- A batch of a vector is a range of its elements. -/
theorem Whole.setBatch (h : Whole v s) {a b : ℕ} (hab : a ≤ b) (hb : b ≤ s) :
    Spans (v.setBatch a b) (b - a) := by
  have htotal := h.totalSize
  rw [VectorShape.setBatch, if_pos (Int.natCast_nonneg a), if_pos (by omega)]
  refine ⟨?_, fun {i} hi => ?_⟩
  · exact (Nat.cast_sub hab).symm
  · have h := h.sized.inBounds (i := a + i) (by omega)
    rwa [Nat.cast_add] at h

/-! ## What the operations access -/

theorem spec_access (h : Spans v s) {i : ℕ} (hi : i < s) :
    Spec True (v.access i) fun _ => True :=
  (Logged.Spec.tell _).iff (iff_true_intro (h.inBounds hi))

theorem spec_loop {size : ℤ} (hsize : size = s) {body : ℤ → Accessing Unit} {c : ℕ → Prop}
    (h : ∀ i : ℕ, i < s → Spec (c i) (body i) fun _ => True) :
    Spec (∀ i < s, c i) (loop size body) fun _ => True := by
  subst hsize
  refine (Logged.Spec.forM (c := c) fun i hi => h i (List.mem_range.mp hi)).iff ?_
  simp only [List.mem_range]

theorem spec_loop_safe {size : ℤ} (hsize : size = s) {body : ℤ → Accessing Unit}
    (h : ∀ i : ℕ, i < s → Spec True (body i) fun _ => True) :
    Spec True (loop size body) fun _ => True :=
  (spec_loop hsize h).iff (by simp)

theorem spec_binaryOp (hx : Spans x s) (hy : Spans y s) :
    Spec True (binaryOp x y) fun res => Whole res s := by
  rw [binaryOp, hx.size]
  exact (spec_loop_safe rfl fun i hi => (spec_access hx hi).safe fun _ _ =>
    (spec_access hy hi).safe fun _ _ => spec_access (whole_new s).spans hi).safe
      fun _ _ => .pure (whole_new s)

theorem spec_unaryOp (hx : Spans x s) :
    Spec True (unaryOp x) fun res => Whole res s := by
  rw [unaryOp, hx.size]
  exact (spec_loop_safe rfl fun i hi => (spec_access hx hi).safe fun _ _ =>
    spec_access (whole_new s).spans hi).safe fun _ _ => .pure (whole_new s)

theorem spec_modify (hx : Spans x s) :
    Spec True (modify x) fun _ => True :=
  spec_loop_safe hx.size fun _ hi => spec_access hx hi

theorem spec_assign_safe (hx : Spans x s) (hy : Spans y s) :
    Spec True (assign x y) fun _ => True :=
  spec_loop_safe hx.size fun _ hi => (spec_access hy hi).safe fun _ _ => spec_access hx hi

theorem spec_sameAs (hx : Spans x s) (hy : Spans y s) :
    Spec True (sameAs x y) fun _ => True := by
  rw [sameAs, if_neg (not_not.mpr (hx.size.trans hy.size.symm))]
  exact spec_loop_safe hy.size fun _ hi => (spec_access hx hi).safe fun _ _ => spec_access hy hi

/-- An index of a whole vector is in bounds only below the size. -/
theorem spec_access_iff (h : Whole v s) (i : ℕ) :
    Spec (i < s) (v.access i) fun _ => True := by
  refine (Logged.Spec.tell _).iff ⟨fun hok => ?_, fun hi => h.spans.inBounds hi⟩
  have hlt := (VectorData.InBounds.lt hok).2
  have hstart : v.batchStart = 0 := by rw [h.eq]; rfl
  simp only [h.sized.size, hstart, zero_add] at hlt
  exact_mod_cast hlt

/-- **The assignment trusts that the right side has as many elements as the left side.** -/
theorem spec_assign (hx : Spans x s) (hy : Whole y t) :
    Spec (s ≤ t) (assign x y) fun _ => True := by
  refine (spec_loop hx.size (c := fun i => i < t) fun i hi => ?_).iff ?_
  · exact (spec_access_iff hy i).andThen fun _ _ => spec_access hx hi
  · exact ⟨fun h => not_lt.mp fun hlt => lt_irrefl _ (h t hlt), fun h i hi => hi.trans_le h⟩

section Bits

variable {d : DataType} {start step stop repetition : ℤ}

/-- The size of the packed bits of `s` elements. -/
theorem packed_lt {k i : ℕ} (hi : i < k * s) : i / k < s ∧ i / d.bits < divCeil (k * s) d.bits :=
  ⟨Nat.div_lt_of_lt_mul hi, div_lt_divCeil d.bits_pos hi⟩

theorem spec_simpleBitCompress (hx : Spans x s) :
    Spec True (simpleBitCompress d x start step stop repetition)
      fun res => Whole res (compressedSize d s start step stop repetition) := by
  have htotal : (bitsPerElement start step stop repetition : ℤ) * x.size
      = (bitsPerElement start step stop repetition * s : ℕ) := by rw [hx.size, Nat.cast_mul]
  rw [simpleBitCompress, htotal, Int.toNat_natCast]
  refine (spec_loop_safe rfl fun i hi => ?_).safe fun _ _ => .pure (whole_new _)
  obtain ⟨hs, hw⟩ := packed_lt (d := d) hi
  rw [← Int.ofNat_tdiv, ← Int.ofNat_tdiv]
  exact (spec_access hx hs).safe fun _ _ => spec_access (whole_new _).spans hw

theorem spec_simpleBitDecompress (hx : Spans x s)
    (hy : Spans y (compressedSize d s start step stop repetition)) :
    Spec True (simpleBitDecompress d x y start step stop repetition)
      fun _ => True := by
  have htotal : (bitsPerElement start step stop repetition : ℤ) * x.size
      = (bitsPerElement start step stop repetition * s : ℕ) := by rw [hx.size, Nat.cast_mul]
  rw [simpleBitDecompress, htotal]
  refine spec_loop_safe rfl fun i hi => ?_
  obtain ⟨hs, hw⟩ := packed_lt (d := d) hi
  rw [← Int.ofNat_tdiv, ← Int.ofNat_tdiv]
  exact (spec_access hy hw).safe fun _ _ => spec_access hx hs

end Bits

/-! ## Views -/

/-- Rows `0, …, m - 1`, where a missing row ends the view. -/
theorem Whole.firstRows (h : Whole v s) {m : ℕ} {e : ℤ} (he : e = m - 1) :
    Whole (v.simpleSubsetReference 0 1 e) (min s m) := by
  subst he
  refine whole_ofData ⟨?_, fun {i} hi => ?_⟩
  · rw [VectorData.simpleSubsetReference, VectorData.size, h.sized.size, Int.tdiv_one]
    omega
  · rw [VectorData.simpleSubsetReference, VectorData.InBounds, VectorData.size, h.sized.size,
      Int.tdiv_one, zero_add, mul_one]
    exact ⟨⟨Int.natCast_nonneg i, by omega⟩, h.sized.inBounds (by omega)⟩

/-- The rows from `a` on. -/
theorem Whole.rowsFrom (h : Whole v s) {a : ℕ} (hs : 0 < s) (ha : a ≤ s) :
    Whole (v.simpleSubsetReferenceFrom a 1) (s - a) := by
  refine whole_ofData ⟨?_, fun {i} hi => ?_⟩
  · rw [VectorData.simpleSubsetReferenceFrom, VectorData.size, h.sized.size, Int.tdiv_one]
    omega
  · rw [VectorData.simpleSubsetReferenceFrom, VectorData.InBounds, VectorData.size, h.sized.size,
      Int.tdiv_one, mul_one, ← Nat.cast_add]
    exact ⟨⟨Int.natCast_nonneg i, by omega⟩, h.sized.inBounds (by omega)⟩

/-- One element, repeated. -/
theorem Whole.repeated (h : Whole v 1) (r : ℕ) : Whole (v.repeatedSubsetReference r) r := by
  refine whole_ofData ⟨?_, fun {i} hi => ?_⟩
  · rw [VectorData.repeatedSubsetReference, VectorData.size, h.sized.size, Nat.cast_one, one_mul]
  · rw [VectorData.repeatedSubsetReference, VectorData.InBounds, VectorData.size, h.sized.size,
      Nat.cast_one, one_mul, ← Int.ofNat_tdiv, Nat.div_eq_of_lt hi]
    exact ⟨⟨Int.natCast_nonneg i, by omega⟩, h.sized.inBounds one_pos⟩

end VectorShape

namespace EVectorShape

variable {ρ s t : ℕ} {x y : EVectorShape ρ}

/-- Every column has a batch of `s` elements. -/
def Spans (x : EVectorShape ρ) (s : ℕ) : Prop := ∀ c, (x c).Spans s

/-- Every column has `s` elements. -/
def Whole (x : EVectorShape ρ) (s : ℕ) : Prop := ∀ c, (x c).Whole s

theorem Whole.spans (h : Whole x s) : Spans x s := fun c => (h c).spans

theorem whole_new (s : ℕ) : Whole (new s : EVectorShape ρ) s := fun _ => VectorShape.whole_new s

theorem Whole.setBatch (h : Whole x s) {a b : ℕ} (hab : a ≤ b) (hb : b ≤ s) :
    Spans (x.setBatch a b) (b - a) := fun c => (h c).setBatch hab hb

/-- Rows `0, …, m - 1`. -/
theorem Whole.firstRows (h : Whole x s) {m : ℕ} {e : ℤ} (he : e = m - 1) (hm : m ≤ s) :
    Whole (x.simpleSubsetReference 0 1 e) m := fun c => by
  have hfirst := (h c).firstRows he
  rwa [min_eq_right hm] at hfirst

/-- The rows from `a` on. -/
theorem Whole.rowsFrom (h : Whole x s) {a : ℕ} (hs : 0 < s) (ha : a ≤ s) :
    Whole (x.simpleSubsetReferenceFrom a 1) (s - a) := fun c => (h c).rowsFrom hs ha

/-- One element, repeated. -/
theorem Whole.repeated (h : Whole x 1) (r : ℕ) : Whole (x.repeatedSubsetReference r) r :=
  fun c => (h c).repeated r

theorem spec_assign_safe (hx : Spans x s) (hy : Spans y s) :
    Spec True (assign x y) fun _ => True :=
  .forM_safe fun c _ => VectorShape.spec_assign_safe (hx c) (hy c)

theorem spec_assign (hρ : 0 < ρ) (hx : Spans x s) (hy : Whole y t) :
    Spec (s ≤ t) (assign x y) fun _ => True :=
  (Logged.Spec.forM fun c _ => VectorShape.spec_assign (hx c) (hy c)).iff
    ⟨fun h => h ⟨0, hρ⟩ (List.mem_finRange _), fun h _ _ => h⟩

theorem spec_binaryOp (hx : Spans x s) (hy : Spans y s) :
    Spec True (binaryOp x y) fun res => Whole res s :=
  .family_safe fun c => VectorShape.spec_binaryOp (hx c) (hy c)

theorem spec_unaryOp (hx : Spans x s) :
    Spec True (unaryOp x) fun res => Whole res s :=
  .family_safe fun c => VectorShape.spec_unaryOp (hx c)

theorem spec_modify (hx : Spans x s) :
    Spec True (modify x) fun _ => True :=
  .forM_safe fun c _ => VectorShape.spec_modify (hx c)

section Bits

variable {d : DataType} {start step stop repetition : ℤ}

theorem spec_simpleBitCompress (hx : Spans x s) :
    Spec True (simpleBitCompress d x start step stop repetition)
      fun res => Whole res (compressedSize d s start step stop repetition) :=
  .family_safe fun c => VectorShape.spec_simpleBitCompress (hx c)

theorem spec_simpleBitDecompress (hx : Spans x s)
    (hy : Spans y (compressedSize d s start step stop repetition)) :
    Spec True (simpleBitDecompress d x y start step stop repetition)
      fun _ => True :=
  .forM_safe fun c _ => VectorShape.spec_simpleBitDecompress (hx c) (hy c)

end Bits

end EVectorShape

end Accesses

end Tva
