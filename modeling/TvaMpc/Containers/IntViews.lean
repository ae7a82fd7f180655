import TvaMpc.Containers.VectorData
import TvaMpc.Machinery.CInt

/-!
# Containers/IntViews — index views in the arithmetic of `int`

`VectorDataSize` is `int`: a view computes its size when it is made, and an index when it is asked
for one, and either may overflow.  A view is `Exact` if neither does; then it is what it is without
the limits of `int`.  Every call keeps a view exact if it `Fits` (`Exact.reference_iff`), and exact
compositions are faithful (`views_faithful`).
-/

namespace Tva

open Machinery

namespace VectorData

/-- `size()`, which a view computes when it is made. -/
def intSize : VectorData → Option ℤ
  | vectorData n => int n
  | simple data startIndex endIndex step => do
      let size ← data.intSize
      let range ← int (endIndex - startIndex)
      let count ← int ((← intDiv range step) + 1)
      return min size count
  | alternating data includedSize excludedSize
  | reversedAlternating data includedSize excludedSize => do
      let size ← data.intSize
      let chunkSize ← int (includedSize + excludedSize)
      let whole ← int ((← intDiv size chunkSize) * includedSize)
      int (whole + min includedSize (← intMod size chunkSize))
  | reversed data => data.intSize
  | repeated data repetitionNumber => do int ((← data.intSize) * repetitionNumber)
  | cyclic data cyclesNumber => do int ((← data.intSize) * cyclesNumber)

/-- `operator[]`: the index in the array. -/
def intIndex : VectorData → ℤ → Option ℤ
  | vectorData _, i => some i
  | simple data startIndex _ step, i => do
      data.intIndex (← int (startIndex + (← int (i * step))))
  | alternating data includedSize excludedSize, i => do
      let chunkSize ← int (includedSize + excludedSize)
      let chunkStart ← int ((← intDiv i includedSize) * chunkSize)
      data.intIndex (← int (chunkStart + (← intMod i includedSize)))
  | reversedAlternating data includedSize excludedSize, i => do
      let chunkSize ← int (includedSize + excludedSize)
      let chunkNumber ← intDiv i includedSize
      let chunkIndex ← intMod i includedSize
      let chunkEnd ← int ((← int (chunkNumber * chunkSize)) + includedSize)
      let chunkOffset := min (← int (chunkEnd - 1)) (← int ((← data.intSize) - 1))
      data.intIndex (← int (chunkOffset - chunkIndex))
  | reversed data, i => do
      let startIndex := max (← int ((← data.intSize) - 1)) 0
      data.intIndex (← int (startIndex - i))
  | repeated data repetitionNumber, i => do data.intIndex (← intDiv i repetitionNumber)
  | cyclic data _, i => do data.intIndex (← intMod i (← data.intSize))

/-- `operator=`: write what another vector shows, element by element. -/
def intAssign {α : Type*} (v : VectorData) (other : ℕ → α) (base : List α) : Option (List α) :=
  v.intSize.bind fun size => (List.range size.toNat).foldlM (fun (base : List α) (i : ℕ) =>
    (v.intIndex i).bind fun place =>
      if 0 ≤ place ∧ place < base.length then some (base.set place.toNat (other i)) else none) base

/-- **No overflow**: the view computes what it is. -/
structure Exact (v : VectorData) : Prop where
  size : v.intSize = some v.size
  nonneg : 0 ≤ v.size
  le : v.size ≤ 2147483647
  index {k : ℕ} (hk : k < v.size) : v.intIndex k = some (v.index k)

end VectorData

/-- What the call computes on `size` elements are `int`s. -/
def Subset.Fits (size : ℤ) : Subset → Prop
  | simple _ _ _ | reversed => True
  | alternating i e => i + e ≤ 2147483647
  | reversedAlternating i e => i + e ≤ 2147483647 ∧
      (0 < size → (size - 1) / (i + e) * (i + e) + i ≤ 2147483647)
  | repeated r => size * r ≤ 2147483647
  | cyclic c => size * c ≤ 2147483647

/-- Every call of the composition fits the vector it is made on. -/
def FitsOn : VectorData → List Subset → Prop
  | _, [] => True
  | v, s :: subsets => s.Fits v.size ∧ FitsOn (s.reference v) subsets

instance (size : ℤ) : (s : Subset) → Decidable (s.Fits size)
  | .simple _ _ _ | .reversed => .isTrue trivial
  | .alternating _ _ | .repeated _ | .cyclic _ => Int.decLe _ _
  | .reversedAlternating _ _ =>
      @instDecidableAnd _ _ (Int.decLe _ _)
        (@instDecidableForall _ _ (Int.decLt _ _) (Int.decLe _ _))

instance decidableFitsOn : (v : VectorData) → (subsets : List Subset) → Decidable (FitsOn v subsets)
  | _, [] => .isTrue trivial
  | v, s :: subsets =>
      let _ := decidableFitsOn (s.reference v) subsets
      inferInstanceAs (Decidable (_ ∧ _))

/-! ## One view -/

theorem VectorData.size_alternating {v : VectorData} {n : ℕ} (hn : v.size = n) (i e : ℕ) :
    (VectorData.alternating v i e).size = (n / (i + e) * i + min i (n % (i + e)) : ℕ) := by
  have hmin : min (i : ℤ) (n % (i + e) : ℕ) = (min i (n % (i + e)) : ℕ) := by omega
  rw [VectorData.size, hn, ← Int.natCast_add, ← Int.ofNat_tdiv, ← Int.ofNat_tmod, hmin,
    ← Int.natCast_mul, ← Int.natCast_add]

/-- What an alternating view shows is in the included part of its chunk. -/
theorem VectorData.mod_lt_of_lt_alternating {v : VectorData} {n i e k : ℕ} (hn : v.size = n)
    (hi : 0 < i) (hk : k < (VectorData.alternating v i e).size) :
    k % i < min i (n - k / i * (i + e)) := by
  rw [size_alternating hn, Int.ofNat_lt] at hk
  exact mod_keep_lt hi hk

/-- Both `RepeatedVectorData` and `CyclicVectorData` have so many elements. -/
theorem VectorData.intSize_times {v : VectorData} {n r : ℕ} (h : v.intSize = some (n : ℤ))
    (hfits : n * r ≤ 2147483647) : (do int ((← v.intSize) * r)) = some ((n * r : ℕ) : ℤ) := by
  rw [h]
  simp only [Option.bind_eq_bind, Option.bind_some]
  rw [← Int.natCast_mul, int_natCast hfits]

namespace VectorData.Exact

variable {v : VectorData} (h : Exact v)
include h

theorem simple {s step e : ℤ} (hs : (Subset.simple s step e).Valid v.size) :
    Exact (.simple v s e step) := by
  have hnonneg := h.nonneg
  have hle := h.le
  rcases hs with ⟨hstep, hs, hse, he⟩ | ⟨rfl, rfl⟩
  · lift step to ℕ using by omega
    lift s to ℕ using hs
    lift e to ℕ using by omega
    have hstep' : 0 < step := by omega
    have hrange : (e : ℤ) - s = (e - s : ℕ) := by omega
    obtain ⟨q, hq⟩ : ∃ q, q = (e - s) / step := ⟨_, rfl⟩
    have hqle : q ≤ e - s := hq ▸ Nat.div_le_self _ _
    have hsize : (VectorData.simple v s e step).size = min v.size (q + 1) := by
      rw [VectorData.size, hrange, ← Int.ofNat_tdiv, ← hq]
    refine ⟨?_, by rw [hsize]; omega, by rw [hsize]; omega, fun {k} hk => ?_⟩
    · rw [hsize, intSize, h.size, hrange]
      simp only [Option.bind_eq_bind, Option.bind_some, Option.pure_def]
      rw [int_natCast (by omega), Option.bind_some, intDiv_natCast (by omega) hstep', ← hq,
        Option.bind_some, int_self (by omega) (by omega), Option.bind_some]
    · rw [hsize] at hk
      have hmul : k * step ≤ e - s := by
        have hkq : k ≤ (e - s) / step := by omega
        exact (Nat.mul_le_mul_right _ hkq).trans (Nat.div_mul_le_self _ _)
      rw [intIndex, VectorData.index, ← Int.natCast_mul, int_natCast (by omega)]
      simp only [Option.bind_eq_bind, Option.bind_some]
      rw [← Int.natCast_add, int_natCast (by omega), Option.bind_some]
      exact h.index (by omega)
  · have hrange : e - (e + 1) = -1 := by omega
    have hdiv : intDiv (-1) 1 = some (-1) := by decide
    have hsize : (VectorData.simple v (e + 1) e 1).size = 0 := by
      rw [VectorData.size, hrange]
      exact min_eq_right hnonneg
    refine ⟨?_, hsize.ge, by omega, fun {k} hk => by omega⟩
    rw [hsize, intSize, h.size, hrange]
    simp only [Option.bind_eq_bind, Option.bind_some, Option.pure_def]
    rw [int_self (by omega) (by omega), Option.bind_some, hdiv, Option.bind_some,
      int_self (by omega) (by omega), Option.bind_some]
    exact congrArg some (min_eq_right hnonneg)

/-- The size of both alternating views. -/
theorem alternating_size {i e : ℕ} (hi : 0 < i) (hfits : i + e ≤ 2147483647) :
    (VectorData.alternating v i e).intSize = some (VectorData.alternating v i e).size ∧
      0 ≤ (VectorData.alternating v i e).size ∧
      (VectorData.alternating v i e).size ≤ v.size := by
  obtain ⟨n, hn⟩ := Int.eq_ofNat_of_zero_le h.nonneg
  have hle : n ≤ 2147483647 := by have := h.le; omega
  have hwhole : n / (i + e) * i ≤ n / (i + e) * (i + e) := Nat.mul_le_mul_left _ (by omega)
  have hdm := Nat.div_add_mod' n (i + e)
  have hmin : min (i : ℤ) (n % (i + e) : ℕ) = (min i (n % (i + e)) : ℕ) := by omega
  have hsize := size_alternating hn i e
  refine ⟨?_, by omega, by omega⟩
  rw [hsize, intSize, h.size, hn]
  simp only [Option.bind_eq_bind, Option.bind_some]
  rw [← Int.natCast_add, int_natCast hfits, Option.bind_some, intDiv_natCast hle (by omega),
    Option.bind_some, ← Int.natCast_mul, int_natCast (by omega), Option.bind_some,
    intMod_natCast hle (by omega), Option.bind_some, hmin, ← Int.natCast_add,
    int_natCast (by omega)]

theorem alternating {i e : ℕ} (hi : 0 < i) (hfits : i + e ≤ 2147483647) :
    Exact (.alternating v i e) := by
  obtain ⟨hint, hnonneg, hle⟩ := h.alternating_size hi hfits
  refine ⟨hint, hnonneg, hle.trans h.le, fun {k} hk => ?_⟩
  obtain ⟨n, hn⟩ := Int.eq_ofNat_of_zero_le h.nonneg
  have hbound : n ≤ 2147483647 := by have := h.le; omega
  have hplace := mod_lt_of_lt_alternating hn hi hk
  rw [intIndex, VectorData.index, ← Int.natCast_add, int_natCast hfits]
  simp only [Option.bind_eq_bind, Option.bind_some]
  rw [intDiv_natCast (by omega) hi, Option.bind_some, ← Int.natCast_mul, int_natCast (by omega),
    Option.bind_some, intMod_natCast (by omega) hi, Option.bind_some, ← Int.natCast_add,
    int_natCast (by omega), Option.bind_some, h.index (by omega), Int.natCast_add, Int.natCast_mul,
    Int.ofNat_tdiv, Int.ofNat_tmod]

/-- The last index is asked for in the last chunk. -/
theorem exists_last {i e : ℕ} (hi : 0 < i) (hpos : 0 < v.size) :
    ∃ k : ℕ, (k : ℤ) < (VectorData.alternating v i e).size ∧
      ((k / i : ℕ) : ℤ) = (v.size - 1) / (i + e : ℕ) := by
  obtain ⟨n, hn⟩ := Int.eq_ofNat_of_zero_le h.nonneg
  obtain ⟨hkept, hlast⟩ := last_div_keep e hi (by omega : 0 < n)
  have hpred : (n : ℤ) - 1 = (n - 1 : ℕ) := by omega
  refine ⟨n / (i + e) * i + min i (n % (i + e)) - 1, ?_, ?_⟩
  · rw [size_alternating hn, Int.ofNat_lt]
    exact Nat.sub_one_lt_of_lt hkept
  · rw [hlast, hn, hpred, Int.natCast_ediv]

theorem reversedAlternating {i e : ℕ} (hi : 0 < i) (hfits : i + e ≤ 2147483647)
    (hlast : 0 < v.size → (v.size - 1) / (i + e : ℕ) * (i + e : ℕ) + i ≤ 2147483647) :
    Exact (.reversedAlternating v i e) := by
  obtain ⟨hint, hnonneg, hle⟩ := h.alternating_size hi hfits
  refine ⟨hint, hnonneg, hle.trans h.le, fun {k} hk => ?_⟩
  change (k : ℤ) < (VectorData.alternating v i e).size at hk
  obtain ⟨n, hn⟩ := Int.eq_ofNat_of_zero_le h.nonneg
  have hbound : n ≤ 2147483647 := by have := h.le; omega
  have hplace := mod_lt_of_lt_alternating hn hi hk
  have hchunk : k / i * (i + e) ≤ (n - 1) / (i + e) * (i + e) :=
    Nat.mul_le_mul_right _ ((Nat.le_div_iff_mul_le (by omega)).mpr (by omega))
  have hend : k / i * (i + e) + i ≤ 2147483647 := by
    have hpred : (n : ℤ) - 1 = (n - 1 : ℕ) := by omega
    rw [hn, hpred, ← Int.natCast_ediv, ← Int.natCast_mul] at hlast
    omega
  have hindex : min (((k / i * (i + e) : ℕ) : ℤ) + i - 1) ((n : ℤ) - 1) - (k % i : ℕ)
      = (min (k / i * (i + e) + i - 1) (n - 1) - k % i : ℕ) := by omega
  rw [intIndex, VectorData.index, ← Int.natCast_add, int_natCast hfits, h.size, hn]
  simp only [Option.bind_eq_bind, Option.bind_some]
  rw [intDiv_natCast (by omega) hi, Option.bind_some, intMod_natCast (by omega) hi,
    Option.bind_some, ← Int.natCast_mul, int_natCast (by omega), Option.bind_some,
    ← Int.natCast_add, int_natCast hend, Option.bind_some, int_self (by omega) (by omega),
    Option.bind_some, int_self (by omega) (by omega), Option.bind_some, ← Int.ofNat_tdiv,
    ← Int.ofNat_tmod, Int.natCast_add, ← Int.natCast_mul, hindex, int_natCast (by omega),
    Option.bind_some]
  exact h.index (by omega)

theorem reversed : Exact (.reversed v) := by
  refine ⟨h.size, h.nonneg, h.le, fun {k} hk => ?_⟩
  have hle := h.le
  change (k : ℤ) < v.size at hk
  obtain ⟨n, hn⟩ := Int.eq_ofNat_of_zero_le h.nonneg
  have hplace : max (v.size - 1) 0 - k = ((n - 1 - k : ℕ) : ℤ) := by omega
  rw [intIndex, VectorData.index, h.size]
  simp only [Option.bind_eq_bind, Option.bind_some]
  rw [int_self (by omega) (by omega), Option.bind_some, hplace, int_natCast (by omega),
    Option.bind_some]
  exact h.index (by omega)

theorem repeated {r : ℕ} (hr : 0 < r) (hfits : v.size * r ≤ 2147483647) :
    Exact (.repeated v r) := by
  obtain ⟨n, hn⟩ := Int.eq_ofNat_of_zero_le h.nonneg
  have hfits' : n * r ≤ 2147483647 := by
    rw [hn, ← Int.natCast_mul] at hfits
    omega
  have hsize : (VectorData.repeated v r).size = ((n * r : ℕ) : ℤ) := by
    rw [VectorData.size, hn, Int.natCast_mul]
  refine ⟨?_, by omega, by omega, fun {k} hk => ?_⟩
  · rw [hsize]
    exact intSize_times (hn ▸ h.size) hfits'
  · have hk' : k < n * r := by omega
    rw [intIndex, VectorData.index, intDiv_natCast (by omega) hr, ← Int.ofNat_tdiv]
    have hlt : k / r < n := (Nat.div_lt_iff_lt_mul hr).mpr hk'
    exact h.index (by omega)

theorem cyclic {c : ℕ} (hfits : v.size * c ≤ 2147483647) : Exact (.cyclic v c) := by
  obtain ⟨n, hn⟩ := Int.eq_ofNat_of_zero_le h.nonneg
  have hfits' : n * c ≤ 2147483647 := by
    rw [hn, ← Int.natCast_mul] at hfits
    omega
  have hsize : (VectorData.cyclic v c).size = ((n * c : ℕ) : ℤ) := by
    rw [VectorData.size, hn, Int.natCast_mul]
  refine ⟨?_, by omega, by omega, fun {k} hk => ?_⟩
  · rw [hsize]
    exact intSize_times (hn ▸ h.size) hfits'
  · have hk' : k < n * c := by omega
    have hpos : 0 < n := Nat.pos_of_mul_pos_right (Nat.zero_lt_of_lt hk')
    rw [intIndex, VectorData.index, h.size, hn]
    simp only [Option.bind_eq_bind, Option.bind_some]
    rw [intMod_natCast (by omega) hpos, Option.bind_some, ← Int.ofNat_tmod]
    have hlt := Nat.mod_lt k hpos
    exact h.index (by omega)

/-- **A call keeps a view exact exactly if it fits.** -/
theorem reference_iff {s : Subset} (hs : s.Valid v.size) :
    Exact (s.reference v) ↔ s.Fits v.size := by
  cases s with
  | simple => exact iff_of_true (h.simple hs) trivial
  | reversed => exact iff_of_true h.reversed trivial
  | alternating i e =>
    obtain ⟨hi, he⟩ := hs
    lift i to ℕ using by omega
    lift e to ℕ using he
    have href : v.alternatingSubsetReference i e = .alternating v i e := if_pos (by omega)
    rw [Subset.reference, href, Subset.Fits]
    refine ⟨fun hview => ?_, fun hfits => h.alternating (by omega) (by omega)⟩
    have hsize := hview.size
    simp only [intSize, Option.bind_eq_bind, Option.bind_eq_some_iff, int_eq_some_iff] at hsize
    obtain ⟨_, -, _, ⟨hsum, -⟩, -⟩ := hsize
    exact hsum.2
  | reversedAlternating i e =>
    obtain ⟨hi, he⟩ := hs
    lift i to ℕ using by omega
    lift e to ℕ using he
    have href : v.reversedAlternatingSubsetReference i e = .reversedAlternating v i e :=
      if_pos (by omega)
    rw [Subset.reference, href, Subset.Fits, ← Int.natCast_add]
    refine ⟨fun hview => ⟨?_, fun hpos => ?_⟩, fun hfits =>
      h.reversedAlternating (by omega) (by omega) hfits.2⟩
    · have hsize := hview.size
      simp only [intSize, Option.bind_eq_bind, Option.bind_eq_some_iff, int_eq_some_iff] at hsize
      obtain ⟨_, -, _, ⟨hsum, -⟩, -⟩ := hsize
      omega
    · obtain ⟨k, hk, hchunk⟩ := h.exists_last (i := i) (e := e) (by omega) hpos
      have hindex := hview.index hk
      simp only [intIndex, intDiv, Option.bind_eq_bind, Option.bind_eq_some_iff,
        int_eq_some_iff] at hindex
      obtain ⟨_, ⟨-, rfl⟩, q, hq, _, -, _, ⟨-, rfl⟩, _, ⟨hend, -⟩, -⟩ := hindex
      rw [if_neg (by omega), int_eq_some_iff, ← Int.ofNat_tdiv, hchunk] at hq
      obtain ⟨-, rfl⟩ := hq
      rw [Int.natCast_add] at hend ⊢
      exact hend.2
  | repeated r =>
    change 1 ≤ r at hs
    lift r to ℕ using by omega
    refine ⟨fun hview => ?_, fun hfits => h.repeated (by omega) hfits⟩
    have hsize := hview.size
    simp only [intSize, Subset.reference, repeatedSubsetReference, h.size, Option.bind_eq_bind,
      Option.bind_some, int_eq_some_iff] at hsize
    exact hsize.1.2
  | cyclic c =>
    change 1 ≤ c at hs
    lift c to ℕ using by omega
    refine ⟨fun hview => ?_, fun hfits => h.cyclic hfits⟩
    have hsize := hview.size
    simp only [intSize, Subset.reference, cyclicSubsetReference, h.size, Option.bind_eq_bind,
      Option.bind_some, int_eq_some_iff] at hsize
    exact hsize.1.2

theorem references {subsets : List Subset} (hv : ValidOn v subsets) (hfits : FitsOn v subsets) :
    Exact (references v subsets) := by
  induction subsets generalizing v with
  | nil => exact h
  | cons s subsets ih => exact ih ((h.reference_iff hv.1).mpr hfits.1) hv.2 hfits.2

end VectorData.Exact

theorem exact_vectorData {n : ℕ} (hn : n ≤ 2147483647) : VectorData.Exact (.vectorData n) where
  size := int_natCast hn
  nonneg := Int.natCast_nonneg n
  le := Int.ofNat_le.mpr hn
  index _ := rfl

/-! ## Compositions -/

/-- An exact view is assigned as it is without the limits of `int`. -/
theorem VectorData.Exact.assign {α : Type*} {v : VectorData} (h : Exact v) {base : List α}
    (hplace : ∀ k : ℕ, k < v.size → ∃ b < base.length, v.index k = b) (other : ℕ → α) :
    v.intAssign other base = some (v.assign other base) := by
  have hloop : ∀ m : ℕ, m ≤ v.size → (List.range m).foldlM (fun (base : List α) (i : ℕ) =>
      (v.intIndex i).bind fun place =>
        if 0 ≤ place ∧ place < base.length then some (base.set place.toNat (other i))
        else none) base
      = some (setAt (fun i => (v.index i).toNat) other m base) := by
    intro m hm
    induction m with
    | zero => rfl
    | succ m ih =>
      obtain ⟨b, hb, hindex⟩ := hplace m (by omega)
      rw [List.range_succ, List.foldlM_append, ih (by omega), setAt_succ]
      simp only [Option.bind_eq_bind, Option.bind_some, List.foldlM_cons, List.foldlM_nil]
      rw [h.index (by omega), hindex, Option.bind_some, length_setAt,
        if_pos ⟨Int.natCast_nonneg b, Int.ofNat_lt.mpr hb⟩]
      rfl
  rw [intAssign, h.size, Option.bind_some]
  exact hloop _ (Int.toNat_of_nonneg h.nonneg).le

/-- **A composition of subset references is faithful** on an array: without an overflow it has as
many elements as the transformed list and the same ones, each index reaches a place in the array,
and without repetitions distinct indices reach distinct places, so that an assignment writes every
element to its place and no other. -/
structure Faithful {α : Type*} (base : List α) (subsets : List Subset) : Prop where
  size : (references (.vectorData base.length) subsets).intSize
    = some ((selects base subsets).length : ℤ)
  get {k : ℕ} (hk : k < (selects base subsets).length) : ∃ b < base.length,
    (references (.vectorData base.length) subsets).intIndex k = some (b : ℤ) ∧
      base[b]? = (selects base subsets)[k]?
  injective (hs : ∀ s ∈ subsets, s.Distinct) {k k' : ℕ} (hk : k < (selects base subsets).length)
    (hk' : k' < (selects base subsets).length)
    (h : (references (.vectorData base.length) subsets).intIndex k
      = (references (.vectorData base.length) subsets).intIndex k') : k = k'
  assign (hs : ∀ s ∈ subsets, s.Distinct) (other : ℕ → α) : ∃ base',
    (references (.vectorData base.length) subsets).intAssign other base = some base' ∧
      base'.length = base.length ∧
      (∀ k < (selects base subsets).length, ∃ b : ℕ,
        (references (.vectorData base.length) subsets).intIndex k = some (b : ℤ) ∧
          base'[b]? = some (other k)) ∧
      ∀ b : ℕ, (∀ k < (selects base subsets).length,
        (references (.vectorData base.length) subsets).intIndex k ≠ some (b : ℤ)) →
          base'[b]? = base[b]?

/-- **Index views compose faithfully**, as long as the sizes and the ends of their chunks are
`int`s. -/
theorem views_faithful {α : Type*} (base : List α) (subsets : List Subset)
    (hbase : base.length ≤ 2147483647) (hv : ValidOn (.vectorData base.length) subsets)
    (hfits : FitsOn (.vectorData base.length) subsets) : Faithful base subsets := by
  have hreads := (Reads.array base).references hv
  have hexact := (exact_vectorData hbase).references hv hfits
  have hget : ∀ k : ℕ, k < (selects base subsets).length → ∃ b < base.length,
      (references (.vectorData base.length) subsets).index k = b ∧
        base[b]? = (selects base subsets)[k]? := by
    intro k hk
    obtain ⟨b, hb, hget⟩ := hreads.get hk
    refine ⟨b, ?_, hb, hget⟩
    rw [List.getElem?_eq_getElem hk, List.getElem?_eq_some_iff] at hget
    exact hget.1
  have hsize := hreads.size
  have hindex : ∀ k : ℕ, k < (selects base subsets).length →
      (references (.vectorData base.length) subsets).intIndex k
        = some ((references (.vectorData base.length) subsets).index k) := fun k hk =>
    hexact.index (by omega)
  refine ⟨hsize ▸ hexact.size, fun {k} hk => ?_, fun hs {k k'} hk hk' h => ?_, fun hs other => ?_⟩
  · obtain ⟨b, hb, hk', hbase⟩ := hget k hk
    exact ⟨b, hb, (hindex k hk).trans (congrArg some hk'), hbase⟩
  · rw [hindex k hk, hindex k' hk'] at h
    exact index_injective hv hs (by omega) (by omega) (Option.some.inj h)
  · obtain ⟨hwritten, hframe⟩ := assign_reads hv hs other
    refine ⟨_, hexact.assign (fun k hk => ?_) other, length_setAt, fun k hk => ?_, fun b hb => ?_⟩
    · obtain ⟨b, hb, hk', -⟩ := hget k (by omega)
      exact ⟨b, hb, hk'⟩
    · have hk' : k < (references (.vectorData base.length) subsets).size.toNat := by omega
      obtain ⟨b, hb, hget'⟩ := hwritten.get (k := k) (by rwa [List.length_map, List.length_range])
      rw [List.getElem?_map, List.getElem?_range hk'] at hget'
      exact ⟨b, (hindex k hk).trans (congrArg some hb), hget'⟩
    · refine hframe b fun k hk h => hb k (by omega) ?_
      rw [hindex k (by omega), h]

/-- A view of ten elements: without the first, in chunks of two of three, each reversed. -/
theorem views_faithful_ten : Faithful (List.range 10) [.simple 1 1 9, .reversedAlternating 2 1] :=
  views_faithful _ _ (by decide) (by decide) (by decide)

/-- One chunk of ten elements, whose length with what it leaves out is no `int`. -/
theorem alternating_overflows : ValidOn (.vectorData 10) [.alternating 2147483647 2147483647] ∧
    ¬Faithful (List.range 10) [.alternating 2147483647 2147483647] := by
  refine ⟨by decide, fun h => ?_⟩
  have hnone :
      (references (.vectorData 10) [.alternating 2147483647 2147483647]).intSize = none := by
    decide
  exact absurd (hnone.symm.trans h.size) (by simp)

end Tva
