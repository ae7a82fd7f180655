import TvaMpc.Machinery.Selection
import Mathlib.Data.Int.Order.Basic
import Mathlib.Data.List.Nodup
import Mathlib.Data.List.Range

/-!
# Containers/VectorData — index views

A `VectorData` is an array or a view of another one: it has a size, and maps its indices to indices
of what it views.  Sizes and indices are integers here, with the truncating division of the source;
`Containers/IntViews` says when they are its `int`s.

`Reads.references` says what a composition of views shows: the elements of the base, transformed as
a list.  `assign_reads` is the assignment through a view.
-/

namespace Tva

open Machinery

/-- The data of a vector: its own array of `n` elements, or a view. -/
inductive VectorData where
  | vectorData (n : ℕ)
  | simple (data : VectorData) (startIndex endIndex step : ℤ)
  | alternating (data : VectorData) (includedSize excludedSize : ℤ)
  | reversedAlternating (data : VectorData) (includedSize excludedSize : ℤ)
  | reversed (data : VectorData)
  | repeated (data : VectorData) (repetitionNumber : ℤ)
  | cyclic (data : VectorData) (cyclesNumber : ℤ)

namespace VectorData

/-- `size()`, without the limits of `int`. -/
def size : VectorData → ℤ
  | vectorData n => n
  | simple data startIndex endIndex step =>
      min data.size ((endIndex - startIndex).tdiv step + 1)
  | alternating data includedSize excludedSize =>
      data.size.tdiv (includedSize + excludedSize) * includedSize
        + min includedSize (data.size.tmod (includedSize + excludedSize))
  | reversedAlternating data includedSize excludedSize =>
      data.size.tdiv (includedSize + excludedSize) * includedSize
        + min includedSize (data.size.tmod (includedSize + excludedSize))
  | reversed data => data.size
  | repeated data repetitionNumber => data.size * repetitionNumber
  | cyclic data cyclesNumber => data.size * cyclesNumber

/-- `operator[]`: the index in the array, without the limits of `int`. -/
def index : VectorData → ℤ → ℤ
  | vectorData _, i => i
  | simple data startIndex _ step, i => data.index (startIndex + i * step)
  | alternating data includedSize excludedSize, i =>
      data.index (i.tdiv includedSize * (includedSize + excludedSize) + i.tmod includedSize)
  | reversedAlternating data includedSize excludedSize, i =>
      let chunkNumber := i.tdiv includedSize
      let chunkIndex := i.tmod includedSize
      let chunkOffset := min (chunkNumber * (includedSize + excludedSize) + includedSize - 1)
        (data.size - 1)
      data.index (chunkOffset - chunkIndex)
  | reversed data, i => data.index (max (data.size - 1) 0 - i)
  | repeated data repetitionNumber, i => data.index (i.tdiv repetitionNumber)
  | cyclic data _, i => data.index (i.tmod data.size)

/-! ## Subset references -/

/-- `simple_subset_reference(start, step, end)`. -/
def simpleSubsetReference (v : VectorData) (startIndex step endIndex : ℤ) : VectorData :=
  simple v startIndex endIndex step

/-- `simple_subset_reference(start, step)`, where the step is `1` if it is left out: up to the last
element. -/
def simpleSubsetReferenceFrom (v : VectorData) (startIndex step : ℤ) : VectorData :=
  simple v startIndex (max 0 (v.size - 1)) step

/-- `alternating_subset_reference`; `-1` excludes the rest. -/
def alternatingSubsetReference (v : VectorData) (includedSize excludedSize : ℤ) : VectorData :=
  if excludedSize ≠ -1 then alternating v includedSize excludedSize
  else alternating v includedSize (v.size - includedSize)

/-- `reversed_alternating_subset_reference`; `-1` excludes the rest. -/
def reversedAlternatingSubsetReference (v : VectorData) (includedSize excludedSize : ℤ) :
    VectorData :=
  if excludedSize ≠ -1 then reversedAlternating v includedSize excludedSize
  else reversedAlternating v includedSize (v.size - includedSize)

/-- `directed_subset_reference`. -/
def directedSubsetReference (v : VectorData) (direction : ℤ) : VectorData :=
  if direction = -1 then reversed v else v

/-- `repeated_subset_reference`. -/
def repeatedSubsetReference (v : VectorData) (repetition : ℤ) : VectorData := repeated v repetition

/-- `cyclic_subset_reference`. -/
def cyclicSubsetReference (v : VectorData) (cycles : ℤ) : VectorData := cyclic v cycles

end VectorData

/-- A call of one of the subset references. -/
inductive Subset where
  | simple (startIndex step endIndex : ℤ)
  | alternating (includedSize excludedSize : ℤ)
  | reversedAlternating (includedSize excludedSize : ℤ)
  | reversed
  | repeated (repetition : ℤ)
  | cyclic (cycles : ℤ)

namespace Subset

/-- The view that the call makes. -/
def reference (v : VectorData) : Subset → VectorData
  | simple s step e => v.simpleSubsetReference s step e
  | alternating i e => v.alternatingSubsetReference i e
  | reversedAlternating i e => v.reversedAlternatingSubsetReference i e
  | reversed => v.directedSubsetReference (-1)
  | repeated r => v.repeatedSubsetReference r
  | cyclic c => v.cyclicSubsetReference c

/-- What a caller observes, on `size` elements: a range within the vector, or the empty tail; chunks
that are not empty; at least one repetition or cycle. -/
def Valid (size : ℤ) : Subset → Prop
  | simple s step e => 1 ≤ step ∧ 0 ≤ s ∧ s ≤ e ∧ e < size ∨ step = 1 ∧ s = e + 1
  | alternating i e => 1 ≤ i ∧ 0 ≤ e
  | reversedAlternating i e => 1 ≤ i ∧ 0 ≤ e
  | reversed => True
  | repeated r => 1 ≤ r
  | cyclic c => 1 ≤ c

/-- **What the call is for**, on lists. -/
def select {α : Type*} (l : List α) : Subset → List α
  | simple s step e => everyNth step.toNat ((l.drop s.toNat).take (e - s + 1).toNat)
  | alternating i e => onChunks id i.toNat e.toNat l
  | reversedAlternating i e => onChunks List.reverse i.toNat e.toNat l
  | reversed => l.reverse
  | repeated r => l.flatMap fun x => List.replicate r.toNat x
  | cyclic c => (List.replicate c.toNat l).flatten

/-- The call does not repeat elements. -/
def Distinct : Subset → Prop
  | repeated _ | cyclic _ => False
  | _ => True

instance (size : ℤ) (s : Subset) : Decidable (s.Valid size) := by
  cases s <;> unfold Valid <;> infer_instance

instance (s : Subset) : Decidable s.Distinct := by cases s <;> unfold Distinct <;> infer_instance

end Subset

/-! ## What a composition shows -/

/-- A composition of subset references. -/
def references (v : VectorData) (subsets : List Subset) : VectorData :=
  subsets.foldl Subset.reference v

/-- Every call of the composition is valid for the vector it is made on. -/
def ValidOn : VectorData → List Subset → Prop
  | _, [] => True
  | v, s :: subsets => s.Valid v.size ∧ ValidOn (s.reference v) subsets

instance decidableValidOn :
    (v : VectorData) → (subsets : List Subset) → Decidable (ValidOn v subsets)
  | _, [] => .isTrue trivial
  | v, s :: subsets =>
      let _ := decidableValidOn (s.reference v) subsets
      inferInstanceAs (Decidable (_ ∧ _))

/-- The composition on lists. -/
def selects {α : Type*} (l : List α) (subsets : List Subset) : List α :=
  subsets.foldl Subset.select l

/-- **The view `v` of the array `base` shows the list `l`.** -/
structure Reads {α : Type*} (base : List α) (v : VectorData) (l : List α) : Prop where
  size : v.size = l.length
  get {k : ℕ} (hk : k < l.length) : ∃ b : ℕ, v.index k = b ∧ base[b]? = l[k]?

namespace Reads

variable {α : Type*} {base l : List α} {v : VectorData}

/-- The array shows itself. -/
theorem array (l : List α) : Reads l (.vectorData l.length) l := ⟨rfl, fun {k} _ => ⟨k, rfl, rfl⟩⟩

theorem simple (h : Reads base v l) {s step e : ℤ} (hv : (Subset.simple s step e).Valid v.size) :
    Reads base (v.simpleSubsetReference s step e) ((Subset.simple s step e).select l) := by
  rcases hv with ⟨hstep, hs, hse, he⟩ | ⟨rfl, rfl⟩
  · lift step to ℕ using by omega
    lift s to ℕ using hs
    lift e to ℕ using by omega
    have hstep' : 0 < step := by omega
    rw [h.size] at he
    have hcount : ((e : ℤ) - s + 1).toNat = e - s + 1 := by omega
    have hdiv : ((e : ℤ) - s).tdiv step = ((e - s) / step : ℕ) := by
      rw [Int.ofNat_tdiv]; congr 1; omega
    have hle : (e - s) / step ≤ e - s := Nat.div_le_self _ _
    have hlen : ((Subset.simple s step e).select l).length = (e - s) / step + 1 := by
      rw [Subset.select, hcount, Int.toNat_natCast, Int.toNat_natCast, length_everyNth hstep',
        List.length_take, List.length_drop, min_eq_left (by omega)]
      have hsum : e - s + 1 + step - 1 = e - s + step := by omega
      rw [hsum, Nat.add_div_right _ hstep']
    refine ⟨?_, fun {k} hk => ?_⟩
    · rw [hlen]
      change min v.size (((e : ℤ) - s).tdiv step + 1) = _
      rw [h.size, hdiv]
      omega
    · rw [hlen] at hk
      have hmul : k * step ≤ e - s :=
        (Nat.mul_le_mul_right _ (Nat.lt_succ_iff.mp hk)).trans (Nat.div_mul_le_self _ _)
      obtain ⟨b, hb, hget⟩ := h.get (k := s + k * step) (by omega)
      refine ⟨b, ?_, ?_⟩
      · rw [← hb]
        change v.index _ = _
        push_cast
        rfl
      · rw [hget, Subset.select, hcount, Int.toNat_natCast, Int.toNat_natCast,
          getElem?_everyNth hstep', List.getElem?_take_of_lt (by omega), List.getElem?_drop]
  · have hnil : (Subset.simple (e + 1) 1 e).select l = [] := by
      have hcount : (e - (e + 1) + 1).toNat = 0 := by omega
      rw [Subset.select, hcount, List.take_zero, everyNth]
    rw [hnil]
    refine ⟨?_, fun {k} hk => absurd hk (by simp)⟩
    change min v.size ((e - (e + 1)).tdiv 1 + 1) = (0 : ℕ)
    rw [h.size, Int.tdiv_one]
    omega

/-- The size of both alternating views. -/
theorem size_alternating (h : v.size = l.length) (keep skip : ℕ) :
    v.size.tdiv (keep + skip) * keep + min (keep : ℤ) (v.size.tmod (keep + skip))
      = (l.length / (keep + skip) * keep + min keep (l.length % (keep + skip)) : ℕ) := by
  rw [h, ← Int.natCast_add, ← Int.ofNat_tdiv, ← Int.ofNat_tmod, ← Int.natCast_mul]
  omega

theorem alternating (h : Reads base v l) {i e : ℤ} (hv : (Subset.alternating i e).Valid v.size) :
    Reads base (v.alternatingSubsetReference i e) ((Subset.alternating i e).select l) := by
  obtain ⟨hi, he⟩ := hv
  lift i to ℕ using by omega
  lift e to ℕ using he
  have hi' : 0 < i := by omega
  have href : v.alternatingSubsetReference i e = .alternating v i e := if_pos (by omega)
  rw [href, Subset.select, Int.toNat_natCast, Int.toNat_natCast]
  refine ⟨?_, fun {k} hk => ?_⟩
  · rw [length_onChunks (f := id) hi' fun _ => rfl]
    exact size_alternating h.size i e
  · obtain ⟨hmod, hget⟩ := getElem?_onChunks (fun _ r => r) hi' (fun _ => rfl)
      (fun l r hr => ⟨rfl, hr⟩) l hk
    obtain ⟨b, hb, hget'⟩ := h.get (k := k / i * (i + e) + k % i) (by omega)
    refine ⟨b, ?_, hget'.trans hget.symm⟩
    rw [← hb]
    change v.index ((k : ℤ).tdiv i * (i + e) + (k : ℤ).tmod i) = _
    rw [← Int.ofNat_tdiv, ← Int.ofNat_tmod]
    push_cast
    rfl

theorem reversedAlternating (h : Reads base v l) {i e : ℤ}
    (hv : (Subset.reversedAlternating i e).Valid v.size) :
    Reads base (v.reversedAlternatingSubsetReference i e)
      ((Subset.reversedAlternating i e).select l) := by
  obtain ⟨hi, he⟩ := hv
  lift i to ℕ using by omega
  lift e to ℕ using he
  have hi' : 0 < i := by omega
  have href : v.reversedAlternatingSubsetReference i e = .reversedAlternating v i e :=
    if_pos (by omega)
  rw [href, Subset.select, Int.toNat_natCast, Int.toNat_natCast]
  refine ⟨?_, fun {k} hk => ?_⟩
  · rw [length_onChunks hi' fun _ => List.length_reverse]
    exact size_alternating h.size i e
  · obtain ⟨hmod, hget⟩ := getElem?_onChunks (fun m r => m - 1 - r) hi'
      (fun _ => List.length_reverse)
      (fun l r hr => ⟨List.getElem?_reverse hr, by omega⟩) l hk
    generalize hq : k / i * (i + e) = q at *
    obtain ⟨b, hb, hget'⟩ := h.get (k := q + (min i (l.length - q) - 1 - k % i)) (by omega)
    refine ⟨b, ?_, hget'.trans hget.symm⟩
    rw [← hb]
    change v.index (min ((k : ℤ).tdiv i * (i + e) + i - 1) (v.size - 1) - (k : ℤ).tmod i) = _
    rw [← Int.ofNat_tdiv, ← Int.ofNat_tmod, h.size, ← Int.natCast_add, ← Int.natCast_mul, hq]
    congr 1
    omega

theorem reversed (h : Reads base v l) :
    Reads base (v.directedSubsetReference (-1)) (Subset.reversed.select l) := by
  have href : v.directedSubsetReference (-1) = .reversed v := if_pos rfl
  rw [href, Subset.select]
  refine ⟨by rw [List.length_reverse]; exact h.size, fun {k} hk => ?_⟩
  rw [List.length_reverse] at hk
  obtain ⟨b, hb, hget⟩ := h.get (k := l.length - 1 - k) (by omega)
  refine ⟨b, ?_, by rw [hget, List.getElem?_reverse hk]⟩
  rw [← hb]
  change v.index (max (v.size - 1) 0 - k) = _
  rw [h.size]
  congr 1
  omega

theorem repeated (h : Reads base v l) {r : ℤ} (hv : (Subset.repeated r).Valid v.size) :
    Reads base (v.repeatedSubsetReference r) ((Subset.repeated r).select l) := by
  change 1 ≤ r at hv
  lift r to ℕ using by omega
  have hr : 0 < r := by omega
  rw [Subset.select, Int.toNat_natCast]
  refine ⟨?_, fun {k} hk => ?_⟩
  · rw [length_flatMap_replicate]
    change v.size * r = _
    rw [h.size, Int.natCast_mul]
  · rw [length_flatMap_replicate] at hk
    obtain ⟨b, hb, hget⟩ := h.get ((Nat.div_lt_iff_lt_mul hr).mpr hk)
    exact ⟨b, by rw [← hb, Int.ofNat_tdiv]; rfl, by rw [hget, getElem?_flatMap_replicate hr]⟩

theorem cyclic (h : Reads base v l) {c : ℤ} (hv : (Subset.cyclic c).Valid v.size) :
    Reads base (v.cyclicSubsetReference c) ((Subset.cyclic c).select l) := by
  change 1 ≤ c at hv
  lift c to ℕ using by omega
  rw [Subset.select, Int.toNat_natCast]
  refine ⟨?_, fun {k} hk => ?_⟩
  · rw [length_cycles]
    change v.size * c = _
    rw [h.size, Int.natCast_mul]
  · rw [length_cycles] at hk
    have hpos : 0 < l.length := Nat.pos_of_ne_zero fun h0 => by simp [h0] at hk
    obtain ⟨b, hb, hget⟩ := h.get (Nat.mod_lt k hpos)
    refine ⟨b, ?_, by rw [hget, getElem?_cycles l hk]⟩
    rw [← hb, Int.ofNat_tmod, ← h.size]
    rfl

/-- **One more view.** -/
theorem reference (h : Reads base v l) {s : Subset} (hs : s.Valid v.size) :
    Reads base (s.reference v) (s.select l) := by
  cases s with
  | simple => exact h.simple hs
  | alternating => exact h.alternating hs
  | reversedAlternating => exact h.reversedAlternating hs
  | reversed => exact h.reversed
  | repeated => exact h.repeated hs
  | cyclic => exact h.cyclic hs

/-- **A composition of views shows the transformed list.** -/
theorem references (h : Reads base v l) {subsets : List Subset} (hv : ValidOn v subsets) :
    Reads base (references v subsets) (selects l subsets) := by
  induction subsets generalizing v l with
  | nil => exact h
  | cons s subsets ih => exact ih (h.reference hv.1) hv.2

end Reads

/-! ## Assignment -/

/-- Without repetitions every element is selected once at most. -/
theorem Subset.nodup_select {α : Type*} {l : List α} (hl : l.Nodup) {s : Subset} (hs : s.Distinct) :
    (s.select l).Nodup := by
  cases s with
  | simple s step e =>
    have hsub := (List.take_sublist (e - s + 1).toNat _).trans (List.drop_sublist s.toNat l)
    exact ((everyNth_sublist _ _).trans hsub).nodup hl
  | alternating i e => exact (onChunks_sublist _ _ _).nodup hl
  | reversedAlternating i e =>
    exact (onChunks_perm List.reverse_perm _ _ _).nodup_iff.mpr ((onChunks_sublist _ _ _).nodup hl)
  | reversed => exact List.nodup_reverse.mpr hl
  | repeated r => exact hs.elim
  | cyclic c => exact hs.elim

theorem nodup_selects {α : Type*} {l : List α} (hl : l.Nodup) {subsets : List Subset}
    (hs : ∀ s ∈ subsets, s.Distinct) : (selects l subsets).Nodup := by
  induction subsets generalizing l with
  | nil => exact hl
  | cons s subsets ih =>
    exact ih (Subset.nodup_select hl (hs s List.mem_cons_self)) fun s' h => hs s' (.tail _ h)

/-- `operator=`: write what another vector shows, element by element. -/
def VectorData.assign {α : Type*} (v : VectorData) (other : ℕ → α) (base : List α) : List α :=
  setAt (fun i => (v.index i).toNat) other v.size.toNat base

/-- **Distinct indices reach distinct elements.** -/
theorem index_injective {n : ℕ} {subsets : List Subset} (hv : ValidOn (.vectorData n) subsets)
    (hs : ∀ s ∈ subsets, s.Distinct) {k k' : ℕ} (hk : k < (references (.vectorData n) subsets).size)
    (hk' : k' < (references (.vectorData n) subsets).size)
    (h : (references (.vectorData n) subsets).index k
      = (references (.vectorData n) subsets).index k') : k = k' := by
  -- the array that holds its own indices
  have hreads : Reads (List.range n) (.vectorData n) (List.range n) := by
    have harray := Reads.array (List.range n)
    rwa [List.length_range] at harray
  have hview := hreads.references hv
  rw [hview.size, Int.ofNat_lt] at hk hk'
  obtain ⟨b, hb, hget⟩ := hview.get hk
  obtain ⟨b', hb', hget'⟩ := hview.get hk'
  obtain rfl : b = b' := Int.ofNat_inj.mp (hb.symm.trans (h.trans hb'))
  exact (List.getElem?_inj hk (nodup_selects List.nodup_range hs)).mp (hget.symm.trans hget')

/-- **Assignment through a view without repetitions** writes every element to its place in the
array, and nothing else. -/
theorem assign_reads {α : Type*} {base : List α} {subsets : List Subset}
    (hv : ValidOn (.vectorData base.length) subsets) (hs : ∀ s ∈ subsets, s.Distinct)
    (other : ℕ → α) :
    Reads ((references (.vectorData base.length) subsets).assign other base)
        (references (.vectorData base.length) subsets)
        ((List.range (references (.vectorData base.length) subsets).size.toNat).map other) ∧
      ∀ b : ℕ, (∀ k : ℕ, k < (references (.vectorData base.length) subsets).size →
          (references (.vectorData base.length) subsets).index k ≠ b) →
        ((references (.vectorData base.length) subsets).assign other base)[b]? = base[b]? := by
  have hview := (Reads.array base).references hv
  have hinj := fun k k' => @index_injective _ _ hv hs k k'
  generalize references (.vectorData base.length) subsets = v at *
  have hsize := hview.size
  have hplace : ∀ k < v.size.toNat, ∃ b : ℕ, v.index k = b ∧ b < base.length := by
    intro k hk
    have hk' : k < (selects base subsets).length := by omega
    obtain ⟨b, hb, hget⟩ := hview.get hk'
    rw [List.getElem?_eq_getElem hk', List.getElem?_eq_some_iff] at hget
    exact ⟨b, hb, hget.1⟩
  refine ⟨⟨by rw [List.length_map, List.length_range]; omega, fun {k} hk => ?_⟩, fun b hb => ?_⟩
  · rw [List.length_map, List.length_range] at hk
    obtain ⟨b, hb, hlt⟩ := hplace k hk
    refine ⟨b, hb, ?_⟩
    have hbk : b = (v.index k).toNat := by rw [hb]; rfl
    rw [List.getElem?_map, List.getElem?_range hk, hbk]
    refine getElem?_setAt (fun i hi j hj hij => hinj i j (by omega) (by omega) ?_) hk (hbk ▸ hlt)
    obtain ⟨bi, hbi, -⟩ := hplace i hi
    obtain ⟨bj, hbj, -⟩ := hplace j hj
    rw [hbi, hbj] at hij ⊢
    exact congrArg _ hij
  · refine getElem?_setAt_of_ne fun i hi e => hb i (by omega) ?_
    obtain ⟨bi, hbi, -⟩ := hplace i hi
    rw [hbi] at e ⊢
    exact congrArg _ e

end Tva
