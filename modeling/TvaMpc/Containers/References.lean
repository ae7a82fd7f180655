import TvaMpc.Containers.VectorData
import TvaMpc.Protocols.Correct

/-!
# Containers/References — shared vectors in memory, and references to parts of them

The operators on tables work in place: they read and assign shared vectors through subset
references, and the same vector may be reached in several ways.  A `Memory` holds the vectors of a
party; a `Reference` is one of them with an index view.

What a view shows, at which places, is `VectorData.Shows`; then reading is composition with the
places (`Shows.read`), and an assignment changes these and no others (`Shows.write`).
-/

namespace Tva

open Machinery

variable {N ρ n m : ℕ} {d : DataType}

/-- Where an element comes from after an assignment to the places `p`: it stays, or it is new. -/
noncomputable def place (p : Fin m → Fin n) (j : Fin n) : Fin n ⊕ Fin m :=
  open Classical in if h : ∃ k, p k = j then .inr h.choose else .inl j

theorem place_apply {p : Fin m → Fin n} (hp : Function.Injective p) (k : Fin m) :
    place p (p k) = .inr k := by
  have h : ∃ k', p k' = p k := ⟨k, rfl⟩
  rw [place, dif_pos h, hp h.choose_spec]

theorem place_of_ne {p : Fin m → Fin n} {j : Fin n} (hj : ∀ k, p k ≠ j) : place p j = .inl j :=
  dif_neg fun h => hj _ h.choose_spec

namespace VectorData

/-- `operator[]` of a view of `x`; outside of `x` there is nothing. -/
def element (v : VectorData) (x : Vec n d) (k : ℕ) : Option (Word d) :=
  if h : (v.index k).toNat < n ∧ 0 ≤ v.index k then some (x ⟨(v.index k).toNat, h.1⟩) else none

/-- The first `m` elements of a view. -/
def read (v : VectorData) (m : ℕ) (x : Vec n d) : Vec m d := fun k => (v.element x k).getD 0

/-- `operator=` of a view of `x`: element by element, as many as the view has. -/
def write (v : VectorData) (other : ℕ → Word d) (x : Vec n d) : Vec n d :=
  fun j => ((v.assign other (List.ofFn x))[(j : ℕ)]?).getD (x j)

/-- **The view shows the elements at the places `p`.** -/
structure Shows (v : VectorData) (p : Fin m → Fin n) : Prop where
  size : v.size = m
  index (k : Fin m) : v.index k = (p k : ℕ)

namespace Shows

variable {v : VectorData} {p : Fin m → Fin n}

theorem element (h : v.Shows p) (x : Vec n d) (k : Fin m) : v.element x k = some (x (p k)) := by
  have hk : (v.index k).toNat = p k := by rw [h.index k]; rfl
  have hin : (v.index k).toNat < n ∧ 0 ≤ v.index k :=
    ⟨by rw [hk]; exact (p k).isLt, by rw [h.index k]; exact Int.natCast_nonneg _⟩
  rw [VectorData.element, dif_pos hin]
  exact congrArg (fun i => some (x i)) (Fin.ext hk)

theorem read (h : v.Shows p) (x : Vec n d) : v.read m x = fun k => x (p k) :=
  funext fun k => by rw [VectorData.read, h.element, Option.getD_some]

/-- An assignment writes the elements to their places, … -/
theorem write (h : v.Shows p) (hp : Function.Injective p) (other : ℕ → Word d) (x : Vec n d)
    (k : Fin m) : v.write other x (p k) = other k := by
  have hindex : ∀ i, (hi : i < v.size.toNat) → (v.index i).toNat =
      p ⟨i, by rw [h.size] at hi; exact hi⟩
      := fun i hi => by rw [h.index ⟨i, by rw [h.size] at hi; exact hi⟩]; rfl
  have hk : (k : ℕ) < v.size.toNat := by rw [h.size]; exact k.isLt
  have hget : (v.assign other (List.ofFn x))[((v.index k).toNat)]? = some (other k) := by
    refine getElem?_setAt (fun i hi j hj hij => ?_) hk ?_
    · rw [hindex i hi, hindex j hj] at hij
      exact Fin.mk.inj_iff.mp (hp (Fin.ext hij))
    · rw [hindex _ hk, List.length_ofFn]
      exact (p _).isLt
  rw [hindex _ hk] at hget
  rw [VectorData.write, hget, Option.getD_some]

/-- … and nothing else. -/
theorem write_of_ne (h : v.Shows p) (other : ℕ → Word d) (x : Vec n d) {j : Fin n}
    (hj : ∀ k, p k ≠ j) : v.write other x j = x j := by
  have hget : (v.assign other (List.ofFn x))[(j : ℕ)]? = (List.ofFn x)[(j : ℕ)]? := by
    refine getElem?_setAt_of_ne fun i hi e => ?_
    have hi' : i < m := by rw [h.size] at hi; exact hi
    have hindex := h.index ⟨i, hi'⟩
    rw [hindex] at e
    exact hj _ (Fin.ext e)
  rw [VectorData.write, hget, List.getElem?_ofFn, dif_pos j.isLt, Option.getD_some]

theorem write_eq (h : v.Shows p) (hp : Function.Injective p) (z : Vec m d) (x : Vec n d) :
    v.write (fun e => if h : e < m then z ⟨e, h⟩ else 0) x
      = fun j => Sum.elim x z (place p j) := by
  funext j
  by_cases hj : ∃ k, p k = j
  · obtain ⟨k, rfl⟩ := hj
    rw [h.write hp, dif_pos k.isLt, place_apply hp, Sum.elim_inr]
  · rw [not_exists] at hj
    rw [h.write_of_ne _ _ hj, place_of_ne hj, Sum.elim_inl]

end Shows

/-- A repeated element. -/
theorem shows_repeated :
    ((vectorData 1).repeatedSubsetReference n).Shows (fun _ : Fin n => (0 : Fin 1)) := by
  refine ⟨by simp [repeatedSubsetReference, size], fun k => ?_⟩
  rw [repeatedSubsetReference, index, index]
  exact Int.tdiv_eq_zero_of_lt (Int.natCast_nonneg _) (Int.ofNat_lt.mpr k.isLt)

end VectorData

/-! ## Memory -/

/-- A shared vector of a table: arithmetic or boolean, with its number. -/
inductive Column where
  | a (i : ℕ)
  | b (i : ℕ)
  deriving DecidableEq

/-- The shared vectors of a party, all of `n` elements. -/
abbrev Memory (ρ n : ℕ) (d : DataType) := Column → EVector ρ n d

/-- A subset reference to a vector. -/
structure Reference where
  column : Column
  data : VectorData

namespace Memory

/-- The first `m` elements that a reference reaches. -/
def read (M : Memory ρ n d) (m : ℕ) (r : Reference) : EVector ρ m d :=
  fun k => r.data.read m (M r.column k)

/-- Assign to the elements that a reference reaches. -/
def write (M : Memory ρ n d) (r : Reference) (z : EVector ρ m d) : Memory ρ n d :=
  Function.update M r.column fun k =>
    r.data.write (fun i => if h : i < m then z k ⟨i, h⟩ else 0) (M r.column k)

theorem write_of_ne {M : Memory ρ n d} {r : Reference} {z : EVector ρ m d} {c : Column}
    (h : c ≠ r.column) : M.write r z c = M c := Function.update_of_ne h ..

end Memory

/-! ## Sharings -/

section Sharing

variable [NeZero ρ] {layout : Fin N → Fin ρ → Fin N}

/-- The ring that a vector is shared over. -/
@[reducible] def Column.ring (d : DataType) : Column → CommRing (Word d)
  | .a _ => inferInstance
  | .b _ => boolRing d

/-- A well-formed sharing of `v`, arithmetic or boolean. -/
abbrev SharesC (layout : Fin N → Fin ρ → Fin N) (c : Column) (x : Fin N → EVector ρ n d)
    (v : Vec n d) : Prop :=
  @Shares (Word d) (c.ring d) N ρ n _ layout x v

/-- **The vectors that are `Live` are shared**, with the plaintexts `V`. -/
def Memory.Shares (layout : Fin N → Fin ρ → Fin N) (Live : Column → Prop)
    (M : Fin N → Memory ρ n d) (V : Column → Vec n d) : Prop :=
  ∀ c, Live c → SharesC layout c (fun i => M i c) (V c)

variable {R : CommRing (Word d)} {x : Fin N → EVector ρ n d} {v : Vec n d}

theorem shares_read {view : VectorData} {p : Fin m → Fin n} (h : view.Shows p)
    (hx : @Shares (Word d) R N ρ n _ layout x v) :
    @Shares (Word d) R N ρ m _ layout (fun i k => view.read m (x i k)) fun j => v (p j) := by
  simp only [h.read]
  exact @Shares.comp (Word d) R N ρ n m _ layout x v hx p

/-- Assigning a sharing to a part. -/
theorem shares_write {view : VectorData} {p : Fin m → Fin n} (h : view.Shows p)
    (hp : Function.Injective p) {z : Fin N → EVector ρ m d} {w : Vec m d}
    (hx : @Shares (Word d) R N ρ n _ layout x v) (hz : @Shares (Word d) R N ρ m _ layout z w) :
    @Shares (Word d) R N ρ n _ layout
      (fun i k => view.write (fun e => if h : e < m then z i k ⟨e, h⟩ else 0) (x i k))
      fun j => Sum.elim v w (place p j) := by
  simp only [h.write_eq hp]
  exact @Shares.elim (Word d) R N ρ n m _ layout x v n z w hx hz (place p)

namespace Memory.Shares

variable {Live : Column → Prop} {M : Fin N → Memory ρ n d} {V : Column → Vec n d}
variable {view : VectorData} {p : Fin m → Fin n} {c : Column}

theorem read (hM : Memory.Shares layout Live M V) (hc : Live c) (h : view.Shows p) :
    SharesC layout c (fun i => (M i).read m ⟨c, view⟩) fun j => V c (p j) :=
  shares_read h (hM c hc)

/-- Assignment of a whole vector makes it live. -/
theorem assign (hM : Memory.Shares layout Live M V) {z : Fin N → EVector ρ n d} {w : Vec n d}
    (hz : SharesC layout c z w) :
    Memory.Shares layout (fun c' => c' = c ∨ Live c') (fun i => Function.update (M i) c (z i))
      (Function.update V c w) := by
  intro c' hc'
  by_cases h : c' = c
  · subst h
    simp only [Function.update_self]
    exact hz
  · simp only [Function.update_of_ne h]
    exact hM c' (hc'.resolve_left h)

/-- **Assignment through a reference.** -/
theorem write (hM : Memory.Shares layout Live M V) (hc : Live c) (h : view.Shows p)
    (hp : Function.Injective p) {z : Fin N → EVector ρ m d} {w : Vec m d} {v' : Vec n d}
    (hz : SharesC layout c z w) (hin : ∀ k, v' (p k) = w k)
    (hout : ∀ j, (∀ k, p k ≠ j) → v' j = V c j) :
    Memory.Shares layout Live (fun i => (M i).write ⟨c, view⟩ (z i)) (Function.update V c v') := by
  intro c' hc'
  by_cases he : c' = c
  · subst he
    have hv' : v' = fun j => Sum.elim (V c') w (place p j) := by
      funext j
      by_cases hj : ∃ k, p k = j
      · obtain ⟨k, rfl⟩ := hj
        rw [hin, place_apply hp, Sum.elim_inr]
      · rw [not_exists] at hj
        rw [hout j hj, place_of_ne hj, Sum.elim_inl]
    simp only [Memory.write, Function.update_self, hv']
    exact shares_write h hp (hM c' hc) hz
  · simp only [Memory.write, Function.update_of_ne he]
    exact hM c' hc'

end Memory.Shares

/-! ## Loops over columns -/

variable {G : Type} {Good : (Fin N → G) → Prop} {mode : SendMode} {g : Fin N → G}
variable {Live : Column → Prop} {M : Fin N → Memory ρ n d} {V : Column → Vec n d}

/-- **A loop over different columns** that changes each of them by `φ`. -/
theorem ensures_columns {f : Fin N → Memory ρ n d → Column → PartyM N d G (Memory ρ n d)}
    {φ : Vec n d → Vec n d} {cols : List Column} (hnodup : cols.Nodup)
    (step : ∀ c ∈ cols, ∀ M V g, Memory.Shares layout Live M V → Good g →
      Ensures mode (fun i => f i (M i) c) g fun M' g' _ =>
        Memory.Shares layout Live M' (Function.update V c (φ (V c))) ∧ Good g')
    (hM : Memory.Shares layout Live M V) (hg : Good g) :
    Ensures mode (fun i => cols.foldlM (f i) (M i)) g fun M' g' _ =>
      Memory.Shares layout Live M' (fun c => if c ∈ cols then φ (V c) else V c) ∧ Good g' := by
  refine Ensures.foldlM (fun pre M g =>
    Memory.Shares layout Live M (fun c => if c ∈ pre then φ (V c) else V c) ∧ Good g) cols ?_ ?_
  · simpa using And.intro hM hg
  · rintro pre c hpre M' g' ⟨hM', hg'⟩
    have hc : c ∉ pre := fun hmem =>
      (List.disjoint_of_nodup_append (hnodup.sublist hpre.sublist)) hmem List.mem_cons_self
    refine (step c (hpre.subset (by simp)) M' _ g' hM' hg').mono fun M'' g'' _ h => ?_
    have hV : Function.update (fun c => if c ∈ pre then φ (V c) else V c) c
          (φ (if c ∈ pre then φ (V c) else V c))
        = fun c' => if c' ∈ pre ++ [c] then φ (V c') else V c' := by
      funext c'
      by_cases he : c' = c
      · subst he
        rw [Function.update_self, if_neg hc, if_pos (by simp)]
      · rw [Function.update_of_ne he]
        simp [he]
    exact hV ▸ h

end Sharing

end Tva
