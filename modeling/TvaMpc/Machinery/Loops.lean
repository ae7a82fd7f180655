import Mathlib.Data.List.FinRange
import Mathlib.Data.List.Forall2
import Mathlib.Data.List.Sort
import Mathlib.Tactic.Linarith

/-!
# Machinery/Loops — loops that may fail, related lists, equal blocks, every `s`-th index

A loop that computes a block as `i / b` and a place in it as `i % b` is a nested loop; a loop that
computes `i / r` alone repeats each round `r` times.
-/

namespace Machinery

variable {α β : Type*}

/-- A loop succeeds if each round does. -/
theorem mapM_eq_some_iff {f : α → Option β} {l : List α} {l' : List β} :
    l.mapM f = some l' ↔ l.map f = l'.map some := by
  induction l generalizing l' with
  | nil => cases l' <;> simp
  | cons a l ih =>
    rw [List.mapM_cons, List.map_cons]
    cases f a with
    | none => cases l' <;> simp
    | some b =>
      cases l' with
      | nil => cases l.mapM f <;> simp
      | cons b' l' => cases h : l.mapM f <;> simp [h, ← ih]

theorem mapM_eq_some_map {f : α → Option β} {g : α → β} {l : List α}
    (h : ∀ a ∈ l, f a = some (g a)) : l.mapM f = some (l.map g) := by
  rw [mapM_eq_some_iff, List.map_map]
  exact List.map_congr_left h

theorem exists_mapM_iff {f : α → Option β} {l : List α} :
    (∃ l', l.mapM f = some l') ↔ ∀ a ∈ l, ∃ b, f a = some b := by
  constructor
  · rintro ⟨l', hl'⟩ a ha
    obtain ⟨b, -, hb⟩ := List.mem_map.mp (mapM_eq_some_iff.mp hl' ▸ List.mem_map_of_mem ha)
    exact ⟨b, hb.symm⟩
  · intro h
    choose g hg using h
    induction l with
    | nil => exact ⟨[], rfl⟩
    | cons a l ih =>
      obtain ⟨l', hl'⟩ := ih (fun x hx => g x (.tail _ hx)) fun x hx => hg x (.tail _ hx)
      exact ⟨g a (.head _) :: l', by rw [List.mapM_cons, hg, hl']; rfl⟩

/-! ## Related lists -/

section Related

variable {R : α → β → Prop} {l : List α} {l' : List β}

theorem exists_related (h : List.Forall₂ R l l') {i : ℕ} {a : α} (ha : l[i]? = some a) :
    ∃ b, l'[i]? = some b ∧ R a b := by
  induction h generalizing i with
  | nil => simp at ha
  | cons hab _ ih =>
    cases i with
    | zero =>
      obtain rfl := Option.some.inj ha
      exact ⟨_, rfl, hab⟩
    | succ i => exact ih (by simpa using ha)

theorem related_set (h : List.Forall₂ R l l') {a : α} {b : β} (hab : R a b) (i : ℕ) :
    List.Forall₂ R (l.set i a) (l'.set i b) := by
  induction h generalizing i with
  | nil => exact .nil
  | cons hcd h ih =>
    cases i with
    | zero => exact .cons hab h
    | succ i => exact .cons hcd (ih i)

/-- A loop that may fail relates its list to the results. -/
theorem related_of_mapM {f : α → Option β} (h : l.map f = l'.map some) :
    List.Forall₂ (fun a b => f a = some b) l l' := by
  have heq : List.Forall₂ (· = ·) (l.map f) (l'.map some) := List.forall₂_eq_eq_eq ▸ h
  exact List.forall₂_map_right_iff.mp (List.forall₂_map_left_iff.mp heq)

theorem related_zip {γ δ : Type*} {S : γ → δ → Prop} {k : List γ} {k' : List δ}
    (h : List.Forall₂ R l l') (h' : List.Forall₂ S k k') :
    List.Forall₂ (fun p q => R p.1 q.1 ∧ S p.2 q.2) (l.zip k) (l'.zip k') := by
  induction h generalizing k k' with
  | nil => exact .nil
  | cons hab _ ih =>
    cases h' with
    | nil => exact .nil
    | cons hcd h' => exact .cons ⟨hab, hcd⟩ (ih h')

theorem exists_left (h : List.Forall₂ R l l') {b : β} (hb : b ∈ l') : ∃ a ∈ l, R a b := by
  induction h with
  | nil => simp at hb
  | cons hab _ ih =>
    rcases List.mem_cons.mp hb with rfl | hb
    · exact ⟨_, List.mem_cons_self, hab⟩
    · obtain ⟨a, ha, hab'⟩ := ih hb
      exact ⟨a, List.mem_cons_of_mem _ ha, hab'⟩

theorem exists_right (h : List.Forall₂ R l l') {a : α} (ha : a ∈ l) : ∃ b ∈ l', R a b :=
  exists_left (R := flip R) h.flip ha

end Related

/-! ## Blocks -/

/-- **A loop over `a * b` indices is a loop over `a` blocks of `b`.** -/
theorem map_range_mul (f : ℕ → α) (a b : ℕ) : (List.range (a * b)).map f
    = (List.range a).flatMap fun i => (List.range b).map fun j => f (i * b + j) := by
  induction a with
  | zero => simp
  | succ a ih =>
    rw [Nat.succ_mul, List.range_add, List.map_append, ih, List.range_succ, List.flatMap_append,
      List.map_map]
    simp [Function.comp_def]

/-- **A loop that computes `p / b` and `p % b` is a nested loop.** -/
theorem map_range_divMod (f : ℕ → ℕ → α) (a b : ℕ) :
    (List.range (a * b)).map (fun p => f (p / b) (p % b))
      = (List.finRange a).flatMap fun i : Fin a => (List.range b).map (f i) := by
  have hblock : ∀ i, (List.range b).map (fun j => f ((i * b + j) / b) ((i * b + j) % b))
      = (List.range b).map (f i) := by
    intro i
    refine List.map_congr_left fun j hj => ?_
    have hj' := List.mem_range.mp hj
    rw [Nat.mul_comm, Nat.mul_add_div (Nat.zero_lt_of_lt hj'), Nat.div_eq_of_lt hj', Nat.add_zero,
      Nat.mul_add_mod, Nat.mod_eq_of_lt hj']
  simp only [map_range_mul, hblock]
  rw [← List.map_coe_finRange_eq_range (n := a), List.flatMap_map]

/-- A loop that reads `i / r` repeats each value `r` times. -/
theorem map_range_div (f : ℕ → α) (c : ℕ) {r : ℕ} (hr : 0 < r) :
    (List.range (c * r)).map (fun q => f (q / r))
      = (List.range c).flatMap fun k => List.replicate r (f k) := by
  have hblock : ∀ k, (List.range r).map (fun j => f ((k * r + j) / r)) =
    List.replicate r (f k) := by
    intro k
    rw [List.eq_replicate_iff, List.length_map, List.length_range]
    refine ⟨rfl, fun y hy => ?_⟩
    obtain ⟨j, hj, rfl⟩ := List.mem_map.mp hy
    rw [Nat.add_comm, Nat.add_mul_div_right _ _ hr, Nat.div_eq_of_lt (List.mem_range.mp hj),
      Nat.zero_add]
  simp only [map_range_mul, hblock]

/-- What lies behind the first `t` of `c` indices is padding. -/
theorem map_range_pad (f : ℕ → α) (pad : α) {t c : ℕ} (h : t ≤ c) :
    (List.range c).map (fun p => if p < t then f p else pad)
      = (List.range t).map f ++ List.replicate (c - t) pad := by
  obtain ⟨k, rfl⟩ := Nat.exists_eq_add_of_le h
  rw [List.range_add, List.map_append, Nat.add_sub_cancel_left, List.map_map]
  congr 1
  · exact List.map_congr_left fun p hp => if_pos (List.mem_range.mp hp)
  · rw [List.eq_replicate_iff, List.length_map, List.length_range]
    refine ⟨rfl, fun y hy => ?_⟩
    obtain ⟨j, _, rfl⟩ := List.mem_map.mp hy
    exact if_neg (Nat.not_lt.mpr (Nat.le_add_right t j))

/-- A loop over `full` blocks of `b` and a shorter last one. -/
theorem divMod_cases {t b full last : ℕ} (hb : 0 < b) (hlast : last ≤ b)
    (ht : t < full * b + last) :
    (t / b < full ∧ t % b < b) ∨ (t / b = full ∧ t % b < last) := by
  have hdm := Nat.div_add_mod' t b
  have hmod := Nat.mod_lt t hb
  rcases lt_trichotomy (t / b) full with hlt | heq | hgt
  · exact Or.inl ⟨hlt, hmod⟩
  · exact Or.inr ⟨heq, by rw [← heq] at ht; omega⟩
  · have := Nat.mul_le_mul_right b hgt
    rw [Nat.succ_mul] at this
    omega

/-! ## Every `s`-th index -/

/-- The `k`-th index of `a, a + s, …` is not above `z` exactly for the first `(z - a) / s + 1`. -/
theorem exists_stride_iff {a s z b : ℕ} (hs : 0 < s) (h : a ≤ z) :
    (∃ k < (z - a) / s + 1, b = a + k * s) ↔ a ≤ b ∧ b ≤ z ∧ s ∣ b - a := by
  constructor
  · rintro ⟨k, hk, rfl⟩
    have hle : k * s ≤ z - a :=
      (Nat.mul_le_mul_right s (Nat.lt_succ_iff.mp hk)).trans (Nat.div_mul_le_self _ _)
    refine ⟨Nat.le_add_right a _, by omega, k, ?_⟩
    rw [Nat.add_sub_cancel_left, Nat.mul_comm]
  · rintro ⟨hab, hbz, k, hk⟩
    refine ⟨k, Nat.lt_succ_of_le ((Nat.le_div_iff_mul_le hs).mpr ?_), ?_⟩
    · rw [Nat.mul_comm, ← hk]; omega
    · rw [Nat.mul_comm, ← hk]; omega

/-- **The indices from `a` to `z` that lie a multiple of `s` behind `a`, in order.** -/
theorem filter_range_stride {a s z w : ℕ} (hs : 0 < s) (h : a ≤ z) (hz : z < w) :
    (List.range w).filter (fun b => decide (a ≤ b ∧ b ≤ z ∧ s ∣ b - a))
      = (List.range ((z - a) / s + 1)).map fun k => a + k * s := by
  refine List.Pairwise.eq_of_mem_iff (List.pairwise_lt_range.filter _)
    (List.pairwise_lt_range.map _ fun x y hxy => ?_) fun b => ?_
  · exact Nat.add_lt_add_left (Nat.mul_lt_mul_of_pos_right hxy hs) a
  · rw [List.mem_filter, List.mem_range, decide_eq_true_iff, ← exists_stride_iff hs h, List.mem_map]
    constructor
    · rintro ⟨-, k, hk, rfl⟩
      exact ⟨k, List.mem_range.mpr hk, rfl⟩
    · rintro ⟨k, hk, rfl⟩
      have hb := (exists_stride_iff (b := a + k * s) hs h).mp ⟨k, List.mem_range.mp hk, rfl⟩
      exact ⟨by omega, k, List.mem_range.mp hk, rfl⟩

/-- Counting from the length of the interval is right when `s` divides it. -/
theorem length_div_of_dvd {a s z : ℕ} (h : a ≤ z) (hdvd : s ∣ z + 1 - a) :
    (z + 1 - a) / s = (z - a) / s + 1 := by
  rw [Nat.sub_add_comm h] at hdvd ⊢
  exact Nat.succ_div_of_dvd hdvd

/-- Otherwise it loses the last index. -/
theorem length_div_of_not_dvd {a s z : ℕ} (h : a ≤ z) (hdvd : ¬ s ∣ z + 1 - a) :
    (z + 1 - a) / s = (z - a) / s := by
  rw [Nat.sub_add_comm h] at hdvd ⊢
  exact Nat.succ_div_of_not_dvd hdvd

end Machinery
