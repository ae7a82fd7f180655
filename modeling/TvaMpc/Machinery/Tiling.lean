import Mathlib.Data.List.Basic
import Mathlib.Data.List.Range
import Mathlib.Order.MinMax

/-!
# Machinery/Tiling — consecutive ranges that fill an interval

`Tiles a b l`: the ranges of `l`, one after the other, go from `a` to `b`.  Then they are in order,
pairwise disjoint, and every place between `a` and `b` is in one of them.
-/

namespace Machinery

/-- **The ranges `l` tile the places from `a` on and below `b`**, none of them empty. -/
inductive Tiles : ℕ → ℕ → List (ℕ × ℕ) → Prop where
  | nil (a : ℕ) : Tiles a a []
  | cons {a b c : ℕ} {l : List (ℕ × ℕ)} (hab : a < b) (hl : Tiles b c l) : Tiles a c ((a, b) :: l)

namespace Tiles

variable {a b c : ℕ} {l l' : List (ℕ × ℕ)}

theorem le (h : Tiles a b l) : a ≤ b := by
  induction h with
  | nil a => exact le_rfl
  | cons hab _ ih => exact hab.le.trans ih

theorem append (h : Tiles a b l) (h' : Tiles b c l') : Tiles a c (l ++ l') := by
  induction h with
  | nil a => exact h'
  | cons hab _ ih => exact .cons hab (ih h')

/-- Every range lies within. -/
theorem mem (h : Tiles a b l) {r : ℕ × ℕ} (hr : r ∈ l) : a ≤ r.1 ∧ r.1 < r.2 ∧ r.2 ≤ b := by
  induction h with
  | nil a => cases hr
  | cons hab hl ih =>
    rcases List.mem_cons.mp hr with rfl | hr
    · exact ⟨le_rfl, hab, hl.le⟩
    · obtain ⟨h₁, h₂, h₃⟩ := ih hr
      exact ⟨hab.le.trans h₁, h₂, h₃⟩

/-- **The ranges are disjoint**, in order. -/
theorem pairwise (h : Tiles a b l) : l.Pairwise fun r r' => r.2 ≤ r'.1 := by
  induction h with
  | nil a => exact .nil
  | cons hab hl ih => exact .cons (fun r hr => (hl.mem hr).1) ih

/-- **Every place is in one of the ranges.** -/
theorem cover (h : Tiles a b l) {i : ℕ} (hai : a ≤ i) (hib : i < b) :
    ∃ r ∈ l, r.1 ≤ i ∧ i < r.2 := by
  induction h with
  | nil a => exact absurd hib (not_lt.mpr hai)
  | @cons a m c l hab hl ih =>
    rcases lt_or_ge i m with hi | hi
    · exact ⟨(a, m), List.mem_cons_self, hai, hi⟩
    · obtain ⟨r, hr, h⟩ := ih hi hib
      exact ⟨r, List.mem_cons_of_mem _ hr, h⟩

/-- Tilings of consecutive intervals, from `s 0` to `s m`. -/
theorem flatMap {s : ℕ → ℕ} {part : ℕ → List (ℕ × ℕ)} {m : ℕ}
    (h : ∀ t < m, Tiles (s t) (s (t + 1)) (part t)) :
    Tiles (s 0) (s m) ((List.range m).flatMap part) := by
  induction m with
  | zero => exact .nil _
  | succ m ih =>
    rw [List.range_succ, List.flatMap_append, List.flatMap_singleton]
    exact (ih fun t ht => h t (Nat.lt_succ_of_lt ht)).append (h m m.lt_succ_self)

/-- **The places of the ranges**, one range after the other, are those of the interval. -/
theorem flatMap_range' (h : Tiles a b l) :
    l.flatMap (fun r => List.range' r.1 (r.2 - r.1)) = List.range' a (b - a) := by
  induction h with
  | nil a => rw [List.flatMap_nil, Nat.sub_self, List.range'_zero]
  | @cons a m c l hab hl ih =>
    have hstart : a + (m - a) = m := by omega
    have hsum : m - a + (c - m) = c - a := by have := hl.le; omega
    rw [List.flatMap_cons, ih, ← hsum, ← List.range'_append_1, hstart]

end Tiles

end Machinery
