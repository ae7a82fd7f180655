import Mathlib.Order.Bounds.Basic
import Mathlib.Order.Monotone.Basic
import Mathlib.Order.BooleanAlgebra.Defs
import Mathlib.Order.Lattice
import Mathlib.Data.Bool.Basic
import Mathlib.Logic.Equiv.Basic
import Mathlib.Tactic.Ring

/-!
# Machinery/Bitonic — merging with a bitonic network

A merge makes sorted blocks of `2 h` elements out of sorted blocks of `h`.  Its first stage
(`Flips`) exchanges the `r`-th element of a block with the `r`-th from the end, the later ones
(`Cleans`) elements at distance `h / 2`, `h / 4`, …, `1`.

By the zero–one principle it suffices to follow the sequences `c < f p`, one for every threshold
`c`: during a merge each sub-block is bitonic, and the sub-blocks of a block are in order
(`Merging`).
-/

namespace Machinery

variable {α β : Type*} [LinearOrder α] [LinearOrder β] {n h : ℕ}

/-- The blocks of `s` elements are sorted, as far as they are within `n`. -/
def SortedBlocks (n s : ℕ) (f : ℕ → α) : Prop :=
  ∀ q r r', q * s + s ≤ n → r ≤ r' → r' < s → f (q * s + r) ≤ f (q * s + r')

/-- **The first stage of a merge.** -/
def Flips (n h : ℕ) (f f' : ℕ → α) : Prop :=
  ∀ q r, q * (2 * h) + 2 * h ≤ n → r < h →
    f' (q * (2 * h) + r) = min (f (q * (2 * h) + r)) (f (q * (2 * h) + (2 * h - 1 - r))) ∧
      f' (q * (2 * h) + (2 * h - 1 - r))
        = max (f (q * (2 * h) + r)) (f (q * (2 * h) + (2 * h - 1 - r)))

/-- **A later stage**, at distance `h`. -/
def Cleans (n h : ℕ) (f f' : ℕ → α) : Prop :=
  ∀ q r, q * (2 * h) + 2 * h ≤ n → r < h →
    f' (q * (2 * h) + r) = min (f (q * (2 * h) + r)) (f (q * (2 * h) + (h + r))) ∧
      f' (q * (2 * h) + (h + r)) = max (f (q * (2 * h) + r)) (f (q * (2 * h) + (h + r)))

/-- Stages commute with monotone maps. -/
theorem Flips.comp {f f' : ℕ → α} {φ : α → β} (hφ : Monotone φ) (hf : Flips n h f f') :
    Flips n h (φ ∘ f) (φ ∘ f') := by
  intro q r hq hr
  obtain ⟨hmin, hmax⟩ := hf q r hq hr
  simp only [Function.comp_apply, hmin, hmax, hφ.map_min, hφ.map_max, and_self]

theorem Cleans.comp {f f' : ℕ → α} {φ : α → β} (hφ : Monotone φ) (hf : Cleans n h f f') :
    Cleans n h (φ ∘ f) (φ ∘ f') := by
  intro q r hq hr
  obtain ⟨hmin, hmax⟩ := hf q r hq hr
  simp only [Function.comp_apply, hmin, hmax, hφ.map_min, hφ.map_max, and_self]

/-! ## Zeros and ones -/

/-- The ones of the block at `lo`, or its zeros, are an interval. -/
def Bitonic (f : ℕ → Bool) (lo len : ℕ) : Prop :=
  ∃ a b v, ∀ r < len, f (lo + r) = (v ^^ (decide (a ≤ r) && decide (r < b)))

/-- **Between two stages of a merge** of blocks of `B`: the sub-blocks of `s` are bitonic, and in
order within a block. -/
structure Merging (n B s : ℕ) (f : ℕ → Bool) : Prop where
  bitonic (q : ℕ) (hq : q * s + s ≤ n) : Bitonic f (q * s) s
  ordered (p p' : ℕ) (hp : p' < n) (hblock : p / B = p' / B) (hsub : p / s < p' / s) : f p ≤ f p'

/-- A sorted block has its ones at the end. -/
theorem exists_threshold {f : ℕ → Bool} {lo len : ℕ}
    (hf : ∀ r r', r ≤ r' → r' < len → f (lo + r) ≤ f (lo + r')) :
    ∃ a, ∀ r < len, f (lo + r) = decide (a ≤ r) := by
  induction len with
  | zero => exact ⟨0, fun r hr => absurd hr (Nat.not_lt_zero r)⟩
  | succ len ih =>
    obtain ⟨a, ha⟩ := ih fun r r' hr hr' => hf r r' hr (Nat.lt_succ_of_lt hr')
    cases hlast : f (lo + len) with
    | true =>
      refine ⟨min a len, fun r hr => ?_⟩
      rcases Nat.lt_succ_iff_lt_or_eq.mp hr with hr | rfl
      · rw [ha r hr]
        exact decide_eq_decide.mpr (by omega)
      · rw [hlast, decide_eq_true (min_le_right a r)]
    | false =>
      refine ⟨len + 1, fun r hr => ?_⟩
      rw [decide_eq_false (by omega)]
      have hle := hf r len (Nat.lt_succ_iff.mp hr) len.lt_succ_self
      rw [hlast] at hle
      exact Bool.eq_false_of_le_false hle

theorem mul_add_div_eq {q s r : ℕ} (hr : r < s) : (q * s + r) / s = q := by
  rw [Nat.mul_comm, Nat.mul_add_div (by omega), Nat.div_eq_of_lt hr, Nat.add_zero]

/-- A block that starts below `n` ends there too, if `n` is a number of blocks. -/
theorem block_le {q s : ℕ} (hn : s ∣ n) (hq : q * s < n) : q * s + s ≤ n := by
  obtain ⟨m, rfl⟩ := hn
  have hqm : q < m := by
    by_contra hge
    have := Nat.mul_le_mul_right s (not_lt.mp hge)
    rw [Nat.mul_comm s m] at hq
    omega
  calc q * s + s = (q + 1) * s := (Nat.succ_mul q s).symm
    _ ≤ m * s := Nat.mul_le_mul_right s hqm
    _ = s * m := Nat.mul_comm m s

/-- Two places of a block in different halves. -/
theorem exists_halves {p p' : ℕ} (hh : 0 < h) (hblock : p / (2 * h) = p' / (2 * h))
    (hsub : p / h < p' / h) : ∃ q, ∃ r < h, ∃ r' < h,
      p = q * (2 * h) + r ∧ p' = q * (2 * h) + (h + r') := by
  have hp := Nat.mod_lt p (by omega : 0 < 2 * h)
  have hp' := Nat.mod_lt p' (by omega : 0 < 2 * h)
  have he := (Nat.div_add_mod' p (2 * h)).symm
  have he' := (Nat.div_add_mod' p' (2 * h)).symm
  rw [hblock] at he
  generalize p' / (2 * h) = q at he he'
  generalize p % (2 * h) = r at hp he
  generalize p' % (2 * h) = r' at hp' he'
  subst he he'
  have hmul : q * (2 * h) = h * (2 * q) := by ring
  rw [hmul, Nat.mul_add_div hh, Nat.mul_add_div hh] at hsub
  have hlt : r / h < r' / h := by omega
  have hr' : r' / h < 2 := Nat.div_lt_of_lt_mul (by omega)
  have hle : h ≤ r' := by
    by_contra hlt'
    rw [Nat.div_eq_of_lt (not_le.mp hlt')] at hlt
    exact absurd hlt (Nat.not_lt_zero _)
  have hr : r < h := by
    by_contra hge
    have hone : 1 ≤ r / h := (Nat.one_le_div_iff hh).mpr (not_lt.mp hge)
    omega
  refine ⟨q, r, hr, r' - h, by omega, rfl, ?_⟩
  rw [Nat.add_sub_cancel' hle]

/-- **The first stage makes bitonic halves, in order.** -/
theorem Flips.merging {f f' : ℕ → Bool} (hh : 0 < h) (hn : 2 * h ∣ n) (hs : SortedBlocks n h f)
    (hf : Flips n h f f') : Merging n (2 * h) h f' := by
  -- a half has its ones where the sorted halves have theirs, one of them turned round
  have hblock : ∀ q, q * (2 * h) + 2 * h ≤ n → ∃ a b, ∀ r < h,
      f' (q * (2 * h) + r) = (decide (a ≤ r) && decide (b ≤ h - 1 - r)) ∧
        f' (q * (2 * h) + (h + r)) = (decide (a ≤ h - 1 - r) || decide (b ≤ r)) := by
    intro q hq
    have hdouble : q * (2 * h) = 2 * q * h := by ring
    have hdouble' : q * (2 * h) + h = (2 * q + 1) * h := by ring
    obtain ⟨a, ha⟩ := exists_threshold fun r r' hr hr' => hs (2 * q) r r' (by omega) hr hr'
    obtain ⟨b, hb⟩ := exists_threshold fun r r' hr hr' => hs (2 * q + 1) r r' (by omega) hr hr'
    have hleft : ∀ r < h, f (q * (2 * h) + r) = decide (a ≤ r) := fun r hr => by
      rw [hdouble]; exact ha r hr
    have hright : ∀ r < h, f (q * (2 * h) + (h + r)) = decide (b ≤ r) := fun r hr => by
      rw [← Nat.add_assoc, hdouble']; exact hb r hr
    refine ⟨a, b, fun r hr => ⟨?_, ?_⟩⟩
    · have hturn : 2 * h - 1 - r = h + (h - 1 - r) := by omega
      rw [(hf q r hq hr).1, hturn, hleft r hr, hright _ (by omega)]
      rfl
    · have hturn : h + r = 2 * h - 1 - (h - 1 - r) := by omega
      rw [hturn, (hf q (h - 1 - r) hq (by omega)).2, ← hturn, hleft _ (by omega), hright r hr]
      rfl
  refine ⟨fun q hq => ?_, fun p p' hp' hpp hsub => ?_⟩
  · -- an even half is a left one
    have hq2 : q / 2 * (2 * h) + 2 * h ≤ n := by
      refine block_le hn (lt_of_le_of_lt (?_ : _ ≤ q * h) (by omega))
      rw [← Nat.mul_assoc]
      exact Nat.mul_le_mul_right h (Nat.div_mul_le_self q 2)
    obtain ⟨a, b, hab⟩ := hblock (q / 2) hq2
    rcases Nat.mod_two_eq_zero_or_one q with hpar | hpar
    · have hstart : q * h = q / 2 * (2 * h) := by
        rw [← Nat.mul_assoc]; congr 1; omega
      refine ⟨a, h - b, false, fun r hr => ?_⟩
      rw [hstart, (hab r hr).1, Bool.false_xor]
      congr 1
      exact decide_eq_decide.mpr (by omega)
    · have hstart : q * h = q / 2 * (2 * h) + h := by
        have hq' : q = q / 2 * 2 + 1 := by omega
        calc q * h = (q / 2 * 2 + 1) * h := by rw [← hq']
          _ = q / 2 * (2 * h) + h := by ring
      refine ⟨h - a, b, true, fun r hr => ?_⟩
      rw [hstart, Nat.add_assoc, (hab r hr).2, Bool.true_xor, Bool.eq_iff_iff]
      simp only [Bool.or_eq_true, decide_eq_true_eq, Bool.not_eq_true', Bool.and_eq_false_iff,
        decide_eq_false_iff_not]
      omega
  · -- within a block the left half comes first
    obtain ⟨q, r, hr, r', hr', rfl, rfl⟩ := exists_halves hh hpp hsub
    obtain ⟨a, b, hab⟩ := hblock q (block_le hn (by omega))
    rw [(hab r hr).1, (hab r' hr').2]
    refine Bool.le_iff_imp.mpr ?_
    simp only [Bool.and_eq_true, Bool.or_eq_true, decide_eq_true_eq]
    omega

/-- Two halves of an interval: what they have in common is an interval, together they are one or
leave one out, and if they have something in common they leave nothing out. -/
theorem halves_interval (a b h : ℕ) : let I := fun r => decide (a ≤ r) && decide (r < b)
    (∀ r < h, (I r && I (h + r)) = (decide (a ≤ r) && decide (r < b - h))) ∧
      (∃ a' b' v, ∀ r < h, (I r || I (h + r)) = (v ^^ (decide (a' ≤ r) && decide (r < b')))) ∧
      ∀ r < h, ∀ r' < h, (I r && I (h + r)) = true → (I r' || I (h + r')) = true := by
  intro I
  refine ⟨fun r hr => ?_, ?_, fun r hr r' hr' => ?_⟩
  · rw [Bool.eq_iff_iff]
    simp only [I, Bool.and_eq_true, decide_eq_true_eq]
    omega
  · rcases le_or_gt b h with hb | hb
    · refine ⟨a, b, false, fun r hr => ?_⟩
      rw [Bool.eq_iff_iff]
      simp only [I, Bool.false_xor, Bool.or_eq_true, Bool.and_eq_true, decide_eq_true_eq]
      omega
    · rcases le_or_gt h a with ha | ha
      · refine ⟨a - h, b - h, false, fun r hr => ?_⟩
        rw [Bool.eq_iff_iff]
        simp only [I, Bool.false_xor, Bool.or_eq_true, Bool.and_eq_true, decide_eq_true_eq]
        omega
      · refine ⟨b - h, a, true, fun r hr => ?_⟩
        rw [Bool.eq_iff_iff]
        simp only [I, Bool.true_xor, Bool.or_eq_true, Bool.and_eq_true, decide_eq_true_eq,
          Bool.not_eq_true', Bool.and_eq_false_iff, decide_eq_false_iff_not]
        omega
  · simp only [I, Bool.or_eq_true, Bool.and_eq_true, decide_eq_true_eq]
    omega

/-- **A stage on a bitonic sub-block**: its halves are bitonic, and in order. -/
theorem Cleans.halves {f f' : ℕ → Bool} (hf : Cleans n h f f') {q : ℕ}
    (hq : q * (2 * h) + 2 * h ≤ n) (hb : Bitonic f (q * (2 * h)) (2 * h)) :
    Bitonic f' (q * (2 * h)) h ∧ Bitonic f' (q * (2 * h) + h) h ∧
      ∀ r < h, ∀ r' < h, f' (q * (2 * h) + r) ≤ f' (q * (2 * h) + (h + r')) := by
  obtain ⟨a, b, v, hv⟩ := hb
  obtain ⟨hand, ⟨a', b', v', hor⟩, hcommon⟩ := halves_interval a b h
  simp only at hand hor hcommon
  have hleft : ∀ r < h, f' (q * (2 * h) + r) = min (v ^^ (decide (a ≤ r) && decide (r < b)))
      (v ^^ (decide (a ≤ h + r) && decide (h + r < b))) := fun r hr => by
    rw [(hf q r hq hr).1, hv r (by omega), hv (h + r) (by omega)]
  have hright : ∀ r < h, f' (q * (2 * h) + (h + r))
      = max (v ^^ (decide (a ≤ r) && decide (r < b)))
        (v ^^ (decide (a ≤ h + r) && decide (h + r < b))) := fun r hr => by
    rw [(hf q r hq hr).2, hv r (by omega), hv (h + r) (by omega)]
  -- turning zeros and ones round turns minima into maxima
  cases v with
  | false =>
    have hl : ∀ r < h, f' (q * (2 * h) + r) = (decide (a ≤ r) && decide (r < b - h)) :=
      fun r hr => by rw [hleft r hr, Bool.false_xor, Bool.false_xor, ← hand r hr]; rfl
    have hr : ∀ r < h, f' (q * (2 * h) + (h + r)) = (v' ^^ (decide (a' ≤ r) && decide (r < b'))) :=
      fun r hr => by rw [hright r hr, Bool.false_xor, Bool.false_xor, ← hor r hr]; rfl
    refine ⟨⟨a, b - h, false, fun r hr' => by rw [hl r hr', Bool.false_xor]⟩,
      ⟨a', b', v', fun r hr' => by rw [Nat.add_assoc, hr r hr']⟩, fun r hrh r' hrh' => ?_⟩
    rw [hl r hrh, hr r' hrh', ← hand r hrh, ← hor r' hrh']
    exact Bool.le_iff_imp.mpr (hcommon r hrh r' hrh')
  | true =>
    have hmax : ∀ x y : Bool, max (!x) (!y) = !(x && y) := by decide
    have hl : ∀ r < h, f' (q * (2 * h) + r) = (!v' ^^ (decide (a' ≤ r) && decide (r < b'))) :=
      fun r hr => by
        rw [hleft r hr, Bool.true_xor, Bool.true_xor, Bool.not_xor, ← hor r hr, Bool.not_or]; rfl
    have hr : ∀ r < h, f' (q * (2 * h) + (h + r)) = !(decide (a ≤ r) && decide (r < b - h)) :=
      fun r hr => by rw [hright r hr, Bool.true_xor, Bool.true_xor, hmax, hand r hr]
    refine ⟨⟨a', b', !v', fun r hr' => hl r hr'⟩,
      ⟨a, b - h, true, fun r hr' => by rw [Nat.add_assoc, hr r hr', Bool.true_xor]⟩,
      fun r hrh r' hrh' => ?_⟩
    rw [hl r hrh, hr r' hrh', Bool.not_xor, ← hor r hrh, ← hand r' hrh']
    refine Bool.le_iff_imp.mpr fun hne => ?_
    rw [Bool.not_eq_true'] at hne ⊢
    by_contra hsome
    rw [Bool.not_eq_false] at hsome
    rw [hcommon r' hrh' r hrh hsome] at hne
    cases hne

/-- **A later stage halves the sub-blocks.** -/
theorem Cleans.merging {B : ℕ} {f f' : ℕ → Bool} (hh : 0 < h) (hn : 2 * h ∣ n) (hB : 2 * h ∣ B)
    (hm : Merging n B (2 * h) f) (hf : Cleans n h f f') : Merging n B h f' := by
  have hblock : ∀ q, q * (2 * h) + 2 * h ≤ n → Bitonic f' (q * (2 * h)) h ∧
      Bitonic f' (q * (2 * h) + h) h ∧
      ∀ r < h, ∀ r' < h, f' (q * (2 * h) + r) ≤ f' (q * (2 * h) + (h + r')) :=
    fun q hq => hf.halves hq (hm.bitonic q hq)
  -- a stage takes its values from the same sub-block
  have hsource : ∀ p < n, ∀ c, f' p = c → ∃ x < n, x / (2 * h) = p / (2 * h) ∧ f x = c := by
    intro p hp c hc
    have hr := Nat.mod_lt p (by omega : 0 < 2 * h)
    have he := (Nat.div_add_mod' p (2 * h)).symm
    generalize p / (2 * h) = q at he ⊢
    generalize p % (2 * h) = r at hr he
    subst he
    have hq := block_le hn (by omega : q * (2 * h) < n)
    have hplace : ∀ t < 2 * h, q * (2 * h) + t < n ∧ (q * (2 * h) + t) / (2 * h) = q :=
      fun t ht => ⟨by omega, mul_add_div_eq ht⟩
    rcases lt_or_ge r h with hlt | hge
    · rw [(hf q r hq hlt).1] at hc
      rcases min_choice (f (q * (2 * h) + r)) (f (q * (2 * h) + (h + r))) with e | e
      · exact ⟨_, (hplace r hr).1, (hplace r hr).2, e ▸ hc⟩
      · exact ⟨_, (hplace (h + r) (by omega)).1, (hplace (h + r) (by omega)).2, e ▸ hc⟩
    · obtain ⟨t, rfl⟩ : ∃ t, r = h + t := ⟨r - h, by omega⟩
      rw [(hf q t hq (by omega)).2] at hc
      rcases max_choice (f (q * (2 * h) + t)) (f (q * (2 * h) + (h + t))) with e | e
      · exact ⟨_, (hplace t (by omega)).1, (hplace t (by omega)).2, e ▸ hc⟩
      · exact ⟨_, (hplace (h + t) hr).1, (hplace (h + t) hr).2, e ▸ hc⟩
  refine ⟨fun q hq => ?_, fun p p' hp' hpp hsub => ?_⟩
  · have hmul : q / 2 * (2 * h) ≤ q * h := by
      rw [← Nat.mul_assoc]
      exact Nat.mul_le_mul_right h (Nat.div_mul_le_self q 2)
    have hq2 : q / 2 * (2 * h) + 2 * h ≤ n := block_le hn (lt_of_le_of_lt hmul (by omega))
    rcases Nat.mod_two_eq_zero_or_one q with hpar | hpar
    · have hstart : q * h = q / 2 * (2 * h) := by
        rw [← Nat.mul_assoc]; congr 1; omega
      rw [hstart]
      exact (hblock _ hq2).1
    · have hstart : q * h = q / 2 * (2 * h) + h := by
        have hq' : q = q / 2 * 2 + 1 := by omega
        calc q * h = (q / 2 * 2 + 1) * h := by rw [← hq']
          _ = q / 2 * (2 * h) + h := by ring
      rw [hstart]
      exact (hblock _ hq2).2.1
  · have hlt : p < p' := by
      by_contra hge
      exact absurd (Nat.div_le_div_right (c := h) (not_lt.mp hge)) (not_le.mpr hsub)
    have hle : p / (2 * h) ≤ p' / (2 * h) := Nat.div_le_div_right hlt.le
    rcases hle.lt_or_eq with hq | hq
    · -- in different sub-blocks of `2 h`
      obtain ⟨c, rfl⟩ := hB
      have hup : ∀ x y, x / (2 * h) = y / (2 * h) → x / (2 * h * c) = y / (2 * h * c) :=
        fun x y e => by rw [← Nat.div_div_eq_div_mul, e, Nat.div_div_eq_div_mul]
      obtain ⟨x, hx, hxq, hfx⟩ := hsource p (hlt.trans hp') _ rfl
      obtain ⟨y, hy, hyq, hfy⟩ := hsource p' hp' _ rfl
      rw [← hfx, ← hfy]
      exact hm.ordered x y hy ((hup x p hxq).trans (hpp.trans (hup y p' hyq).symm))
        (by rw [hxq, hyq]; exact hq)
    · obtain ⟨q, r, hr, r', hr', rfl, rfl⟩ := exists_halves hh hq hsub
      exact (hblock q (block_le hn (by omega))).2.2 r hr r' hr'

/-! ## Thresholds -/

/-- The sequence `f`, seen from the threshold `c`. -/
def above (c : α) (x : α) : Bool := decide (c < x)

theorem above_mono (c : α) : Monotone (above c) := fun _ _ hxy =>
  Bool.le_iff_imp.mpr fun h => decide_eq_true (lt_of_lt_of_le (of_decide_eq_true h) hxy)

/-- **Between two stages of a merge**, for every threshold. -/
def MergingAll (n B s : ℕ) (f : ℕ → α) : Prop := ∀ c, Merging n B s (above c ∘ f)

theorem Flips.mergingAll {f f' : ℕ → α} (hh : 0 < h) (hn : 2 * h ∣ n) (hs : SortedBlocks n h f)
    (hf : Flips n h f f') : MergingAll n (2 * h) h f' := fun c =>
  Flips.merging hh hn (fun q r r' hq hr hr' => above_mono c (hs q r r' hq hr hr'))
    (hf.comp (above_mono c))

theorem Cleans.mergingAll {B : ℕ} {f f' : ℕ → α} (hh : 0 < h) (hn : 2 * h ∣ n) (hB : 2 * h ∣ B)
    (hm : MergingAll n B (2 * h) f) (hf : Cleans n h f f') : MergingAll n B h f' := fun c =>
  Cleans.merging hh hn hB (hm c) (hf.comp (above_mono c))

/-- **After the last stage the blocks are sorted**: a value that is larger than a later one would be
above the threshold that the later one is. -/
theorem MergingAll.sorted {B : ℕ} {f : ℕ → α} (hm : MergingAll n B 1 f) : SortedBlocks n B f := by
  intro q r r' hq hr hr'
  rcases hr.lt_or_eq with hlt | rfl
  · by_contra hgt
    have hblock : (q * B + r) / B = (q * B + r') / B := by
      rw [mul_add_div_eq (hr.trans_lt hr'), mul_add_div_eq hr']
    have hle := (hm (f (q * B + r'))).ordered (q * B + r) (q * B + r') (by omega) hblock
      (by rw [Nat.div_one, Nat.div_one]; omega)
    simp only [Function.comp_apply, above, lt_irrefl, decide_false] at hle
    rw [decide_eq_true (not_le.mp hgt)] at hle
    exact absurd hle (by decide)
  · exact le_rfl

theorem sortedBlocks_one (f : ℕ → α) : SortedBlocks n 1 f := by
  intro q r r' _ hr hr'
  obtain rfl : r = r' := by omega
  exact le_rfl

/-! ## Exchanges

The places of a stage come in pairs, a left one and a right one, given by a bijection `e`. -/

section Exchange

variable {A B : Type*} (e : A ⊕ A ≃ B) (s : A → Bool)

/-- Change sides where `s` says so. -/
def swapIf : Equiv.Perm (A ⊕ A) :=
  Function.Involutive.toPerm (fun c => if s (c.elim id id) then c.swap else c) fun c => by
    rcases c with k | k <;> cases h : s k <;> simp [h]

/-- **Exchange the pairs that `s` selects.** -/
def exchange : Equiv.Perm B := (e.symm.trans (swapIf s)).trans e

theorem exchange_left (k : A) : exchange e s (e (.inl k)) = e (if s k then .inr k else .inl k) := by
  rw [exchange, Equiv.trans_apply, Equiv.trans_apply, Equiv.symm_apply_apply]
  rfl

theorem exchange_right (k : A) :
    exchange e s (e (.inr k)) = e (if s k then .inl k else .inr k) := by
  rw [exchange, Equiv.trans_apply, Equiv.trans_apply, Equiv.symm_apply_apply]
  rfl

variable {e s}

/-- Exchanging the pairs whose left value is larger puts the smaller one left, … -/
theorem exchange_min {f : B → α} (hs : ∀ k, s k = true ↔ f (e (.inr k)) < f (e (.inl k))) (k : A) :
    f (exchange e s (e (.inl k))) = min (f (e (.inl k))) (f (e (.inr k))) := by
  rw [exchange_left]
  rcases lt_or_ge (f (e (.inr k))) (f (e (.inl k))) with h | h
  · rw [if_pos ((hs k).mpr h), min_eq_right h.le]
  · rw [if_neg (mt (hs k).mp (not_lt.mpr h)), min_eq_left h]

/-- … and the larger one right. -/
theorem exchange_max {f : B → α} (hs : ∀ k, s k = true ↔ f (e (.inr k)) < f (e (.inl k))) (k : A) :
    f (exchange e s (e (.inr k))) = max (f (e (.inl k))) (f (e (.inr k))) := by
  rw [exchange_right]
  rcases lt_or_ge (f (e (.inr k))) (f (e (.inl k))) with h | h
  · rw [if_pos ((hs k).mpr h), max_eq_left h.le]
  · rw [if_neg (mt (hs k).mp (not_lt.mpr h)), max_eq_right h]

end Exchange

end Machinery
