import Mathlib.Data.Fintype.Basic
import Mathlib.Data.Finset.Basic
import Mathlib.Tactic.Ring

/-!
# Machinery/Scan — segmented scans in logarithmically many rounds

In one round (`scanStep`) every element takes in that of its partner, which is at a fixed distance,
if the two are linked.  `reach` are the elements that have been taken in after some rounds; no
element is taken in twice, so the value is an aggregate of them (`scanStep_aggregate`).

If the links are the groups of consecutive elements, the elements behind in the group are reached by
growing distances (`reach_behind`), and the elements ahead by shrinking ones (`reach_ahead`).
-/

namespace Machinery

variable {n : ℕ} {W : Type*}

/-- **One round.** -/
def scanStep (op : W → W → W) (partner : Fin n → Option (Fin n)) (link : Fin n → Fin n → Prop)
    [DecidableRel link] (v : Fin n → W) (r : Fin n) : W :=
  match partner r with
  | some s => if link r s then op (v r) (v s) else v r
  | none => v r

/-- The element `dist` further on. -/
def ahead (dist : ℕ) (r : Fin n) : Option (Fin n) :=
  if h : r + dist < n then some ⟨r + dist, h⟩ else none

/-- The element `dist` further back. -/
def behind (dist : ℕ) (r : Fin n) : Option (Fin n) :=
  if dist ≤ r then some ⟨r - dist, lt_of_le_of_lt (Nat.sub_le _ _) r.isLt⟩ else none

theorem ahead_eq_some {dist : ℕ} {r s : Fin n} : ahead dist r = some s ↔ (s : ℕ) = r + dist := by
  rw [ahead]
  split
  · rw [Option.some.injEq, Fin.ext_iff]
    exact eq_comm
  · refine iff_of_false nofun fun h => ?_
    have := s.isLt
    omega

theorem ahead_eq_none {dist : ℕ} {r : Fin n} : ahead dist r = none ↔ n ≤ r + dist := by
  rw [ahead]
  split
  · exact iff_of_false nofun (by omega)
  · exact iff_of_true rfl (by omega)

theorem behind_eq_some {dist : ℕ} {r s : Fin n} : behind dist r = some s ↔ (r : ℕ) = s + dist := by
  rw [behind]
  split
  · rw [Option.some.injEq, Fin.ext_iff]
    change (r : ℕ) - dist = s ↔ _
    omega
  · exact iff_of_false nofun (by omega)

theorem behind_eq_none {dist : ℕ} {r : Fin n} : behind dist r = none ↔ (r : ℕ) < dist := by
  rw [behind]
  split
  · exact iff_of_false nofun (by omega)
  · exact iff_of_true rfl (by omega)

section Step

variable {op : W → W → W} {partner : Fin n → Option (Fin n)} {link : Fin n → Fin n → Prop}
variable [DecidableRel link] {v : Fin n → W} {r s : Fin n}

theorem scanStep_some (h : partner r = some s) :
    scanStep op partner link v r = if link r s then op (v r) (v s) else v r := by
  rw [scanStep, h]

theorem scanStep_none (h : partner r = none) : scanStep op partner link v r = v r := by
  rw [scanStep, h]

/-- What is the same at linked elements stays. -/
theorem scanStep_const (hop : ∀ x, op x x = x) (hlink : ∀ r s, link r s → v r = v s) :
    scanStep op partner link v = v := by
  funext r
  cases h : partner r with
  | none => exact scanStep_none h
  | some s =>
    rw [scanStep_some h]
    split
    · rw [← hlink r s ‹_›, hop]
    · rfl

/-- **Aggregates of disjoint sets of elements** combine in a round as the sets do. -/
theorem scanStep_aggregate {Agg : Finset (Fin n) → W → Prop}
    (hunion : ∀ s t x y, Disjoint s t → Agg s x → Agg t y → Agg (s ∪ t) (op x y))
    {w : Fin n → Finset (Fin n)} (hdisj : ∀ r s, partner r = some s → Disjoint (w r) (w s))
    (h : ∀ r, Agg (w r) (v r)) (r : Fin n) :
    Agg (scanStep (· ∪ ·) partner link w r) (scanStep op partner link v r) := by
  cases hp : partner r with
  | none =>
    rw [scanStep_none hp, scanStep_none hp]
    exact h r
  | some s =>
    rw [scanStep_some hp, scanStep_some hp]
    split
    · exact hunion _ _ _ _ (hdisj r s hp) (h r) (h s)
    · exact h r

end Step

/-! ## What is reached -/

/-- The elements taken in after `i` rounds. -/
def reach (partner : ℕ → Fin n → Option (Fin n)) (link : Fin n → Fin n → Prop)
    [DecidableRel link] : ℕ → Fin n → Finset (Fin n)
  | 0, r => {r}
  | i + 1, r => scanStep (· ∪ ·) (partner i) link (reach partner link i) r

section Reach

variable {link : Fin n → Fin n → Prop} [DecidableRel link]

theorem mem_reach_succ {partner : ℕ → Fin n → Option (Fin n)} {i : ℕ} {r s : Fin n} :
    s ∈ reach partner link (i + 1) r ↔ s ∈ reach partner link i r ∨
      ∃ t, partner i r = some t ∧ link r t ∧ s ∈ reach partner link i t := by
  rw [reach]
  cases h : partner i r with
  | none =>
    rw [scanStep_none h]
    simp
  | some t =>
    rw [scanStep_some h]
    by_cases hl : link r t
    · rw [if_pos hl, Finset.mem_union]
      simp [hl]
    · rw [if_neg hl]
      simp [hl]

theorem self_mem_reach (partner : ℕ → Fin n → Option (Fin n)) (i : ℕ) (r : Fin n) :
    r ∈ reach partner link i r := by
  induction i with
  | zero => exact Finset.mem_singleton_self r
  | succ i ih => exact mem_reach_succ.mpr (.inl ih)

/-- **A scan**: the rounds one after the other. -/
def scan (op : W → W → W) (partner : ℕ → Fin n → Option (Fin n)) (link : Fin n → Fin n → Prop)
    [DecidableRel link] : ℕ → (Fin n → W) → Fin n → W
  | 0, v => v
  | i + 1, v => scanStep op (partner i) link (scan op partner link i v)

theorem scan_const {op : W → W → W} {partner : ℕ → Fin n → Option (Fin n)} {v : Fin n → W}
    (hop : ∀ x, op x x = x) (hlink : ∀ r s, link r s → v r = v s) (i : ℕ) :
    scan op partner link i v = v := by
  induction i with
  | zero => rfl
  | succ i ih => rw [scan, ih, scanStep_const hop hlink]

/-- **A scan aggregates what is reached.** -/
theorem scan_aggregate {op : W → W → W} {partner : ℕ → Fin n → Option (Fin n)} {v : Fin n → W}
    {Agg : Finset (Fin n) → W → Prop}
    (hunion : ∀ s t x y, Disjoint s t → Agg s x → Agg t y → Agg (s ∪ t) (op x y)) {k : ℕ}
    (hdisj : ∀ i < k, ∀ r s, partner i r = some s →
      Disjoint (reach partner link i r) (reach partner link i s))
    (hsingle : ∀ r, Agg {r} (v r)) {i : ℕ} (hi : i ≤ k) (r : Fin n) :
    Agg (reach partner link i r) (scan op partner link i v r) := by
  induction i generalizing r with
  | zero => exact hsingle r
  | succ i ih => exact scanStep_aggregate hunion (hdisj i hi) (fun r => ih (by omega) r) r

/-! ### Backwards, at distances `1`, `2`, `4`, … -/

/-- The partners of the rounds that look back. -/
def back (i : ℕ) : Fin n → Option (Fin n) := behind (2 ^ i)

theorem reach_back_bounds {i : ℕ} {r s : Fin n} (h : s ∈ reach back link i r) :
    s ≤ r ∧ (r : ℕ) < s + 2 ^ i := by
  induction i generalizing r with
  | zero =>
    obtain rfl := Finset.mem_singleton.mp h
    exact ⟨le_rfl, Nat.lt_succ_self _⟩
  | succ i ih =>
    rw [Nat.pow_succ]
    rcases mem_reach_succ.mp h with h | ⟨t, ht, -, h⟩
    · obtain ⟨hle, hlt⟩ := ih h
      exact ⟨hle, by omega⟩
    · obtain ⟨hle, hlt⟩ := ih h
      have ht' := behind_eq_some.mp ht
      rw [Fin.le_def] at hle ⊢
      exact ⟨by omega, by omega⟩

theorem reach_back_disjoint {i : ℕ} {r s : Fin n} (h : back i r = some s) :
    Disjoint (reach back link i r) (reach back link i s) := by
  rw [Finset.disjoint_left]
  intro t hr hs
  have h₁ := (reach_back_bounds hr).2
  have h₂ := (reach_back_bounds hs).1
  have h₃ := behind_eq_some.mp h
  rw [Fin.le_def] at h₂
  omega

/-- **The way back**: from `r` to `s` the distance loses its highest bit in every jump, and all the
elements that are jumped to must be linked. -/
theorem mem_reach_back_iff (hsymm : ∀ r s, link r s → link s r)
    (htrans : ∀ r s t, link r s → link s t → link r t) {i : ℕ} {r s : Fin n} :
    s ∈ reach back link i r ↔ s ≤ r ∧ (r : ℕ) < s + 2 ^ i ∧
      ∀ l < i, ∀ m : Fin n, (m : ℕ) = s + (r - s) % 2 ^ l → m = r ∨ link r m := by
  induction i generalizing r with
  | zero =>
    rw [reach, Finset.mem_singleton, Nat.pow_zero, Fin.le_def]
    refine ⟨?_, fun ⟨hle, hlt, _⟩ => Fin.ext (by omega)⟩
    rintro rfl
    exact ⟨le_rfl, Nat.lt_succ_self _, fun l hl => absurd hl (Nat.not_lt_zero l)⟩
  | succ i ih =>
    rw [mem_reach_succ, ih, Nat.pow_succ, Fin.le_def]
    have hpos := Nat.two_pow_pos i
    rcases lt_or_ge (r : ℕ) (s + 2 ^ i) with hnear | hfar
    · -- the highest bit is not set: nothing is reached through the partner
      have hmod : (r - s : ℕ) % 2 ^ i = r - s := Nat.mod_eq_of_lt (by omega)
      constructor
      · rintro (⟨hle, -, hway⟩ | ⟨t, ht, -, hmem⟩)
        · refine ⟨hle, by omega, fun l hl m hm => ?_⟩
          rcases Nat.lt_succ_iff_lt_or_eq.mp hl with hl | rfl
          · exact hway l hl m hm
          · exact .inl (Fin.ext (by omega))
        · have ht' := behind_eq_some.mp ht
          have hle := (reach_back_bounds hmem).1
          rw [Fin.le_def] at hle
          omega
      · exact fun ⟨hle, _, hway⟩ => .inl ⟨hle, hnear, fun l hl => hway l (Nat.lt_succ_of_lt hl)⟩
    · have htn : (r : ℕ) - 2 ^ i < n := lt_of_le_of_lt (Nat.sub_le _ _) r.isLt
      have hpow : ∀ {l}, l < i → 2 ^ l < 2 ^ i := fun hl => Nat.pow_lt_pow_right one_lt_two hl
      -- the ways from `r` and from the partner end alike
      have hsplit : (r - s : ℕ) = (r - 2 ^ i - s) + 2 ^ i := by omega
      have hmod : ∀ l ≤ i, (r - s : ℕ) % 2 ^ l = (r - 2 ^ i - s) % 2 ^ l := fun l hl => by
        rw [hsplit, Nat.add_mod, Nat.mod_eq_zero_of_dvd (Nat.pow_dvd_pow 2 hl), Nat.add_zero,
          Nat.mod_mod]
      have hlt : ∀ {l}, l < i → ∀ {m : Fin n}, (m : ℕ) = s + (r - s) % 2 ^ l → m ≠ r := by
        rintro l hl m hm rfl
        have h₁ := Nat.mod_lt (m - s : ℕ) (Nat.two_pow_pos l)
        have h₂ := hpow hl
        omega
      constructor
      · rintro (⟨-, hlt', -⟩ | ⟨t, ht, hlink, hmem⟩)
        · omega
        · have ht' := behind_eq_some.mp ht
          obtain ⟨hle, hlt', hway⟩ := ih.mp hmem
          rw [Fin.le_def] at hle
          have htr : (r : ℕ) - 2 ^ i = t := by omega
          refine ⟨by omega, by omega, fun l hl m hm => .inr ?_⟩
          rcases Nat.lt_succ_iff_lt_or_eq.mp hl with hl | rfl
          · rw [hmod l hl.le, htr] at hm
            rcases hway l hl m hm with rfl | hm'
            · exact hlink
            · exact htrans _ _ _ hlink hm'
          · rw [hmod l le_rfl, htr, Nat.mod_eq_of_lt (by omega)] at hm
            have hmt : m = t := Fin.ext (by omega)
            exact hmt ▸ hlink
      · rintro ⟨hle, hlt', hway⟩
        have hlink : link r ⟨r - 2 ^ i, htn⟩ := by
          refine (hway i i.lt_succ_self ⟨r - 2 ^ i, htn⟩ ?_).resolve_left fun h => ?_
          · change (r : ℕ) - 2 ^ i = _
            rw [hmod i le_rfl, Nat.mod_eq_of_lt (by omega)]
            omega
          · have hval := congrArg Fin.val h
            change (r : ℕ) - 2 ^ i = r at hval
            omega
        refine .inr ⟨⟨r - 2 ^ i, htn⟩, behind_eq_some.mpr ?_, hlink, ih.mpr ⟨?_, ?_, ?_⟩⟩
        · change (r : ℕ) = r - 2 ^ i + 2 ^ i
          omega
        · exact Fin.le_def.mpr (show (s : ℕ) ≤ r - 2 ^ i by omega)
        · change (r : ℕ) - 2 ^ i < s + 2 ^ i
          omega
        · intro l hl m hm
          change (m : ℕ) = s + (r - 2 ^ i - s) % 2 ^ l at hm
          rw [← hmod l hl.le] at hm
          exact .inr (htrans _ _ _ (hsymm _ _ hlink)
            ((hway l (Nat.lt_succ_of_lt hl) m hm).resolve_left (hlt hl hm)))

/-! ### Forwards, at distances `2 ^ (k - 1)`, …, `2`, `1` -/

/-- The partners of the rounds that look forward. -/
def forth (k i : ℕ) : Fin n → Option (Fin n) := ahead (2 ^ (k - (i + 1)))

theorem two_pow_sub {k i : ℕ} (hi : i < k) : 2 ^ (k - i) = 2 * 2 ^ (k - (i + 1)) := by
  rw [← Nat.pow_succ']
  congr 1
  omega

theorem reach_forth_bounds {k i : ℕ} (hi : i ≤ k) {r s : Fin n}
    (h : s ∈ reach (forth k) link i r) : r ≤ s ∧ 2 ^ (k - i) ∣ (s : ℕ) - r := by
  induction i generalizing r with
  | zero =>
    obtain rfl := Finset.mem_singleton.mp h
    exact ⟨le_rfl, by simp⟩
  | succ i ih =>
    have hdvd : 2 ^ (k - (i + 1)) ∣ 2 ^ (k - i) := Nat.pow_dvd_pow 2 (by omega)
    rcases mem_reach_succ.mp h with h | ⟨t, ht, -, h⟩
    · obtain ⟨hle, hd⟩ := ih (by omega) h
      exact ⟨hle, hdvd.trans hd⟩
    · obtain ⟨hle, hd⟩ := ih (by omega) h
      have ht' := ahead_eq_some.mp ht
      rw [Fin.le_def] at hle ⊢
      have hsub : (s : ℕ) - r = (s - t) + 2 ^ (k - (i + 1)) := by omega
      exact ⟨by omega, hsub ▸ Nat.dvd_add (hdvd.trans hd) (dvd_refl _)⟩

theorem reach_forth_disjoint {k i : ℕ} (hi : i < k) {r s : Fin n} (h : forth k i r = some s) :
    Disjoint (reach (forth k) link i r) (reach (forth k) link i s) := by
  rw [Finset.disjoint_left]
  intro t hr hs
  obtain ⟨-, hd⟩ := reach_forth_bounds hi.le hr
  obtain ⟨hle, hd'⟩ := reach_forth_bounds hi.le hs
  have hs' := ahead_eq_some.mp h
  rw [Fin.le_def] at hle
  have hpos := Nat.two_pow_pos (k - (i + 1))
  have hsub : (t : ℕ) - r = (t - s) + 2 ^ (k - (i + 1)) := by omega
  rw [hsub, Nat.dvd_add_right hd', two_pow_sub hi] at hd
  have := Nat.le_of_dvd hpos hd
  omega

end Reach

/-! ## Groups of consecutive elements -/

/-- The groups of an equivalence are intervals. -/
structure Contiguous (same : Fin n → Fin n → Prop) : Prop extends Equivalence same where
  between {r s t : Fin n} (hrs : r ≤ s) (hst : s ≤ t) (h : same r t) : same r s

namespace Contiguous

variable {same : Fin n → Fin n → Prop} [DecidableRel same]

/-- **Looking back reaches the last `2 ^ i` elements of the group.** -/
theorem mem_reach_back (hs : Contiguous same) {i : ℕ} {r s : Fin n} :
    s ∈ reach back same i r ↔ same r s ∧ s ≤ r ∧ (r : ℕ) < s + 2 ^ i := by
  induction i generalizing r with
  | zero =>
    rw [reach, Finset.mem_singleton, Nat.pow_zero, Fin.le_def]
    constructor
    · rintro rfl
      exact ⟨hs.refl s, le_rfl, Nat.lt_succ_self _⟩
    · rintro ⟨-, hle, hlt⟩
      exact Fin.ext (by omega)
  | succ i ih =>
    rw [mem_reach_succ, ih, Nat.pow_succ, Fin.le_def]
    constructor
    · rintro (⟨hsame, hle, hlt⟩ | ⟨t, ht, hlink, hmem⟩)
      · exact ⟨hsame, hle, by omega⟩
      · obtain ⟨hsame, hle, hlt⟩ := ih.mp hmem
        have ht' := behind_eq_some.mp ht
        rw [Fin.le_def] at hle
        exact ⟨hs.trans hlink hsame, by omega, by omega⟩
    · rintro ⟨hsame, hle, hlt⟩
      rcases lt_or_ge (r : ℕ) (s + 2 ^ i) with h | h
      · exact .inl ⟨hsame, hle, h⟩
      · have htn : (r : ℕ) - 2 ^ i < n := lt_of_le_of_lt (Nat.sub_le _ _) r.isLt
        have hrt : same s ⟨r - 2 ^ i, htn⟩ :=
          hs.between (Fin.le_def.mpr (show (s : ℕ) ≤ r - 2 ^ i by omega))
            (Fin.le_def.mpr (show (r : ℕ) - 2 ^ i ≤ r by omega)) (hs.symm hsame)
        refine .inr ⟨⟨r - 2 ^ i, htn⟩,
          behind_eq_some.mpr (show (r : ℕ) = r - 2 ^ i + 2 ^ i by omega),
          hs.trans hsame hrt, ih.mpr ⟨hs.symm hrt, ?_, ?_⟩⟩
        · exact Fin.le_def.mpr (show (s : ℕ) ≤ r - 2 ^ i by omega)
        · change (r : ℕ) - 2 ^ i < s + 2 ^ i
          omega

/-- **Looking forward reaches the elements of the group at multiples of the distance.** -/
theorem mem_reach_forth (hs : Contiguous same) {k i : ℕ} (hn : n = 2 ^ k) (hi : i ≤ k)
    {r s : Fin n} :
    s ∈ reach (forth k) same i r ↔ same r s ∧ r ≤ s ∧ 2 ^ (k - i) ∣ (s : ℕ) - r := by
  induction i generalizing r with
  | zero =>
    rw [reach, Finset.mem_singleton, Nat.sub_zero, Fin.le_def]
    constructor
    · rintro rfl
      exact ⟨hs.refl s, le_rfl, by simp⟩
    · rintro ⟨-, hle, hd⟩
      have := s.isLt
      have hzero := Nat.eq_zero_of_dvd_of_lt hd (by omega)
      exact Fin.ext (by omega)
  | succ i ih =>
    have hdvd : 2 ^ (k - (i + 1)) ∣ 2 ^ (k - i) := Nat.pow_dvd_pow 2 (by omega)
    rw [mem_reach_succ, ih (by omega), Fin.le_def]
    constructor
    · rintro (⟨hsame, hle, hd⟩ | ⟨t, ht, hlink, hmem⟩)
      · exact ⟨hsame, hle, hdvd.trans hd⟩
      · obtain ⟨hsame, hle, hd⟩ := (ih (by omega)).mp hmem
        have ht' := ahead_eq_some.mp ht
        rw [Fin.le_def] at hle
        have hsub : (s : ℕ) - r = (s - t) + 2 ^ (k - (i + 1)) := by omega
        exact ⟨hs.trans hlink hsame, by omega, hsub ▸ Nat.dvd_add (hdvd.trans hd) (dvd_refl _)⟩
    · rintro ⟨hsame, hle, c, hc⟩
      have hpos := Nat.two_pow_pos (k - (i + 1))
      -- an even multiple is reached from here, an odd one from the partner
      rcases Nat.even_or_odd' c with ⟨b, rfl | rfl⟩
      · exact .inl ⟨hsame, hle, b, by rw [hc, two_pow_sub (show i < k by omega)]; ring⟩
      · have hge : (r : ℕ) + 2 ^ (k - (i + 1)) ≤ s := by
          have hmul := Nat.le_mul_of_pos_right (2 ^ (k - (i + 1))) (by omega : 0 < 2 * b + 1)
          omega
        have htn : (r : ℕ) + 2 ^ (k - (i + 1)) < n := lt_of_le_of_lt hge s.isLt
        have hrt : same r ⟨r + 2 ^ (k - (i + 1)), htn⟩ :=
          hs.between (Fin.le_def.mpr (Nat.le_add_right _ _)) (Fin.le_def.mpr hge) hsame
        refine .inr ⟨⟨r + 2 ^ (k - (i + 1)), htn⟩, ahead_eq_some.mpr rfl, hrt,
          (ih (by omega)).mpr ⟨hs.trans (hs.symm hrt) hsame, Fin.le_def.mpr hge, b, ?_⟩⟩
        change (s : ℕ) - (r + 2 ^ (k - (i + 1))) = _
        have hexp : 2 ^ (k - (i + 1)) * (2 * b + 1)
            = 2 * 2 ^ (k - (i + 1)) * b + 2 ^ (k - (i + 1)) := by ring
        rw [two_pow_sub (show i < k by omega)]
        omega

/-- **All rounds backwards reach the group up to the element.** -/
theorem reach_behind (hs : Contiguous same) {k : ℕ} (hn : n = 2 ^ k) {r s : Fin n} :
    s ∈ reach back same k r ↔ same r s ∧ s ≤ r := by
  rw [hs.mem_reach_back, ← hn]
  have := r.isLt
  exact ⟨fun h => ⟨h.1, h.2.1⟩, fun h => ⟨h.1, h.2, by omega⟩⟩

/-- **All rounds forwards reach the group from the element on.** -/
theorem reach_ahead (hs : Contiguous same) {k : ℕ} (hn : n = 2 ^ k) {r s : Fin n} :
    s ∈ reach (forth k) same k r ↔ same r s ∧ r ≤ s := by
  rw [hs.mem_reach_forth hn le_rfl, Nat.sub_self, Nat.pow_zero]
  simp

end Contiguous

end Machinery
