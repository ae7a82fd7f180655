import Mathlib.Data.List.Basic
import Mathlib.Data.List.Perm.Basic
import Mathlib.Order.MinMax

/-!
# Machinery/Selection — picking elements of a list by a pattern

Every `step`-th element (`everyNth`), and chunks that are kept between chunks that are dropped
(`onChunks`), each of them put through a function; and lists with repeated elements.  For all of
them: the length, and which element of the list stands at which place.
-/

namespace Machinery

variable {α : Type*}

/-! ## Steps -/

/-- Every `step`-th element, from the first on. -/
def everyNth (step : ℕ) : List α → List α
  | [] => []
  | x :: l => x :: everyNth step (l.drop (step - 1))
termination_by l => l.length
decreasing_by simp only [List.length_drop, List.length_cons]; omega

variable {step : ℕ}

theorem getElem?_everyNth (hstep : 0 < step) (l : List α) (i : ℕ) :
    (everyNth step l)[i]? = l[i * step]? := by
  fun_induction everyNth step l generalizing i with
  | case1 => rfl
  | case2 x l ih =>
    cases i with
    | zero => simp
    | succ i =>
      have hidx : (i + 1) * step = (step - 1 + i * step) + 1 := by rw [Nat.succ_mul]; omega
      rw [List.getElem?_cons_succ, ih, List.getElem?_drop, hidx, List.getElem?_cons_succ]

theorem length_everyNth (hstep : 0 < step) (l : List α) :
    (everyNth step l).length = (l.length + step - 1) / step := by
  fun_induction everyNth step l with
  | case1 => rw [List.length_nil, Nat.zero_add, Nat.div_eq_of_lt (by omega)]
  | case2 x l ih =>
    rw [List.length_cons, ih, List.length_drop, List.length_cons]
    rcases le_or_gt step l.length with h | h
    · have hlen : l.length + 1 + step - 1 = l.length - (step - 1) + step - 1 + step := by omega
      rw [hlen, Nat.add_div_right _ hstep]
    · have hlen : l.length + 1 + step - 1 = l.length + step := by omega
      rw [hlen, Nat.add_div_right _ hstep, Nat.div_eq_of_lt h, Nat.div_eq_of_lt (by omega)]

theorem everyNth_sublist (step : ℕ) (l : List α) : (everyNth step l).Sublist l := by
  fun_induction everyNth step l with
  | case1 => exact .slnil
  | case2 x l ih => exact (ih.trans (List.drop_sublist _ _)).cons_cons x

/-! ## Chunks -/

/-- Put the chunks of `keep` elements through `f`, and drop the chunks of `skip` between them. -/
def onChunks (f : List α → List α) (keep skip : ℕ) (l : List α) : List α :=
  if _h : l = [] ∨ keep = 0 then []
  else f (l.take keep) ++ onChunks f keep skip (l.drop (keep + skip))
termination_by l.length
decreasing_by
  have hl : 0 < l.length := List.length_pos_of_ne_nil fun e => _h (.inl e)
  rw [List.length_drop]
  omega

variable {f : List α → List α} {keep skip : ℕ}

theorem length_onChunks (hkeep : 0 < keep) (hlen : ∀ l, (f l).length = l.length) (l : List α) :
    (onChunks f keep skip l).length
      = l.length / (keep + skip) * keep + min keep (l.length % (keep + skip)) := by
  fun_induction onChunks f keep skip l with
  | case1 l h =>
    obtain rfl := h.resolve_right hkeep.ne'
    simp
  | case2 l h ih =>
    rw [List.length_append, hlen, List.length_take, ih, List.length_drop]
    rcases lt_or_ge l.length (keep + skip) with hl | hl
    · rw [Nat.sub_eq_zero_of_le hl.le, Nat.div_eq_of_lt hl, Nat.mod_eq_of_lt hl]
      simp
    · have hdiv := Nat.div_eq_sub_div (by omega : 0 < keep + skip) hl
      rw [hdiv, Nat.mod_eq_sub_mod hl, Nat.succ_mul, min_eq_left (by omega)]
      omega

/-- **What stands at a place**: the place `i` is in chunk `i / keep`; where `f` gets its places from
is given by `pos`. -/
theorem getElem?_onChunks (pos : ℕ → ℕ → ℕ) (hkeep : 0 < keep) (hlen : ∀ l, (f l).length = l.length)
    (hpos : ∀ (l : List α) r, r < l.length →
      (f l)[r]? = l[pos l.length r]? ∧ pos l.length r < l.length)
    (l : List α) {i : ℕ} (hi : i < (onChunks f keep skip l).length) :
    i % keep < min keep (l.length - i / keep * (keep + skip)) ∧
      (onChunks f keep skip l)[i]? = l[i / keep * (keep + skip)
        + pos (min keep (l.length - i / keep * (keep + skip))) (i % keep)]? := by
  fun_induction onChunks f keep skip l generalizing i with
  | case1 l h => exact absurd hi (by simp)
  | case2 l h ih =>
    have htake : (l.take keep).length = min keep l.length := List.length_take
    rw [List.length_append, hlen, htake] at hi
    rcases lt_or_ge i (min keep l.length) with hin | hout
    · -- in the first chunk
      have hik : i < keep := lt_of_lt_of_le hin (min_le_left _ _)
      obtain ⟨hget, hlt⟩ := hpos (l.take keep) i (by rw [htake]; exact hin)
      rw [Nat.div_eq_of_lt hik, Nat.mod_eq_of_lt hik, Nat.zero_mul, Nat.sub_zero, Nat.zero_add,
        List.getElem?_append_left (by rw [hlen, htake]; exact hin), hget]
      rw [htake] at hlt ⊢
      exact ⟨hin, List.getElem?_take_of_lt (lt_of_lt_of_le hlt (min_le_left _ _))⟩
    · -- in a later one: the first chunk is full
      have hfull : keep ≤ l.length := by
        by_contra hshort
        have hnil : l.drop (keep + skip) = [] := List.drop_eq_nil_of_le (by omega)
        rw [hnil] at hi
        simp [onChunks] at hi
        omega
      rw [min_eq_left hfull] at hi hout
      obtain ⟨hmod, hget⟩ := ih (i := i - keep) (by omega)
      have hi' : i = i - keep + keep := by omega
      have hq : i / keep = (i - keep) / keep + 1 := by
        rw [hi', Nat.add_div_right _ hkeep, ← hi']
      have hr : i % keep = (i - keep) % keep := by
        rw [hi', Nat.add_mod_right, ← hi']
      have hstart : i / keep * (keep + skip)
          = (i - keep) / keep * (keep + skip) + (keep + skip) := by
        rw [hq, Nat.succ_mul]
      have hleft : l.length - i / keep * (keep + skip)
          = l.length - (keep + skip) - (i - keep) / keep * (keep + skip) := by
        rw [hstart]; omega
      rw [List.length_drop] at hmod hget
      rw [hr, hleft]
      refine ⟨hmod, ?_⟩
      rw [List.getElem?_append_right (by rw [hlen, htake, min_eq_left hfull]; exact hout), hlen,
        htake, min_eq_left hfull, hget, List.getElem?_drop, hstart]
      congr 1
      omega

/-- A place that is kept is in its chunk, as far as the list has it. -/
theorem mod_keep_lt (hkeep : 0 < keep) {n i : ℕ}
    (hi : i < n / (keep + skip) * keep + min keep (n % (keep + skip))) :
    i % keep < min keep (n - i / keep * (keep + skip)) := by
  have hplace : i < (onChunks id keep skip (List.replicate n ())).length := by
    have hlen : ∀ l : List Unit, (id l).length = l.length := fun _ => rfl
    rwa [length_onChunks hkeep hlen, List.length_replicate]
  have hkept := (getElem?_onChunks (fun _ r => r) hkeep (fun _ => rfl) (fun l r hr => ⟨rfl, hr⟩) _
    hplace).1
  rwa [List.length_replicate] at hkept

/-- The last place that is kept is in the chunk of the last place. -/
theorem last_div_keep (skip : ℕ) (hkeep : 0 < keep) {n : ℕ} (hn : 0 < n) :
    0 < n / (keep + skip) * keep + min keep (n % (keep + skip)) ∧
      (n / (keep + skip) * keep + min keep (n % (keep + skip)) - 1) / keep
        = (n - 1) / (keep + skip) := by
  have hpos : 0 < keep + skip := Nat.add_pos_left hkeep skip
  have hdm := Nat.div_add_mod' n (keep + skip)
  have hmod := Nat.mod_lt n hpos
  obtain ⟨q, hq⟩ : ∃ q, q = n / (keep + skip) := ⟨_, rfl⟩
  rw [← hq] at hdm ⊢
  rcases Nat.eq_zero_or_pos (n % (keep + skip)) with h0 | hrest
  · -- the last chunk is a whole one
    obtain ⟨p, rfl⟩ : ∃ p, q = p + 1 := Nat.exists_eq_succ_of_ne_zero fun h => by
      rw [h, h0] at hdm
      omega
    rw [h0, Nat.min_zero, Nat.add_zero, Nat.succ_mul] at *
    have hlast : p * keep + keep - 1 = keep * p + (keep - 1) := by rw [Nat.mul_comm]; omega
    have hlast' : n - 1 = (keep + skip) * p + (keep + skip - 1) := by rw [Nat.mul_comm]; omega
    rw [hlast, hlast', Nat.mul_add_div hkeep, Nat.mul_add_div hpos,
      Nat.div_eq_of_lt (by omega), Nat.div_eq_of_lt (by omega)]
    exact ⟨by omega, rfl⟩
  · have hlast : q * keep + min keep (n % (keep + skip)) - 1
        = keep * q + (min keep (n % (keep + skip)) - 1) := by rw [Nat.mul_comm]; omega
    have hlast' : n - 1 = (keep + skip) * q + (n % (keep + skip) - 1) := by
      rw [Nat.mul_comm]; omega
    rw [hlast]
    conv_rhs => rw [hlast']
    rw [Nat.mul_add_div hkeep, Nat.mul_add_div hpos, Nat.div_eq_of_lt (by omega),
      Nat.div_eq_of_lt (by omega)]
    exact ⟨by omega, rfl⟩

/-- Rearranging within the chunks rearranges the whole. -/
theorem onChunks_perm (hf : ∀ l, (f l).Perm l) (keep skip : ℕ) (l : List α) :
    (onChunks f keep skip l).Perm (onChunks id keep skip l) := by
  fun_induction onChunks f keep skip l with
  | case1 l h => rw [onChunks, dif_pos h]
  | case2 l h ih =>
    rw [onChunks.eq_def id, dif_neg h]
    exact (hf _).append ih

theorem onChunks_sublist (keep skip : ℕ) (l : List α) : (onChunks id keep skip l).Sublist l := by
  fun_induction onChunks id keep skip l with
  | case1 l h => exact List.nil_sublist l
  | case2 l h ih =>
    have htail : (l.drop (keep + skip)).Sublist (l.drop keep) := by
      rw [← List.drop_drop]
      exact List.drop_sublist _ _
    have happ := (List.Sublist.refl (l.take keep)).append (ih.trans htail)
    rwa [List.take_append_drop] at happ

/-! ## Repetitions -/

theorem getElem?_flatMap_replicate {r : ℕ} (hr : 0 < r) (l : List α) (i : ℕ) :
    (l.flatMap fun x => List.replicate r x)[i]? = l[i / r]? := by
  induction l generalizing i with
  | nil => simp
  | cons x l ih =>
    rw [List.flatMap_cons]
    rcases lt_or_ge i r with hi | hi
    · rw [List.getElem?_append_left (by rwa [List.length_replicate]), Nat.div_eq_of_lt hi,
        List.getElem?_replicate_of_lt hi, List.getElem?_cons_zero]
    · have hq : i / r = (i - r) / r + 1 := Nat.div_eq_sub_div hr hi
      rw [List.getElem?_append_right (by rwa [List.length_replicate]), List.length_replicate, ih,
        hq, List.getElem?_cons_succ]

theorem length_flatMap_replicate (r : ℕ) (l : List α) :
    (l.flatMap fun x => List.replicate r x).length = l.length * r := by
  simp

theorem getElem?_cycles {c : ℕ} (l : List α) {i : ℕ} (hi : i < l.length * c) :
    (List.replicate c l).flatten[i]? = l[i % l.length]? := by
  induction c generalizing i with
  | zero => exact absurd hi (by simp)
  | succ c ih =>
    rw [List.replicate_succ, List.flatten_cons]
    rcases lt_or_ge i l.length with h | h
    · rw [List.getElem?_append_left h, Nat.mod_eq_of_lt h]
    · rw [List.getElem?_append_right h, ih (by rw [Nat.mul_succ] at hi; omega),
        Nat.mod_eq_sub_mod h]

theorem length_cycles (c : ℕ) (l : List α) :
    (List.replicate c l).flatten.length = l.length * c := by
  simp [Nat.mul_comm]

/-! ## Writing by positions -/

/-- Write `x i` to position `p i`, for the first `m` indices. -/
def setAt (p : ℕ → ℕ) (x : ℕ → α) (m : ℕ) (l : List α) : List α :=
  (List.range m).foldl (fun l i => l.set (p i) (x i)) l

variable {p : ℕ → ℕ} {x : ℕ → α} {m : ℕ} {l : List α}

theorem setAt_succ : setAt p x (m + 1) l = (setAt p x m l).set (p m) (x m) := by
  rw [setAt, List.range_succ, List.foldl_append]
  rfl

theorem length_setAt : (setAt p x m l).length = l.length := by
  induction m with
  | zero => rfl
  | succ m ih => rw [setAt_succ, List.length_set, ih]

/-- Nothing else is written. -/
theorem getElem?_setAt_of_ne {b : ℕ} (hb : ∀ i < m, p i ≠ b) : (setAt p x m l)[b]? = l[b]? := by
  induction m with
  | zero => rfl
  | succ m ih =>
    rw [setAt_succ, List.getElem?_set_ne (hb m m.lt_succ_self),
      ih fun i hi => hb i (Nat.lt_succ_of_lt hi)]

/-- **Different positions keep what was written to them.** -/
theorem getElem?_setAt (hinj : ∀ i < m, ∀ j < m, p i = p j → i = j) {k : ℕ} (hk : k < m)
    (hl : p k < l.length) : (setAt p x m l)[p k]? = some (x k) := by
  induction m with
  | zero => exact absurd hk (by simp)
  | succ m ih =>
    rw [setAt_succ]
    rcases Nat.lt_succ_iff_lt_or_eq.mp hk with h | rfl
    · have hne : p m ≠ p k := fun e => h.ne (hinj k hk m m.lt_succ_self e.symm)
      rw [List.getElem?_set_ne hne]
      exact ih (fun i hi j hj => hinj i (Nat.lt_succ_of_lt hi) j (Nat.lt_succ_of_lt hj)) h
    · exact List.getElem?_set_self (by rwa [length_setAt])

/-- Write every value to its place, in the order of the list. -/
def writeAll (writes : List (ℕ × α)) (l : List α) : List α :=
  writes.foldl (fun l w => l.set w.1 w.2) l

theorem length_writeAll (writes : List (ℕ × α)) : (writeAll writes l).length = l.length := by
  induction writes generalizing l with
  | nil => rfl
  | cons w writes ih => exact ih.trans List.length_set

theorem getElem?_writeAll_of_notMem {writes : List (ℕ × α)} {i : ℕ}
    (hi : i ∉ writes.map Prod.fst) : (writeAll writes l)[i]? = l[i]? := by
  induction writes generalizing l with
  | nil => rfl
  | cons w writes ih =>
    rw [List.map_cons, List.mem_cons, not_or] at hi
    exact (ih hi.2).trans (List.getElem?_set_ne (Ne.symm hi.1))

/-- **Writes to different places all stay**, whatever their order. -/
theorem getElem?_writeAll {writes : List (ℕ × α)} (hnodup : (writes.map Prod.fst).Nodup)
    {w : ℕ × α} (hw : w ∈ writes) (hl : w.1 < l.length) :
    (writeAll writes l)[w.1]? = some w.2 := by
  induction writes generalizing l with
  | nil => cases hw
  | cons w' writes ih =>
    rw [List.map_cons, List.nodup_cons] at hnodup
    rcases List.mem_cons.mp hw with rfl | hw
    · exact (getElem?_writeAll_of_notMem hnodup.1).trans (List.getElem?_set_self hl)
    · exact ih hnodup.2 hw (by rwa [List.length_set])

end Machinery
