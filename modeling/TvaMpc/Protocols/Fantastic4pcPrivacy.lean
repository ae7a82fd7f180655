import TvaMpc.Machinery.Tape
import TvaMpc.Protocols.Fantastic4pcMasks

/-!
# Protocols/Fantastic4pcPrivacy — what a party of a product learns

Party `p` reads the streams `p`, `p + 1` and `p + 2`.  In the first round it is sent the cross term
of the components `p + 2` and `p + 3`, and in the second round the parties `2` and `3` are sent the
cross term of `p + 1` and `p + 3`; each time at least one of the two copies is masked by a stream
that `p` reads.  So a product of three elements or more hides two pairs of inputs from `p` exactly
if these cross terms agree (`hides_product_iff`).
-/

namespace Tva.Fantastic4pc

open Machinery

variable {n : ℕ} {d : DataType} {R : WordRing d}

/-- Party `i` reads `K i`, `K (i + 1)` and `K (i + 2)` on its channels `1`, `2` and `3`; its other
channels are those of `rest`. -/
def keyStreams (rest : Fin 4 → Streams d) (K : Fin 4 → ℕ → Word d) (i : Fin 4) : Streams d where
  channel id :=
    if id = 1 then K i else if id = 2 then K (i + 1) else if id = 3 then K (i + 2)
    else (rest i).channel id
  own := (rest i).own

/-- No party has written outside of its vectors. -/
def InMemory {β : Type} (s : Net (Fin 4) (Channel 4) (List (Word d)) Exit β) : Prop :=
  ∀ i, s.loc i ≠ .run (.exit .undefined)

/-- **Two runs give `p` the same messages**, up to a permutation of the one stream that `p` does not
read; and neither leaves its memory. -/
def HidesFrom {β : Type} (p : Fin 4)
    (run run' : (Fin 4 → ℕ → Word d) → Fin 4 → Proc (Channel 4) (List (Word d)) Exit β) : Prop :=
  ∃ Φ : Equiv.Perm (Fin 4 → ℕ → Word d), Moves (p + 3) Φ ∧ ∀ K s s',
    Star .buffered (Net.init (run K)) s → s.Terminal .buffered →
    Star .buffered (Net.init (run' (Φ K))) s' → s'.Terminal .buffered →
    SameView Channel.dest p s.log s'.log ∧ InMemory s ∧ InMemory s'

/-- The cross terms that `p` is sent: of the components `p + 2` and `p + 3`, and, in the second
round of the parties `2` and `3`, of `p + 1` and `p + 3`. -/
def CrossAgree (R : WordRing d) (p : Fin 4) (x y x' y' : Fin 4 → EVector 3 n d) : Prop :=
  R.cross x y (p + 2) (p + 3) = R.cross x' y' (p + 2) (p + 3) ∧
    (p = 2 ∨ p = 3 → R.cross x y (p + 1) (p + 3) = R.cross x' y' (p + 1) (p + 3))

/-! ## The messages -/

section Messages

variable {x y x' y' : Fin 4 → EVector 3 n d} {u v u' v' : Vec n d} {g g' : Fin 4 → Streams d}
variable {s s' : Net (Fin 4) (Channel 4) (List (Word d)) Exit (EVector 3 n d × Streams d)}
variable {w₁ w₂ w₁' w₂' : Fin 4 → Vec n d} {l l' : Fin 4 → List (Vec n d)}

/-- The end of a product that everybody runs. -/
abbrev AllEnd (R : WordRing d) (x y : Fin 4 → EVector 3 n d) (g : Fin 4 → Streams d)
    (s : Net (Fin 4) (Channel 4) (List (Word d)) Exit (EVector 3 n d × Streams d))
    (w₁ w₂ : Fin 4 → Vec n d) (l : Fin 4 → List (Vec n d)) : Prop :=
  GateEnd R.mul R.add R.sub (fun _ => True) x y g s w₁ w₂ l

/-- What the parties send: masked cross terms, in the second round only past the first check. -/
theorem GateEnd.sent (he : AllEnd R x y g s w₁ w₂ l) (hx : R.SharesIn x u) (hy : R.SharesIn y v)
    (i : Fin 4) : w₁ i = R.sub (R.cross x y i (i + 1)) (gateMasks d n i (g i)).r11 ∧
      w₂ i = R.sub (R.cross x y (i + 1) (i + 2)) (gateMasks d n i (g i)).r12 ∧
      l i = if (gateMasks d n (i + 2) (g (i + 2))).r11 = (gateMasks d n (i + 1) (g (i + 1))).r12
        then [R.sub (R.cross x y i (i + 2)) (gateMasks d n i (g i)).r2] else [] := by
  refine ⟨?_, ?_, ?_⟩
  · rw [he.first trivial, WordRing.masked_first hx hy]
  · rw [he.hash trivial, WordRing.masked_hash hx hy]
  · rw [he.second trivial, he.first trivial, he.hash trivial, WordRing.masked_second hx hy]
    simp only [WordRing.first_agree_iff hx hy]

/-- **Equal cross terms give equal messages**, under the same masks. -/
theorem sameView_of_crossAgree {p : Fin 4} (he : AllEnd R x y g s w₁ w₂ l)
    (he' : AllEnd R x' y' g s' w₁' w₂' l') (hx : R.SharesIn x u) (hy : R.SharesIn y v)
    (hx' : R.SharesIn x' u') (hy' : R.SharesIn y' v') (hc : CrossAgree R p x y x' y') :
    SameView Channel.dest p s.log s'.log := by
  have hidx : ∀ p : Fin 4, p + 2 + 1 = p + 3 ∧ p + 1 + 1 = p + 2 ∧ p + 1 + 2 = p + 3 ∧
      p + 3 + 2 = p + 1 ∧ p + 2 + 2 = p ∧ p + 1 + 3 = p ∧ p + 3 + 1 = p := by decide
  obtain ⟨i₁, i₂, i₃, i₄, i₅, i₆, i₇⟩ := hidx p
  have h₁ : w₁ (p + 2) = w₁' (p + 2) := by
    rw [(he.sent hx hy _).1, (he'.sent hx' hy' _).1, i₁, hc.1]
  have h₂ : w₂ (p + 1) = w₂' (p + 1) := by
    rw [(he.sent hx hy _).2.1, (he'.sent hx' hy' _).2.1, i₂, i₃, hc.1]
  have hl₁ : p = 2 ∨ p = 3 → l (p + 1) = l' (p + 1) := fun hp => by
    rw [(he.sent hx hy _).2.2, (he'.sent hx' hy' _).2.2, i₃, hc.2 hp]
  have hl₃ : p = 2 ∨ p = 3 → l (p + 3) = l' (p + 3) := fun hp => by
    rw [(he.sent hx hy _).2.2, (he'.sent hx' hy' _).2.2, i₄, WordRing.cross_comm (p + 3),
      WordRing.cross_comm (x := x') (p + 3), hc.2 hp]
  have hto : ∀ p : Fin 4, (secondTo (p + 1) = p ∨ secondTo (p + 3) = p) → p = 2 ∨ p = 3 := by decide
  intro c hcp
  obtain ⟨j, k, tag⟩ := c
  obtain rfl : k = p := hcp
  by_cases hmem : (⟨j, k, tag⟩ : Channel 4) ∈ gateSends j
  · have htag : tag = msgTag := by
      simp only [gateSends, chan, List.mem_cons, Channel.mk.injEq, true_and, List.not_mem_nil,
        or_false] at hmem
      rcases hmem with h | h | h <;> exact h.2
    subst htag
    change s.log (chan j k) = s'.log (chan j k)
    have hj : ∀ j k : Fin 4, chan j k ∈ gateSends j → j = k + 1 ∨ j = k + 2 ∨ j = k + 3 := by decide
    rcases hj j k hmem with rfl | rfl | rfl
    · have e := he.log_three (k + 1)
      have e' := he'.log_three (k + 1)
      rw [i₆] at e e'
      rw [e, e', h₂]
      split
      · rename_i hk
        rw [hl₁ (hto k (.inl hk))]
      · rfl
    · have e := he.log_two (k + 2)
      have e' := he'.log_two (k + 2)
      rw [i₅] at e e'
      rw [e, e', h₁]
    · have e := he.log_one (k + 3)
      have e' := he'.log_one (k + 3)
      rw [i₇] at e e'
      rw [e, e']
      split
      · rename_i hk
        rw [hl₃ (hto k (.inr hk))]
      · rfl
  · rw [he.log_rest hmem, he'.log_rest hmem]

/-- A product with room for its masks stays in its memory. -/
theorem inMemory_of_allEnd (he : AllEnd R x y g s w₁ w₂ l) : InMemory s := by
  intro i hi
  have hend := he.ends (i := i) trivial
  have hnot : ∀ o : Outcome (Channel 4) Exit (EVector 3 n d × Streams d), s.EndsAt i o →
      o = .exited .undefined := fun o ho => ho.exited_inj hi
  have hundefined := hnot _ hend
  rw [secondEnd.eq_def] at hundefined
  split at hundefined
  · split at hundefined
    · split at hundefined
      · cases hundefined
      · cases hundefined
      · split at hundefined <;> cases hundefined
    · cases hundefined
  · cases hundefined

end Messages

/-! ## When a product hides its inputs -/

section Hides

variable {x y x' y' : Fin 4 → EVector 3 n d} {u v u' v' : Vec n d} {p : Fin 4}

/-- A party whose channel carries zeros has no masks. -/
theorem gateMasks_zero {g : Streams d} (hg : g.channel n = fun _ => 0) (k : Fin 4) :
    gateMasks d n k g = ⟨0, 0, 0, 0, 0⟩ := by
  rw [gateMasks_streams, hg]
  simp only [block_zero, ite_self]

/-- Nothing but zeros on the other channels. -/
def noRest (d : DataType) : Fin 4 → Streams d := fun _ => ⟨fun _ _ => 0, fun _ => 0⟩

/-- With one stream that is not zero, only one party's channel is not zero. -/
theorem channel_keyStreams {K : Fin 4 → ℕ → Word d} {q i : Fin 4}
    (hK : ∀ j, j ≠ q → K j = fun _ => 0) (h₁ : n = 1 → i ≠ q) (h₂ : n = 2 → i + 1 ≠ q)
    (h₃ : n = 3 → i + 2 ≠ q) :
    (keyStreams (noRest d) K i).channel n = fun _ => 0 := by
  simp only [keyStreams]
  split
  · exact hK _ (h₁ ‹_›)
  split
  · exact hK _ (h₂ ‹_›)
  split
  · exact hK _ (h₃ ‹_›)
  · rfl

/-- **Hidden inputs have equal cross terms**: when all streams are zero, one of the two copies of a
cross term stays unmasked however the stream is moved that `p` does not read. -/
theorem crossAgree_of_hidesFrom (hn : 3 ≤ n) (hx : R.SharesIn x u) (hy : R.SharesIn y v)
    (hx' : R.SharesIn x' u') (hy' : R.SharesIn y' v')
    (h : HidesFrom p (fun K i => (R.product i (x i) (y i)).run (keyStreams (noRest d) K i))
      fun K i => (R.product i (x' i) (y' i)).run (keyStreams (noRest d) K i)) :
    CrossAgree R p x y x' y' := by
  obtain ⟨Φ, hmoves, hview⟩ := h
  let zero : Fin 4 → ℕ → Word d := fun _ _ => 0
  obtain ⟨s, hs, ht⟩ := exists_terminal .buffered
    (Net.init fun i => (R.product i (x i) (y i)).run (keyStreams (noRest d) zero i))
  obtain ⟨s', hs', ht'⟩ := exists_terminal .buffered
    (Net.init fun i => (R.product i (x' i) (y' i)).run (keyStreams (noRest d) (Φ zero) i))
  obtain ⟨w₁, w₂, l, he⟩ := exists_allEnd hn hs ht
  obtain ⟨w₁', w₂', l', he'⟩ := exists_allEnd hn hs' ht'
  have hsame := (hview zero s s' hs ht hs' ht').1
  have hK : ∀ j, j ≠ p + 3 → Φ zero j = fun _ => 0 := fun j hj => hmoves zero j hj
  have hm : ∀ i, gateMasks d n i (keyStreams (noRest d) zero i) = ⟨0, 0, 0, 0, 0⟩ := fun i =>
    gateMasks_zero (by simp only [keyStreams, noRest, zero, ite_self]) i
  have hm' : ∀ i, (n = 1 → i ≠ p + 3) → (n = 2 → i + 1 ≠ p + 3) → (n = 3 → i + 2 ≠ p + 3) →
      gateMasks d n i (keyStreams (noRest d) (Φ zero) i) = ⟨0, 0, 0, 0, 0⟩ :=
    fun i h₁ h₂ h₃ => gateMasks_zero (channel_keyStreams hK h₁ h₂ h₃) i
  have hidx : ∀ p : Fin 4, p + 2 + 1 = p + 3 ∧ p + 1 + 1 = p + 2 ∧ p + 1 + 2 = p + 3 ∧
      p + 3 + 2 = p + 1 ∧ p + 2 + 2 = p ∧ p + 1 + 3 = p ∧ p + 3 + 1 = p := by decide
  have hne : ∀ p : Fin 4, p ≠ p + 3 ∧ p + 1 ≠ p + 3 ∧ p + 2 ≠ p + 3 := by decide
  obtain ⟨i₁, i₂, i₃, i₄, i₅, i₆, i₇⟩ := hidx p
  obtain ⟨n₀, n₁, n₂⟩ := hne p
  -- the messages to `p` in the two runs
  have h₁ : w₁ (p + 2) = w₁' (p + 2) := by
    have e := he.log_two (p + 2)
    have e' := he'.log_two (p + 2)
    rw [i₅] at e e'
    exact List.ofFn_injective (List.cons.inj (e.symm.trans ((hsame _ rfl).trans e'))).1
  have h₂ : w₂ (p + 1) = w₂' (p + 1) ∧ (secondTo (p + 1) = p → l (p + 1) = l' (p + 1)) := by
    have e := he.log_three (p + 1)
    have e' := he'.log_three (p + 1)
    rw [i₆] at e e'
    have hlog := List.cons.inj (e.symm.trans ((hsame _ rfl).trans e'))
    refine ⟨List.ofFn_injective hlog.1, fun hto => ?_⟩
    have htail := hlog.2
    rw [if_pos hto, if_pos hto] at htail
    exact List.map_injective_iff.mpr List.ofFn_injective htail
  have h₃ : secondTo (p + 3) = p → l (p + 3) = l' (p + 3) := by
    intro hto
    have e := he.log_one (p + 3)
    have e' := he'.log_one (p + 3)
    rw [i₇, if_pos hto] at e e'
    exact List.map_injective_iff.mpr List.ofFn_injective (e.symm.trans ((hsame _ rfl).trans e'))
  have hsecond : ∀ i, l i = l' i → (gateMasks d n i (keyStreams (noRest d) (Φ zero) i)).r2 = 0 →
      R.cross x y i (i + 2) = R.cross x' y' i (i + 2) := by
    intro i hl hr
    rw [(he.sent hx hy i).2.2, (he'.sent hx' hy' i).2.2, hr, hm, hm, hm, if_pos rfl] at hl
    split at hl
    · exact WordRing.sub_mask_inj.mp (List.cons.inj hl).1
    · cases hl
  refine ⟨?_, fun hp => ?_⟩
  · by_cases hn₂ : n = 2
    · have hr := hm' (p + 1) (fun _ => n₁) (fun _ => by rw [i₂]; exact n₂) fun h => by omega
      have h := h₂.1
      rw [(he.sent hx hy _).2.1, (he'.sent hx' hy' _).2.1, hm, hr, i₂, i₃] at h
      exact WordRing.sub_mask_inj.mp h
    · have hr := hm' (p + 2) (fun _ => n₂) (fun h => absurd h hn₂) fun _ => by rw [i₅]; exact n₀
      have h := h₁
      rw [(he.sent hx hy _).1, (he'.sent hx' hy' _).1, hm, hr, i₁] at h
      exact WordRing.sub_mask_inj.mp h
  · have hto : ∀ p : Fin 4, p = 2 ∨ p = 3 → secondTo (p + 1) = p ∧ secondTo (p + 3) = p := by decide
    by_cases hn₃ : n = 3
    · have hr := hm' (p + 3) (fun h => by omega) (fun h => by omega) fun _ => by rw [i₄]; exact n₁
      have h := hsecond (p + 3) (h₃ (hto p hp).2) (by rw [hr])
      rwa [i₄, WordRing.cross_comm (p + 3), WordRing.cross_comm (x := x') (p + 3)] at h
    · have hr := hm' (p + 1) (fun _ => n₁) (fun _ => by rw [i₂]; exact n₂) fun h => absurd h hn₃
      have h := hsecond (p + 1) (h₂.2 (hto p hp).1) (by rw [hr])
      rwa [i₃] at h

/-- **Without room for its masks** a product leaves its memory. -/
theorem three_le_of_hidesFrom {rest : Fin 4 → Streams d}
    (h : HidesFrom p (fun K i => (R.product i (x i) (y i)).run (keyStreams rest K i))
      fun K i => (R.product i (x' i) (y' i)).run (keyStreams rest K i)) : 3 ≤ n := by
  by_contra hn
  obtain ⟨Φ, -, hview⟩ := h
  let zero : Fin 4 → ℕ → Word d := fun _ _ => 0
  obtain ⟨s, hs, ht⟩ := exists_terminal .buffered
    (Net.init fun i => (R.product i (x i) (y i)).run (keyStreams rest zero i))
  obtain ⟨s', hs', ht'⟩ := exists_terminal .buffered
    (Net.init fun i => (R.product i (x' i) (y' i)).run (keyStreams rest (Φ zero) i))
  exact (hview zero s s' hs ht hs' ht').2.1 0
    (Star.exited hs (congrArg _ (run_gate_undefined (Nat.not_le.mp hn) 0 _ _ _)))

/-- **When a product hides its inputs from a party.** -/
theorem hides_product_iff (hx : R.SharesIn x u) (hy : R.SharesIn y v) (hx' : R.SharesIn x' u')
    (hy' : R.SharesIn y' v') :
    (∀ rest, HidesFrom p (fun K i => (R.product i (x i) (y i)).run (keyStreams rest K i))
      fun K i => (R.product i (x' i) (y' i)).run (keyStreams rest K i)) ↔
    3 ≤ n ∧ CrossAgree R p x y x' y' := by
  constructor
  · intro h
    have hn := three_le_of_hidesFrom (h (noRest d))
    exact ⟨hn, crossAgree_of_hidesFrom hn hx hy hx' hy' (h (noRest d))⟩
  rintro ⟨hn, hc⟩ rest
  refine ⟨Equiv.refl _, fun _ _ _ => rfl, fun K s s' hs ht hs' ht' => ?_⟩
  obtain ⟨w₁, w₂, l, he⟩ := exists_allEnd hn hs ht
  obtain ⟨w₁', w₂', l', he'⟩ := exists_allEnd hn hs' ht'
  exact ⟨sameView_of_crossAgree he he' hx hy hx' hy' hc, inMemory_of_allEnd he,
    inMemory_of_allEnd he'⟩

/-- All copies of a component are equal. -/
def Replicated (x : Fin 4 → EVector 3 n d) : Prop := ∀ i k, x i k = x (layout i k) 0

theorem Replicated.shares (hx : Replicated x) (R : WordRing d) : ∃ v, R.SharesIn x v :=
  ⟨_, @Shares.mk _ R.ring _ _ _ _ _ _ _ hx rfl⟩

/-- **When the products hide their inputs**: for any two pairs of sharings there is a permutation of
the one stream that `p` does not read, under which all messages to `p` are the same in both runs,
exactly if the vectors have room for the masks and the cross terms agree that `p` is sent. -/
theorem products_hide_iff (p : Fin 4) (hx : Replicated x) (hy : Replicated y) (hx' : Replicated x')
    (hy' : Replicated y') :
    ((∀ rest, HidesFrom p (fun K i => (multiplyA i (x i) (y i)).run (keyStreams rest K i))
        fun K i => (multiplyA i (x' i) (y' i)).run (keyStreams rest K i)) ↔
      3 ≤ n ∧ CrossAgree .arith p x y x' y') ∧
    ((∀ rest, HidesFrom p (fun K i => (andB i (x i) (y i)).run (keyStreams rest K i))
        fun K i => (andB i (x' i) (y' i)).run (keyStreams rest K i)) ↔
      3 ≤ n ∧ CrossAgree .bool p x y x' y') := by
  have hiff : ∀ R : WordRing d, (∀ rest, HidesFrom p
      (fun K i => (R.product i (x i) (y i)).run (keyStreams rest K i))
      fun K i => (R.product i (x' i) (y' i)).run (keyStreams rest K i)) ↔
      3 ≤ n ∧ CrossAgree R p x y x' y' := by
    intro R
    obtain ⟨_, h₁⟩ := hx.shares R
    obtain ⟨_, h₂⟩ := hy.shares R
    obtain ⟨_, h₃⟩ := hx'.shares R
    obtain ⟨_, h₄⟩ := hy'.shares R
    exact hides_product_iff h₁ h₂ h₃ h₄
  exact ⟨hiff .arith, hiff .bool⟩

end Hides

/-- Three elements with the components `c`. -/
def spread (c : Fin 4 → Word .int8_t) (i : Fin 4) : EVector 3 3 .int8_t := fun k _ => c (layout i k)

theorem replicated_spread (c : Fin 4 → Word .int8_t) : Replicated (spread c) := fun _ _ => rfl

/-- Products with zero keep the other factor from party `0`. -/
theorem products_hide_zero : HidesFrom 0
    (fun K i => (multiplyA i (spread ![4, 5, 6, 7] i) (spread 0 i)).run
      (keyStreams (noRest .int8_t) K i))
    fun K i => (multiplyA i (spread ![4, 5, 6, 9] i) (spread 0 i)).run
      (keyStreams (noRest .int8_t) K i) :=
  (products_hide_iff 0 (replicated_spread _) (replicated_spread _) (replicated_spread _)
    (replicated_spread _)).1.mpr ⟨le_rfl, by decide, by decide⟩ _

/-- Party `0` can tell apart two factors with the same components at it, when the other factor is
not zero. -/
theorem products_tell_apart : Replicated (spread 0) ∧ Replicated (spread ![0, 0, 0, 1]) ∧
    Replicated (spread ![0, 0, 1, 0]) ∧ spread 0 0 = spread ![0, 0, 0, 1] 0 ∧
    ¬ HidesFrom 0
      (fun K i => (multiplyA i (spread 0 i) (spread ![0, 0, 1, 0] i)).run
        (keyStreams (noRest .int8_t) K i))
      (fun K i => (multiplyA i (spread ![0, 0, 0, 1] i) (spread ![0, 0, 1, 0] i)).run
        (keyStreams (noRest .int8_t) K i)) ∧
    ¬ HidesFrom 0
      (fun K i => (andB i (spread 0 i) (spread ![0, 0, 1, 0] i)).run
        (keyStreams (noRest .int8_t) K i))
      (fun K i => (andB i (spread ![0, 0, 0, 1] i) (spread ![0, 0, 1, 0] i)).run
        (keyStreams (noRest .int8_t) K i)) := by
  have hshares := fun (c : Fin 4 → Word .int8_t) (R : WordRing .int8_t) =>
    (replicated_spread c).shares R
  refine ⟨replicated_spread _, replicated_spread _, replicated_spread _, by decide, fun h => ?_,
    fun h => ?_⟩
  · obtain ⟨_, h₁⟩ := hshares 0 .arith
    obtain ⟨_, h₂⟩ := hshares ![0, 0, 1, 0] .arith
    obtain ⟨_, h₃⟩ := hshares ![0, 0, 0, 1] .arith
    exact absurd (congrFun (crossAgree_of_hidesFrom le_rfl h₁ h₂ h₃ h₂ h).1 0) (by decide)
  · obtain ⟨_, h₁⟩ := hshares 0 .bool
    obtain ⟨_, h₂⟩ := hshares ![0, 0, 1, 0] .bool
    obtain ⟨_, h₃⟩ := hshares ![0, 0, 0, 1] .bool
    exact absurd (congrFun (crossAgree_of_hidesFrom le_rfl h₁ h₂ h₃ h₂ h).1 0) (by decide)

end Tva.Fantastic4pc
