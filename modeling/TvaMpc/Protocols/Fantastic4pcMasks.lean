import TvaMpc.Protocols.Fantastic4pcCorrect

/-!
# Protocols/Fantastic4pcMasks — when the masks of a four-party product cancel

`MasksFit` is the condition on the masks under which a product finishes without an accusation and
with a sharing of the product, and `finishes_product_iff` says that no weaker one would do.
`fits_streams_iff` reads it off the streams that the parties draw from.
-/

namespace Tva.Fantastic4pc

open Machinery

variable {n : ℕ} {d : DataType} {G : Type}

/-- **The masks fit**: where two messages are compared, and where a mask is put on and taken off,
the two are one mask; and there is none in the second round. -/
structure MasksFit {V : Type} [Zero V] (m : Fin 4 → Masks V) : Prop where
  first (i : Fin 4) : (m i).r12 = (m (i + 1)).r11
  third (i : Fin 4) : (m i).r13 = (m (i + 2)).r11
  second (i : Fin 4) : (m i).r2 = 0
  extra : (m 1).r23 = 0

/-- **The masks that a party has compared** when it returns: those of the two copies it was sent in
the first round; and as `2` or `3`, those of the second round, and those that both its senders
compared before. -/
structure Compared {V : Type} (m : Fin 4 → Masks V) (k : Fin 4) : Prop where
  own : (m (k + 1)).r12 = (m (k + 2)).r11
  afterOne (hk : k = 2 ∨ k = 3) : (m (k + 2)).r12 = (m (k + 3)).r11
  afterThree (hk : k = 2 ∨ k = 3) : (m k).r12 = (m (k + 1)).r11
  second (hk : k = 2 ∨ k = 3) : (m (k + 1)).r2 = (m (k + 3)).r2

/-! ## Any generator -/

section Product

variable [RandomGenerator G d] {R : WordRing d} {x y : Fin 4 → EVector 3 n d} {u v : Vec n d}
variable {g : Fin 4 → G}

/-- Only party `1` draws `r_2_3`. -/
theorem gateMasks_zero_r23 (g : G) : (gateMasks d n 0 g).r23 = 0 := rfl

/-- **A party that returns has compared equal copies**, so their masks agree; and so has each party
that sent it a message in the second round. -/
theorem compared_of_returned (hn : 3 ≤ n)
    {s : Net (Fin 4) (Channel 4) (List (Word d)) Exit (EVector 3 n d × G)}
    (hx : R.SharesIn x u) (hy : R.SharesIn y v)
    (hs : Star .buffered (Net.init fun i => (R.product i (x i) (y i)).run (g i)) s)
    (ht : s.Terminal .buffered) {k : Fin 4} {z : EVector 3 n d × G}
    (hk : s.EndsAt k (.returned z)) : Compared (fun i => gateMasks d n i (g i)) k := by
  obtain ⟨w₁, w₂, l, he⟩ := exists_allEnd hn hs ht
  have hmask : ∀ i, w₁ (i + 2) = w₂ (i + 1) →
      (gateMasks d n (i + 1) (g (i + 1))).r12 = (gateMasks d n (i + 2) (g (i + 2))).r11 := by
    intro i hi
    rw [he.first trivial, he.hash trivial, WordRing.first_agree_iff hx hy] at hi
    exact hi.symm
  have hsent : ∀ i, l i ≠ [] → w₁ (i + 2) = w₂ (i + 1) := by
    intro i hi
    by_contra hw
    exact hi ((he.second trivial).trans (if_neg hw))
  have hend := (he.ends (i := k) trivial).returned_inj hk
  split at hend
  · rename_i hw
    suffices h : k = 2 ∨ k = 3 → _ ∧ _ ∧ _ from
      ⟨hmask k hw, fun hk => (h hk).1, fun hk => (h hk).2.1, fun hk => (h hk).2.2⟩
    intro hk23
    rw [secondEnd.eq_def, if_pos hk23] at hend
    have hpost : ∀ i, l i ≠ [] →
        l i = [masked R.mul R.add R.sub (x i) (y i) 0 2 (gateMasks d n i (g i)).r2] :=
      fun i hi => (he.second trivial).trans (if_pos (hsent i hi))
    have h₁ : l (k + 1) ≠ [] := fun h => by rw [h] at hend; cases hend
    have h₃ : l (k + 3) ≠ [] := fun h => by
      rw [hpost _ h₁, h] at hend
      cases hend
    have hm₁ := hmask (k + 1) (hsent _ h₁)
    have hm₃ := hmask (k + 3) (hsent _ h₃)
    rw [add_one_one, add_one_two] at hm₁
    rw [add_three_one, add_three_two] at hm₃
    rw [hpost _ h₁, hpost _ h₃] at hend
    refine ⟨hm₁, hm₃, (WordRing.second_agree_iff hx hy k _ _).mp ?_⟩
    dsimp only at hend
    split at hend
    · assumption
    · cases hend
  · cases hend

/-- **A product of three or more elements works exactly if its masks fit.** -/
theorem finishes_product_iff (hn : 3 ≤ n) (hx : R.SharesIn x u) (hy : R.SharesIn y v) :
    Finishes .buffered (fun i => (R.product i (x i) (y i)).run (g i))
        (fun z _ => R.SharesIn (fun i => (z i).1) (R.mul u v)) ↔
      MasksFit fun i => gateMasks d n i (g i) := by
  have howned : ∀ i, OwnedBy (G := G) i (R.product i (x i) (y i)) := fun i => ownedBy_gate _ _
  let m (i : Fin 4) := gateMasks d n i (g i)
  constructor
  · intro hf
    obtain ⟨a, h, hr, hz⟩ := hf.runs
    have hret : ∀ k, Compared m k := fun k =>
      compared_of_returned hn hx hy hr (Net.terminal_returned a h) (k := k) rfl
    have hfirst : ∀ i, (m i).r12 = (m (i + 1)).r11 := fun i => by
      have hi := (hret (i + 3)).own
      rwa [add_three_one, add_three_two] at hi
    have h₃₁ : (m 3).r2 = (m 1).r2 := (hret 2).second (.inl rfl)
    have h₀₂ : (m 0).r2 = (m 2).r2 := (hret 3).second (.inr rfl)
    obtain ⟨h', hr'⟩ := yields_product (g := g) hn hx hy hfirst h₃₁ h₀₂
    obtain ⟨rfl, -⟩ := Runs.unique hr hr' fun i => howned i (g i)
    obtain ⟨hthird, hsecond, hextra⟩ :=
      (WordRing.shares_output_iff (m := m) hx hy (gateMasks_zero_r23 (g 0)) h₃₁ h₀₂).mp hz
    exact ⟨hfirst, hthird, hsecond, hextra⟩
  · intro hm
    have h₃₁ := (hm.second 3).trans (hm.second 1).symm
    have h₀₂ := (hm.second 0).trans (hm.second 2).symm
    obtain ⟨h, hr⟩ := yields_product (g := g) hn hx hy hm.first h₃₁ h₀₂
    refine hr.finishes (fun i => howned i (g i)) ?_
    exact (WordRing.shares_output_iff (m := m) hx hy (gateMasks_zero_r23 (g 0)) h₃₁ h₀₂).mpr
      ⟨hm.third, hm.second, hm.extra⟩

/-- A product of fewer elements does not: all parties write behind their masks. -/
theorem not_finishes_product (hn : n < 3) {Q : (Fin 4 → EVector 3 n d × G) → _ → Prop} :
    ¬Finishes .buffered (fun i => (R.product i (x i) (y i)).run (g i)) Q :=
  not_finishes_of_exit (i := 0) (run_gate_undefined hn _ _ _ _)

end Product

/-! ## Streams -/

/-- `count` elements of a stream from `start` on, at the head of a vector of zeros. -/
def block (n : ℕ) (T : ℕ → Word d) (start count : ℕ) : Vec n d :=
  fun j => if (j : ℕ) < count then T (start + j) else 0

@[simp] theorem block_zero (start count : ℕ) : block n (fun _ => (0 : Word d)) start count = 0 :=
  funext fun _ => ite_self _

theorem block_shift (T : ℕ → Word d) (c start count : ℕ) :
    block n (fun t => T (t + c)) start count = block n T (c + start) count := by
  funext j
  have hidx : start + (j : ℕ) + c = c + start + j := by omega
  rw [block, block, hidx]

theorem drawn_streams (id count : ℕ) (g : Streams d) :
    (drawn d n id count g).1 = block n (g.channel id) 0 count ∧
      (drawn d n id count g).2.channel id = fun t => g.channel id (t + count) := by
  constructor
  · funext j
    refine (fillNums_apply ..).trans ?_
    rw [Streams.afterDraw_iterate, block, Nat.zero_add]
    simp only [Streams.draw, Function.update_self, Nat.zero_add]
    rfl
  · have h : (drawn d n id count g).2 = _ := fillNums_state (Streams.draw id) (0 : Vec n d) count g
    rw [h, Streams.afterDraw_iterate]
    exact Function.update_self ..

/-- Everything that a party draws in a product comes from the channel that is the size of the
vector, in blocks of the sizes `1`, `2`, `3`, and so on. -/
theorem gateMasks_streams (k : Fin 4) (g : Streams d) : gateMasks d n k g =
    ⟨block n (g.channel n) 0 1, block n (g.channel n) 1 2, block n (g.channel n) 3 3,
      if k = 1 then block n (g.channel n) 6 2 else 0,
      if k = 0 ∨ k = 3 then block n (g.channel n) 6 3
      else if k = 1 then block n (g.channel n) 8 1 else block n (g.channel n) 6 1⟩ := by
  have h₁ := drawn_streams (n := n) n 1 g
  have h₂ := drawn_streams (n := n) n 2 (drawn d n n 1 g).2
  have h₃ := drawn_streams (n := n) n 3 (drawn d n n 2 (drawn d n n 1 g).2).2
  have hfirst : (afterFirst d n g).channel n = fun t => g.channel n (t + 6) := by
    refine h₃.2.trans ?_
    rw [h₂.2, h₁.2]
  have hlast : ∀ count, (drawn d n n count (afterFirst d n g)).1 = block n (g.channel n) 6 count :=
    fun count => by rw [(drawn_streams n count _).1, hfirst, block_shift]
  rw [h₁.2, block_shift] at h₂
  rw [h₂.2, block_shift (fun t => g.channel n (t + 1)), block_shift] at h₃
  rw [gateMasks, h₁.1, h₂.1, h₃.1, secondMasks]
  by_cases hk : k = 1
  · subst hk
    have hthird : (drawn d n n 2 (afterFirst d n g)).2.channel n
        = fun t => g.channel n (t + 8) := by
      rw [(drawn_streams n 2 _).2, hfirst]
    have h22 : (drawn d n n 1 (drawn d n n 2 (afterFirst d n g)).2).1
        = block n (g.channel n) 8 1 := by
      rw [(drawn_streams n 1 _).1, hthird, block_shift]
    exact congrArg₂ (Masks.mk _ _ _) (hlast 2) h22
  · simp only [if_neg hk]
    refine congrArg (Masks.mk _ _ _ _) ?_
    split
    · exact hlast 3
    · exact hlast 1

/-- **The blocks that a product draws from the streams `T` fit.** -/
structure BlocksFit (n : ℕ) (T : Fin 4 → ℕ → Word d) : Prop where
  r12 (i : Fin 4) : block n (T i) 1 2 = block n (T (i + 1)) 0 1
  r13 (i : Fin 4) : block n (T i) 3 3 = block n (T (i + 2)) 0 1
  r21 : block n (T 0) 6 3 = 0 ∧ block n (T 3) 6 3 = 0
  r22 : block n (T 1) 8 1 = 0 ∧ block n (T 2) 6 1 = 0
  r23 : block n (T 1) 6 2 = 0

theorem fits_streams_iff (g : Fin 4 → Streams d) :
    (MasksFit fun i => gateMasks d n i (g i)) ↔ BlocksFit n fun i => (g i).channel n := by
  simp only [gateMasks_streams]
  constructor
  · intro h
    exact ⟨h.first, h.third, ⟨h.second 0, h.second 3⟩, ⟨h.second 1, h.second 2⟩, h.extra⟩
  · intro h
    refine ⟨h.r12, h.r13, fun i => ?_, h.r23⟩
    fin_cases i
    exacts [h.r21.1, h.r22.1, h.r22.2, h.r21.2]

/-- The common streams that the inputs need: what party `i` reads on channel `1`, its predecessor
reads on channel `2`, and the one before on channel `3`. -/
def CommonStreams (g : Fin 4 → Streams d) : Prop :=
  ∀ i, (g i).channel 2 = (g (i + 1)).channel 1 ∧ (g i).channel 3 = (g (i + 2)).channel 1

theorem finishes_product_streams_iff {R : WordRing d} {x y : Fin 4 → EVector 3 n d} {u v : Vec n d}
    (g : Fin 4 → Streams d) (hx : R.SharesIn x u) (hy : R.SharesIn y v) :
    Finishes .buffered (fun i => (R.product i (x i) (y i)).run (g i))
        (fun z _ => R.SharesIn (fun i => (z i).1) (R.mul u v)) ↔
      3 ≤ n ∧ BlocksFit n fun i => (g i).channel n := by
  rcases lt_or_ge n 3 with hn | hn
  · exact iff_of_false (not_finishes_product hn) fun h => absurd h.1 (Nat.not_le.mpr hn)
  · rw [finishes_product_iff hn hx hy, fits_streams_iff]
    exact (and_iff_right hn).symm

/-- **When the masks of the products cancel**: whatever the streams are, both products of two
sharings finish without an accusation and with a sharing of the product exactly if the vectors have
room for all draws, and the blocks fit that the parties draw from the channel numbered by the
size. -/
theorem products_share_iff {x y x' y' : Fin 4 → EVector 3 n d} {u v u' v' : Vec n d}
    (g : Fin 4 → Streams d) (hx : SharesA layout x u) (hy : SharesA layout y v)
    (hx' : SharesB layout x' u') (hy' : SharesB layout y' v') :
    (Finishes .buffered (fun i => (multiplyA i (x i) (y i)).run (g i))
        (fun z _ => SharesA layout (fun i => (z i).1) (u * v)) ↔
      3 ≤ n ∧ BlocksFit n fun i => (g i).channel n) ∧
    (Finishes .buffered (fun i => (andB i (x' i) (y' i)).run (g i))
        (fun z _ => SharesB layout (fun i => (z i).1) (u' &&& v')) ↔
      3 ≤ n ∧ BlocksFit n fun i => (g i).channel n) :=
  ⟨finishes_product_streams_iff (R := .arith) g hx hy,
    finishes_product_streams_iff (R := .bool) g hx' hy'⟩

/-- Streams of ones. -/
def ones : Streams .int8_t := ⟨fun _ _ => 1, fun _ => 1⟩

/-- Streams of zeros. -/
def zeros : Streams .int8_t := ⟨fun _ _ => 0, fun _ => 0⟩

@[simp] theorem block_zeros (id start count : ℕ) : block n (zeros.channel id) start count = 0 :=
  block_zero start count

theorem products_share_zeros : Finishes .buffered
    (fun i => (multiplyA i (0 : EVector 3 3 .int8_t) 0).run zeros)
    fun z _ => SharesA layout (fun i => (z i).1) (0 * 0) := by
  refine (products_share_iff (fun _ => zeros) (WordRing.shares_zero .arith)
    (WordRing.shares_zero .arith) (WordRing.shares_zero .bool)
    (WordRing.shares_zero .bool)).1.mpr ?_
  exact ⟨le_rfl, fun _ => by simp, fun _ => by simp, by simp, by simp, by simp⟩

/-- With streams of ones, the masks of three elements do not agree. -/
theorem not_blocksFit_ones : ¬ BlocksFit 3 fun _ => ones.channel 3 := by
  intro h
  have h₁ : (1 : Word .int8_t) = 0 := congrFun (h.r12 0) 1
  cases h₁

theorem products_accuse_on_ones : CommonStreams (fun _ => ones) ∧
    ¬ Finishes .buffered (fun i => (multiplyA i (0 : EVector 3 3 .int8_t) 0).run ones)
      (fun z _ => SharesA layout (fun i => (z i).1) (0 * 0)) ∧
    ¬ Finishes .buffered (fun i => (andB i (0 : EVector 3 3 .int8_t) 0).run ones)
      (fun z _ => SharesB layout (fun i => (z i).1) (0 &&& 0)) := by
  have hnot : ¬ MasksFit fun i => gateMasks .int8_t 3 i ones := fun h =>
    not_blocksFit_ones ((fits_streams_iff fun _ => ones).mp h)
  refine ⟨fun _ => ⟨rfl, rfl⟩, fun h => hnot ?_, fun h => hnot ?_⟩
  · exact (finishes_product_iff le_rfl (WordRing.shares_zero .arith)
      (WordRing.shares_zero .arith)).mp h
  · exact (finishes_product_iff le_rfl (WordRing.shares_zero .bool)
      (WordRing.shares_zero .bool)).mp h

end Tva.Fantastic4pc
