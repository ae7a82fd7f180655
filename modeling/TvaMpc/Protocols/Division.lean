import TvaMpc.Machinery.SplitDivision
import TvaMpc.Protocols.Fantastic4pcBits
import TvaMpc.Protocols.Fantastic4pcPrograms
import TvaMpc.Protocols.Replicated3pcMasked

/-!
# Protocols/Division — dividing by a public constant

The components of the dividend are added up to two words, which are divided on their own.  `div`
adds one to the sum of the quotients unless the shared error is negative (`ensures_div`).

Four parties round the words down after the division, which is exact for vectors of three elements
or more (`divides_exactly_iff`).  Of three
parties, party `0` moves a negative word by the divisor first, which can wrap: the division is exact
where that does no harm (`div_opens_iff`).
-/

namespace Tva

open Machinery

variable {N ρ n least : ℕ} [NeZero ρ] {d : DataType} {G : Type} {layout : Fin N → Fin ρ → Fin N}

/-- The signs of the components are bits. -/
theorem sharesBit_ltz {x : Fin N → EVector ρ n d} {v : Vec n d} (hx : SharesB layout x v) :
    SharesBit layout (fun i k => ltz (x i k)) fun j => (v j).msb :=
  hx.mapBit ltz_xor fun _ => funext fun _ => ltz_apply _ _

/-- **The correction**: one is added where the error is not negative. -/
theorem Protocol.KeepsKind.ensures_div {P : Fin N → Protocol N ρ d G} {dataParty : Fin N → Prop}
    {Good : (Fin N → G) → Prop} {mode : SendMode}
    {K : (n : ℕ) → (Fin N → EVector ρ n d) → (Fin n → Bool) → Prop} {g : Fin N → G}
    (hP : Protocol.KeepsKind P layout least dataParty Good mode K) {x : Fin N → EVector ρ n d}
    {c : Word d}
    {q e : Vec n d} (hdiv : Ensures mode (fun i => (P i).divConstA (x i) c) g fun out g' _ =>
      SharesA layout (fun i => (out i).1) q ∧ SharesA layout (fun i => (out i).2) e ∧ Good g')
    (hn : least ≤ n) :
    Ensures mode (fun i => (P i).div (x i) c) g fun z g' _ =>
      SharesA layout z (fun j => q j + if (e j).slt 0#d.bits then 0#d.bits else 1#d.bits)
        ∧ Good g' := by
  refine hdiv.bind fun out g₁ _ hout => ?_
  refine (hP.ensures_a2b hout.2.2 hout.2.1 hn).bind fun berr g₂ _ hberr => ?_
  have hsigns : SharesBit layout (fun i => (P i).notB1 ((P i).ltz (berr i))) fun j =>
    !(e j).msb := by
    simp only [hP.ltz]
    exact hP.notB1 (sharesBit_ltz hberr.1)
  refine (hP.b2aBit hberr.2 hsigns.shares).bind fun correction g₃ _ hcor => ?_
  rw [lowBit_bits] at hcor
  have hvalue : (fun j => q j + if (e j).slt 0#d.bits then 0#d.bits else 1#d.bits)
      = q + bits d fun j => !(e j).msb := by
    funext j
    change _ = q j + bit d (!(e j).msb)
    rw [BitVec.slt_zero_eq_msb, bit]
    cases (e j).msb <;> rfl
  simp only [hP.addA, hvalue]
  exact Ensures.pure ⟨hout.1.add hcor.1, hcor.2⟩

/-- **The division of a protocol**: the parties split every element in two words.  Three parties
move the first one by the divisor before they divide it, if it is negative. -/
def Protocol.Divides (P : Fin N → Protocol N ρ d G) (layout : Fin N → Fin ρ → Fin N)
    (Good : (Fin N → G) → Prop) (mode : SendMode) : Prop :=
  ∀ {n : ℕ} {x : Fin N → EVector ρ n d} {v : Vec n d} {g : Fin N → G} {c : Word d},
    Good g → SharesA layout x v → SafeDivisor c → ∃ l r : Vec n d, l + r = v ∧
      Ensures mode (fun i => (P i).divConstA (x i) c) g fun out g' _ =>
        SharesA layout (fun i => (out i).1) (fun j =>
          leftQuotient (N = 3) (l j) c + ((r j).sdiv c - negWord (r j))) ∧
        SharesA layout (fun i => (out i).2) (fun j =>
          leftRemainder (N = 3) (l j) c + ((r j).srem c + negWord (r j) * c - c)) ∧ Good g'

theorem Protocol.Divides.ensures_div {P : Fin N → Protocol N ρ d G} {dataParty : Fin N → Prop}
    {Good : (Fin N → G) → Prop} {mode : SendMode}
    {K : (n : ℕ) → (Fin N → EVector ρ n d) → (Fin n → Bool) → Prop} {g : Fin N → G}
    (hD : Protocol.Divides P layout Good mode)
    (hP : Protocol.KeepsKind P layout least dataParty Good mode K) {x : Fin N → EVector ρ n d}
    {c : Word d} {v : Vec n d} (hg : Good g) (hx : SharesA layout x v) (hc : SafeDivisor c)
    (hn : least ≤ n) :
    ∃ l r : Vec n d, l + r = v ∧ Ensures mode (fun i => (P i).div (x i) c) g fun z g' _ =>
      SharesA layout z (fun j => splitQuotient (N = 3) (l j) (r j) c) ∧ Good g' := by
  obtain ⟨l, r, hsum, hdiv⟩ := hD hg hx hc
  exact ⟨l, r, hsum, hP.ensures_div hdiv hn⟩

omit [NeZero ρ] in
theorem Protocol.OwnedBy.div {i : Fin N} {P : Protocol N ρ d G} (hP : OwnedBy i P)
    (x : EVector ρ n d) (c : Word d) : Tva.OwnedBy i (P.div x c) :=
  (hP.divConstA _ _).bind fun _ => (hP.a2b _).bind fun _ => (hP.b2aBit _).bind fun _ => .pure _

end Tva

/-! ## Four parties -/

namespace Tva.Fantastic4pc

open Machinery

variable {n : ℕ} {d : DataType} {G : Type} [RandomGenerator G d] {Good : G → Prop}
variable {g : Fin 4 → G} {x : Fin 4 → EVector 3 n d} {v : Vec n d}

/-- The two words of an element: what the parties `0` and `3` add up, and what `1` and `2` do. -/
def leftWord (x : Fin 4 → EVector 3 n d) (j : Fin n) : Word d := x 0 0 j + x 0 1 j
def rightWord (x : Fin 4 → EVector 3 n d) (j : Fin n) : Word d := x 2 0 j + x 2 1 j

theorem ensures_divConstA (hz : ZeroMasks d Good) (hg : ∀ i, Good (g i)) (hx : SharesA layout x v)
    (c : Word d) (hd : ∀ i, Divisible (dividend i (x i)) c) :
    Ensures .buffered (fun i => divConstA i (x i) c) g fun out g' _ =>
      SharesA layout (fun i => (out i).1) (fun j =>
        leftQuotient false (leftWord x j) c + ((rightWord x j).sdiv c - negWord (rightWord x j)))
      ∧ SharesA layout (fun i => (out i).2) (fun j => leftRemainder false (leftWord x j) c
        + ((rightWord x j).srem c + negWord (rightWord x j) * c - c))
      ∧ ∀ i, Good (g' i) := by
  have hone := replicated_one hx
  have htwo := replicated_two hx
  -- the parties that know a word compute the same parts of it
  have hleft : divPart 3 (x 3) c = divPart 0 (x 0) c := by
    have hsum : dividend 3 (x 3) = dividend 0 (x 0) := by
      change x 3 1 + x 3 2 = x 0 0 + x 0 1
      rw [hone 3, htwo 3, hone 0]
      rfl
    simp [divPart, hsum]
  have hright : divPart 1 (x 1) c = divPart 2 (x 2) c := by
    have hsum : dividend 1 (x 1) = dividend 2 (x 2) := by
      change x 1 1 + x 1 2 = x 2 0 + x 2 1
      rw [hone 1, htwo 1, hone 2]
      rfl
    simp [divPart, hsum]
  have hquotients : ((divPart 0 (x 0) c).1 + (divPart 2 (x 2) c).1 : Vec n d) = fun j =>
      leftQuotient false (leftWord x j) c
        + ((rightWord x j).sdiv c - negWord (rightWord x j)) := rfl
  have herrors : ((divPart 0 (x 0) c).2 + (divPart 2 (x 2) c).2 : Vec n d) = fun j =>
      leftRemainder false (leftWord x j) c
        + ((rightWord x j).srem c + negWord (rightWord x j) * c - c) := by
    funext j
    change ((leftWord x j).srem c + negWord (leftWord x j) * c - c)
      + ((rightWord x j).srem c + negWord (rightWord x j) * c) = _
    rw [sub_add_eq_add_sub, add_sub_assoc]
    rfl
  have hlocal : Yields .buffered (fun i => divConstLocal i (x i) c) g
      (fun i => divPart i (x i) c) g fun _ => [] :=
    .of_run fun i => run_divConstLocal (hd i) (g i)
  refine (Ensures.of_yields (Q := fun p g' _ => (p = fun i => divPart i (x i) c) ∧ g' = g) hlocal
    ⟨rfl, rfl⟩).bind fun p g₀ _ hp => ?_
  obtain ⟨rfl, rfl⟩ := hp
  refine (ensures_inpA hz hg 0 rfl (congrArg Prod.fst hleft)).bind fun r₁ g₁ _ hr₁ => ?_
  refine (ensures_inpA hz hr₁.2 2 rfl (congrArg Prod.fst hright)).bind fun r₂ g₂ _ hr₂ => ?_
  refine (ensures_inpA hz hr₂.2 0 rfl (congrArg Prod.snd hleft)).bind fun e₁ g₃ _ he₁ => ?_
  refine (ensures_inpA hz he₁.2 2 rfl (congrArg Prod.snd hright)).bind fun e₂ g₄ _ he₂ => ?_
  simp only [← hquotients, ← herrors]
  have hadd : ∀ a b : EVector 3 n d, addA a b = fun k => a k + b k := (correct hz).addA 0
  refine Ensures.pure ⟨?_, ?_, he₂.2⟩ <;> simp only [hadd]
  exacts [hr₁.1.add hr₂.1, he₁.1.add he₂.1]

/-- The two words of an element add up to it. -/
theorem words_add (hx : SharesA layout x v) (j : Fin n) :
    leftWord x j + rightWord x j = v j := by
  rw [← sum_eq hx, leftWord, rightWord, replicated_one hx 0, replicated_one hx 2]
  change (x 0 0 j + x 1 0 j) + (x 2 0 j + x 3 0 j) = x 0 0 j + x 1 0 j + x 2 0 j + x 3 0 j
  ring

theorem divides (hz : ZeroMasks d Good) :
    Protocol.Divides (protocol d G) layout (fun g => ∀ i, Good (g i)) .buffered :=
  fun hg hx hc =>
    ⟨_, _, funext (words_add hx), ensures_divConstA hz hg hx _ fun _ => hc.divisible _⟩

end Tva.Fantastic4pc

/-! ## Three parties -/

namespace Tva.Replicated3pc

open Machinery

variable {n : ℕ} {d : DataType} {G : Type} [RandomGenerator G d] {Good : (Fin 3 → G) → Prop}
variable {mode : SendMode} {g : Fin 3 → G} {x : Fin 3 → EVector 2 n d} {v : Vec n d}

/-- **What the generators must keep for a division**: party `0` draws the masks of the quotient and
of the error on its channel `4` that party `2` draws on its channel `3`. -/
structure DivisionMasks (d : DataType) [RandomGenerator G d] (Good : (Fin 3 → G) → Prop) : Prop
    extends ZeroSharing d Good where
  quotient {g : Fin 3 → G} (hg : Good g) (n : ℕ) : mask d 4 n (g 0) = mask d 3 n (g 2)
  error {g : Fin 3 → G} (hg : Good g) (n : ℕ) :
    mask d 4 n (afterNext d 4 n (g 0)) = mask d 3 n (afterNext d 3 n (g 2))
  afterDiv {g : Fin 3 → G} (hg : Good g) (n : ℕ) : Good fun i => afterDiv d n i (g i)

/-- The two words of an element: what party `0` adds up, and the component of party `1`. -/
def leftWord (x : Fin 3 → EVector 2 n d) (j : Fin n) : Word d := x 0 0 j + x 0 1 j
def rightWord (x : Fin 3 → EVector 2 n d) (j : Fin n) : Word d := x 1 0 j

theorem ensures_divConstA (hz : DivisionMasks d Good) (hg : Good g) {x : Fin 3 → EVector 2 n d}
    {c : Word d} (hd : ∀ i, Divides i (x i) c) :
    Ensures mode (fun i => divConstA i (x i) c) g fun out g' _ =>
      SharesA layout (fun i => (out i).1) (fun j =>
        leftQuotient true (leftWord x j) c + ((rightWord x j).sdiv c - negWord (rightWord x j)))
      ∧ SharesA layout (fun i => (out i).2) (fun j => leftRemainder true (leftWord x j) c
        + ((rightWord x j).srem c + negWord (rightWord x j) * c - c))
      ∧ Good g' := by
  obtain ⟨h, hy⟩ := yields_divConstA mode g hd
  refine .of_yields hy ⟨shares_ring ?_, shares_ring ?_, hz.afterDiv hg n⟩
  · rw [Fin.sum_univ_three]
    funext j
    change (leftQuotient true (leftWord x j) c - mask d 4 n (g 0) j)
      + ((rightWord x j).sdiv c - negWord (rightWord x j)) + mask d 3 n (g 2) j = _
    rw [hz.quotient hg]
    ring
  · rw [Fin.sum_univ_three]
    funext j
    change (leftRemainder true (leftWord x j) c - mask d 4 n (afterNext d 4 n (g 0)) j)
      + ((rightWord x j).srem c + negWord (rightWord x j) * c - c)
      + mask d 3 n (afterNext d 3 n (g 2)) j = _
    rw [hz.error hg]
    ring

/-- The two words of an element add up to it. -/
theorem words_add (hx : SharesA layout x v) (j : Fin n) : leftWord x j + rightWord x j = v j := by
  rw [← sum_eq hx, leftWord, rightWord, replicated_eq hx 0]
  change (x 0 0 j + x 2 0 j) + x 1 0 j = x 0 0 j + x 1 0 j + x 2 0 j
  ring

theorem divides (hz : DivisionMasks d Good) :
    Protocol.Divides (protocol d G) layout Good mode := fun hg hx hc =>
  ⟨_, _, funext (words_add hx), ensures_divConstA hz hg fun _ => Divides.of_safe hc _ _⟩

variable (mode) in
/-- **Three parties divide exactly where the word of party `0` moves safely**, if the words of no
element are both negative. -/
theorem div_opens_iff (hz : DivisionMasks d Good) (hg : Good g) (hx : SharesA layout x v)
    (c : Word d) (hc : 0 < c.toInt) (hv : ∀ j, 0 ≤ (v j).toInt)
    (hsign : ∀ j, ¬ ((leftWord x j).toInt < 0 ∧ (rightWord x j).toInt < 0)) :
    OpensA (protocol d G) mode (fun i => (protocol d G i).div (x i) c) g
        (fun j => BitVec.ofInt d.bits ((v j).toInt / c.toInt)) ↔
      ∀ j, MovesSafely (leftWord x j) (rightWord x j) c := by
  have hdiv := (compares mode hz.toZeroSharing).toKeepsKind.ensures_div
    (ensures_divConstA hz hg fun i => Divides.of_safe (safeDivisor_of_pos hc) i (x i))
    (Nat.zero_le _)
  rw [(correct hz.toZeroSharing).opensA_iff ownedBy_protocol (hdiv.mono fun _ _ _ h => h.1)
    fun i => (ownedBy_protocol i).div _ _, funext_iff]
  refine forall_congr' fun j => ?_
  have hone : 0 ≤ (leftWord x j).toInt ∨ 0 ≤ (rightWord x j).toInt := by
    by_contra hboth
    rw [not_or, not_le, not_le] at hboth
    exact hsign j hboth
  rw [← words_add hx j]
  exact moved_sdiv_iff d.bits_pos hc (words_add hx j ▸ hv j) hone rfl rfl

/-! ### A generator for divisions -/

/-- The channels of the division masks are equal, the others zero. -/
def PairedStreams (g : Fin 3 → Streams d) : Prop :=
  (∀ i id t, id ≠ 3 → id ≠ 4 → (g i).channel id t = 0) ∧
    ∀ t, (g 0).channel 4 t = (g 2).channel 3 t

theorem PairedStreams.mask {g : Fin 3 → Streams d} (hg : PairedStreams g) {id : ℕ} (h3 : id ≠ 3)
    (h4 : id ≠ 4) (n : ℕ) (i : Fin 3) : Replicated3pc.mask d id n (g i) = 0 := by
  rw [mask_channel]
  exact funext fun j => hg.1 i id j h3 h4

theorem PairedStreams.afterNext {g : Fin 3 → Streams d} (hg : PairedStreams g) {id : ℕ}
    (h3 : id ≠ 3) (h4 : id ≠ 4) (n : ℕ) :
    PairedStreams fun i => Replicated3pc.afterNext d id n (g i) := by
  refine ⟨fun i id' t h3' h4' => ?_, fun t => ?_⟩ <;> simp only [channel_afterNext]
  · exact hg.1 i id' _ h3' h4'
  · rw [if_neg h4.symm, if_neg h3.symm]
    exact hg.2 t

theorem divisionMasks_streams : DivisionMasks d (PairedStreams (d := d)) where
  masksA hg n := by simp only [hg.mask (by decide : 2 ≠ 3) (by decide), Finset.sum_const_zero]
  masksB hg n := by
    simp only [hg.mask (by decide : 5 ≠ 3) (by decide)]
    exact funext fun j => by simp
  afterA hg n := hg.afterNext (by decide) (by decide) n
  afterB hg n := hg.afterNext (by decide) (by decide) n
  afterDeal hg n p := by
    refine ⟨fun i id t h3 h4 => ?_, fun t => ?_⟩ <;> simp only [channel_afterDeal]
    · exact hg.1 i id t h3 h4
    · exact hg.2 t
  quotient hg n := by
    rw [mask_channel, mask_channel]
    exact funext fun j => hg.2 j
  error hg n := by
    rw [mask_channel, mask_channel]
    funext j
    simp only [channel_afterNext, if_true]
    exact hg.2 _
  afterDiv {g} hg n := by
    have hchannel : ∀ i id t, id ≠ 3 → id ≠ 4 →
        (Replicated3pc.afterDiv d n i (g i)).channel id t = (g i).channel id t := by
      intro i id t h3 h4
      fin_cases i
      · simp only [Replicated3pc.afterDiv, channel_afterNext, if_neg h4]
      · rfl
      · simp only [Replicated3pc.afterDiv, channel_afterNext, if_neg h3]
    refine ⟨fun i id t h3 h4 => (hchannel i id t h3 h4).trans (hg.1 i id t h3 h4), fun t => ?_⟩
    simp only [Replicated3pc.afterDiv, channel_afterNext, if_true]
    exact hg.2 _

/-- The division masks are `9`. -/
def pairedNines (_ : Fin 3) : Streams .int8_t :=
    ⟨fun id _ => if id = 3 ∨ id = 4 then 9 else 0, fun _ => 0⟩

theorem pairedNines_paired : PairedStreams pairedNines :=
  ⟨fun _ _ _ h3 h4 => if_neg (not_or.mpr ⟨h3, h4⟩), fun _ => rfl⟩

/-- The sharing with the components `a`, `b` and `0`. -/
def splitTwo (a b : Word d) (i : Fin 3) : EVector 2 1 d :=
  fun k => (![![a], ![b], ![0]] : Fin 3 → Vec 1 d) (layout i k)

theorem shares_splitTwo (a b : Word d) : SharesA layout (splitTwo a b) ![a + b] := by
  refine shares_of_sum (fun _ => rfl) (funext fun j => ?_)
  obtain rfl := Subsingleton.elim j 0
  exact add_zero _

/-- `107`, with the words `-20` and `127`. -/
theorem div_opens_splitTwo : OpensA (protocol .int8_t _) .rendezvous
    (fun i => (protocol .int8_t _ i).div (splitTwo (-20) 127 i) 7) pairedNines
    fun j => BitVec.ofInt DataType.int8_t.bits
    ((![-20 + 127] j : Word .int8_t).toInt / (7 : Word .int8_t).toInt) :=
  (div_opens_iff .rendezvous divisionMasks_streams pairedNines_paired (shares_splitTwo (-20) 127) 7
    (by decide) (by decide) (by decide)).mpr (by decide)

/-- `0`, with the words `-100` and `100`: divided by `100`, it opens to `2`. -/
theorem div_misses_splitTwo : ¬ OpensA (protocol .int8_t _) .rendezvous
    (fun i => (protocol .int8_t _ i).div (splitTwo (-100) 100 i) 100) pairedNines
    fun j => BitVec.ofInt DataType.int8_t.bits
    ((![-100 + 100] j : Word .int8_t).toInt / (100 : Word .int8_t).toInt) := by
  have hP : Protocol.Correct (protocol .int8_t _) layout 0 (fun _ => True) PairedStreams
    .rendezvous :=
    correct divisionMasks_streams.toZeroSharing
  have hdiv := (compares .rendezvous divisionMasks_streams.toZeroSharing).toKeepsKind.ensures_div
    (ensures_divConstA divisionMasks_streams pairedNines_paired fun i =>
      Divides.of_safe (c := 100) (by decide) i (splitTwo (-100) 100 i)) (Nat.zero_le _)
  rw [hP.opensA_iff ownedBy_protocol (hdiv.mono fun _ _ _ h => h.1)
    fun i => (ownedBy_protocol i).div _ _]
  exact fun h => absurd (congrFun h 0) (by decide)

end Tva.Replicated3pc
