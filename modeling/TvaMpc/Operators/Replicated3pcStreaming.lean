import TvaMpc.Operators.StreamingCorrect
import TvaMpc.Protocols.Replicated3pcBits

/-!
# Operators/Replicated3pcStreaming — three parties label session windows
-/

namespace Tva.Replicated3pc

open Machinery Operators

variable {d : DataType} {G : Type} [RandomGenerator G d] {mode : SendMode}
variable {Good : (Fin 3 → G) → Prop} {g : Fin 3 → G}

/-! ## Gap sessions -/

/-- **The gap session window separates the sessions**, in every interleaving of the three parties,
in a table sorted by keys and time.  What the window column held does not matter, nor what is read
past the end of the one-element vector. -/
theorem gapSessionWindow_separates (hz : ZeroMasks d Good) (hg : Good g) (k : ℕ) (keys : List ℕ)
    (timestampA timestampB windowId : ℕ) (gap : Word d) (pastEnd : Fin 3 → Fin 2 → Word d)
    (hkeys : keys ≠ []) (hwindow : windowId ∉ keys) (hwindowB : timestampB ≠ windowId)
    (M : Fin 3 → Memory 2 (2 ^ k) d) (V : Column → Vec (2 ^ k) d)
    (hM : Memory.Shares layout (· ∈ .a timestampA :: .b timestampB :: keys.map Column.b) M V)
    (htime : V (.a timestampA) = V (.b timestampB)) (hgap : GapTimes (V (.b timestampB)) gap)
    (hcontiguous : KeysContiguous keys V)
    (hsorted : ∀ r s, r ≤ s → sameKeys keys V r s →
      (V (.b timestampB) r).toInt ≤ (V (.b timestampB) s).toInt) :
    Finishes mode (fun i =>
        (gapSessionWindow (protocol d G i) keys timestampA timestampB windowId gap
        (pastEnd i) (M i)).run (g i))
      fun out _ => ∃ z : Vec (2 ^ k) d, SharesB layout (fun i => (out i).1 (.b windowId)) z ∧
        SeparatesSessions keys V (V (.b timestampB)) gap z := by
  have hP : Protocol.CorrectBits (protocol d G) layout 0 (fun _ => True) Good mode := correctBits hz
  have hwin := ensures_gapSessionWindow trivial hP hg rfl hM hkeys
    (fun key hk => .tail _ (.tail _ (List.mem_map_of_mem hk))) hwindow List.mem_cons_self
    (.tail _ List.mem_cons_self) hwindowB gap pastEnd (roomForRounds_zero _) (Nat.zero_le _)
  rw [htime] at hwin
  obtain ⟨hmarking, hsuffice⟩ := hcontiguous.marksSuffice hgap hsorted
  have hreach : reach back (linked keys V fun _ => true) k = groupRows keys V true :=
    funext fun r => reach_groupRows hcontiguous rfl true r
  have hlabels := (labels_iff hmarking (fun s => lt_of_lt_of_le (by norm_num) (hgap.nonneg s))
    fun r => hreach ▸ isGreatest_labels (V (.b timestampB)) (gapStart (V (.b timestampB)) gap)
      (linked keys V fun _ => true) r).mpr hsuffice
  have hseparates : Ensures mode (fun i => gapSessionWindow (protocol d G i) keys timestampA
      timestampB windowId gap (pastEnd i) (M i)) g fun M' _ _ =>
      ∃ z : Vec (2 ^ k) d, SharesB layout (fun i => M' i (.b windowId)) z ∧
        SeparatesSessions keys V (V (.b timestampB)) gap z := by
    refine hwin.mono fun M' g' _ h => ⟨_, h.1 _ (.inl rfl), fun i j hij hsame => ?_⟩
    rw [Function.update_self, ← hcontiguous.unbroken_iff hsame, ← hlabels i j hij.le hsame,
      BitVec.toInt_inj]
  exact hseparates.finishes fun i =>
    ownedBy_gapSessionWindow (ownedBy_protocol i) _ _ _ _ _ _ _

/-- Two rows of one group, with a gap between them. -/
def twoSessions : Column → Vec 2 .int8_t
  | .b 0 => ![4, 4]
  | .b _ => ![10, 20]
  | .a _ => ![10, 20]

theorem gapSessionWindow_separates_two : Finishes .rendezvous
    (fun i => (gapSessionWindow (protocol .int8_t (Streams .int8_t) i) [0] 0 1 2 5
      (fun _ => 77) (fun c => plain (twoSessions c) i)).run (zeroStreams .int8_t i))
    fun out _ => ∃ z : Vec 2 .int8_t, SharesB layout (fun i => (out i).1 (.b 2)) z ∧
      SeparatesSessions [0] twoSessions (twoSessions (.b 1)) 5 z :=
  gapSessionWindow_separates zeroMasks_streams zeroStreams_zero 1 [0] 0 1 2 5 _ (by decide)
    (by decide) (by decide) _ _ (fun c _ => shares_plain c (twoSessions c)) rfl
    ⟨by decide, by decide, by decide⟩ (by decide) (by decide)

/-! ## Threshold sessions -/

/-- What the extension of the first mark shares: the components of the window column are negated one
by one. -/
def initialMark {n : ℕ} (M : Fin 3 → Memory 2 n d) (windowId : ℕ) (r : Fin n) : Word d :=
  -M 0 (.b windowId) 0 r ^^^ -M 1 (.b windowId) 0 r ^^^ -M 2 (.b windowId) 0 r

omit [RandomGenerator G d] in
theorem shares_initialMark {n : ℕ} {M : Fin 3 → Memory 2 n d} {windowId : ℕ} {w : Vec n d}
    (h : SharesB layout (fun i => M i (.b windowId)) w) (r : Fin n) :
    SharesB layout (fun i k (_ : Fin 1) => -M i (.b windowId) k r) fun _ =>
    initialMark M windowId r :=
  sharesB_of_xor (fun i => funext fun _ =>
    congrArg (fun x : Vec n d => -x r) (replicatedB_eq h i)) rfl

section Threshold

variable {k : ℕ} {keys : List ℕ} {functionRes timestampB windowId : ℕ} {threshold : Word d}
variable {M : Fin 3 → Memory 2 (2 ^ k) d} {V : Column → Vec (2 ^ k) d}

/-- What the window column must have held in its first row, and which rows must not follow each
other. -/
def ThresholdRight (keys : List ℕ) (functionRes timestampB windowId : ℕ) (threshold : Word d)
    (M : Fin 3 → Memory 2 (2 ^ k) d) (V : Column → Vec (2 ^ k) d) : Prop :=
  FirstRight (threshold.slt (V (.b functionRes) 0)) (initialMark M windowId 0)
      (V (.b timestampB) 0) ∧
    ∀ m s : Fin (2 ^ k), (s : ℕ) = m + 1 → ¬ sameKeys keys V m s →
      threshold.slt (V (.b functionRes) s) = true → ¬ threshold.slt (V (.b functionRes) m) = true

instance : Decidable (ThresholdRight keys functionRes timestampB windowId threshold M V) :=
  inferInstanceAs (Decidable (_ ∧ _))

theorem ensures_labelsBlocks (hz : ZeroMasks d Good) (hg : Good g) (hkeys : keys ≠ [])
    (hwindow : windowId ∉ keys) (hwindowB : timestampB ≠ windowId)
    (hM : Memory.Shares layout
      (· ∈ .b functionRes :: .b timestampB :: .b windowId :: keys.map Column.b) M V)
    (hnonneg : ∀ r, 0 ≤ (V (.b timestampB) r).toInt) (hcontiguous : KeysContiguous keys V)
    (hsorted : ∀ r s, r ≤ s → sameKeys keys V r s →
      (V (.b timestampB) r).toInt ≤ (V (.b timestampB) s).toInt) :
    Ensures mode (fun i => thresholdSessionWindow (protocol d G i) keys functionRes timestampB
        windowId threshold (M i)) g fun M' _ _ => ∃ z : Vec (2 ^ k) d,
      SharesB layout (fun i => M' i (.b windowId)) z ∧
        (LabelsBlocks keys V (fun r => threshold.slt (V (.b functionRes) r)) (V (.b timestampB)) z ↔
          ThresholdRight keys functionRes timestampB windowId threshold M V) := by
  have hP : Protocol.CorrectBits (protocol d G) layout 0 (fun _ => True) Good mode := correctBits hz
  have hpos : 0 < 2 ^ k := Nat.two_pow_pos k
  have hinitial := shares_initialMark (hM (.b windowId) (.tail _ (.tail _ List.mem_cons_self)))
    (rowZero hpos)
  have hwin := ensures_thresholdSessionWindow trivial hP.keepsBits hg rfl hpos hM hkeys
    (fun key hk => .tail _ (.tail _ (.tail _ (List.mem_map_of_mem hk)))) hwindow List.mem_cons_self
    (.tail _ List.mem_cons_self) hwindowB threshold hinitial (roomForRounds_zero _) (Nat.zero_le _)
  exact hwin.mono fun M' g' _ h =>
    ⟨_, h.1 _ (.inl rfl), by
      rw [Function.update_self]
      exact labelsBlocks_iff rfl hpos hcontiguous hnonneg hsorted⟩

/-- The labels are shared by what the window column holds. -/
theorem labelsBlocks_of_shares {x : Fin 3 → EVector 2 (2 ^ k) d} {time z : Vec (2 ^ k) d}
    {b : Fin (2 ^ k) → Bool} {c : Prop} (hx : SharesB layout x z)
    (hc : LabelsBlocks keys V b time z ↔ c) :
    (∃ z, SharesB layout x z ∧ LabelsBlocks keys V b time z) ↔ c :=
  ⟨fun ⟨_, hx', hlab⟩ => hc.mp (hx.unique hx' ▸ hlab), fun h => ⟨z, hx, hc.mpr h⟩⟩

end Threshold

/-- **The threshold session window labels the blocks above the threshold** exactly if two things are
so: the window column held in its first row what gives the right label there, as no mark is assigned
to it; and no row above the threshold follows one with other keys that is above it, too, as the
marks look at the neighbour whatever its keys. -/
theorem thresholdSessionWindow_labels_iff (hz : ZeroMasks d Good) (hg : Good g) (k : ℕ)
    (keys : List ℕ) (functionRes timestampB windowId : ℕ) (threshold : Word d) (hkeys : keys ≠ [])
    (hwindow : windowId ∉ keys) (hwindowB : timestampB ≠ windowId)
    (M : Fin 3 → Memory 2 (2 ^ k) d) (V : Column → Vec (2 ^ k) d)
    (hM : Memory.Shares layout
      (· ∈ .b functionRes :: .b timestampB :: .b windowId :: keys.map Column.b) M V)
    (hnonneg : ∀ r, 0 ≤ (V (.b timestampB) r).toInt) (hcontiguous : KeysContiguous keys V)
    (hsorted : ∀ r s, r ≤ s → sameKeys keys V r s →
      (V (.b timestampB) r).toInt ≤ (V (.b timestampB) s).toInt) :
    Finishes mode (fun i => (thresholdSessionWindow (protocol d G i) keys functionRes timestampB
        windowId threshold (M i)).run (g i))
      (fun out _ => ∃ z : Vec (2 ^ k) d, SharesB layout (fun i => (out i).1 (.b windowId)) z ∧
        LabelsBlocks keys V (fun r => threshold.slt (V (.b functionRes) r)) (V (.b timestampB)) z) ↔
      ThresholdRight keys functionRes timestampB windowId threshold M V :=
  (ensures_labelsBlocks hz hg hkeys hwindow hwindowB hM hnonneg hcontiguous hsorted).finishes_iff
    (fun i => ownedBy_thresholdSessionWindow (ownedBy_protocol i) _ _ _ _ _ _)
    fun _ _ ⟨_, hx, hc⟩ => labelsBlocks_of_shares hx hc

/-- Two rows of one group, the first of them above the threshold, and a window column of zeros. -/
def firstAbove : Column → Vec 2 .int8_t
  | .b 0 => ![4, 4]
  | .b 1 => ![9, 1]
  | .b 2 => ![10, 20]
  | _ => 0

/-- The first row is labelled `-1` there. -/
theorem thresholdSessionWindow_misses_first : ¬ Finishes .rendezvous
    (fun i => (thresholdSessionWindow (protocol .int8_t (Streams .int8_t) i) [0] 1 2 3 5
      (fun c => plain (firstAbove c) i)).run (zeroStreams .int8_t i))
    fun out _ => ∃ z : Vec 2 .int8_t, SharesB layout (fun i => (out i).1 (.b 3)) z ∧
      LabelsBlocks [0] firstAbove (fun r => (5 : Word .int8_t).slt (firstAbove (.b 1) r))
        (firstAbove (.b 2)) z := by
  have hlabels : Ensures .rendezvous (fun i => thresholdSessionWindow (protocol .int8_t
      (Streams .int8_t) i) [0] 1 2 3 5 (fun c => plain (firstAbove c) i)) (zeroStreams .int8_t)
      fun out _ _ => ∃ z : Vec 2 .int8_t, SharesB layout (fun i => out i (.b 3)) z ∧
        (LabelsBlocks [0] firstAbove (fun r => (5 : Word .int8_t).slt (firstAbove (.b 1) r))
          (firstAbove (.b 2)) z ↔ ThresholdRight (k := 1) [0] 1 2 3 5
            (fun i c => plain (firstAbove c) i) firstAbove) :=
    ensures_labelsBlocks (k := 1) (M := fun i c => plain (firstAbove c) i) (V := firstAbove)
      zeroMasks_streams zeroStreams_zero (by decide) (by decide) (by decide)
      (fun c _ => shares_plain c (firstAbove c)) (by decide) (by decide) (by decide)
  have hiff : Finishes .rendezvous (fun i => (thresholdSessionWindow (protocol .int8_t
      (Streams .int8_t) i) [0] 1 2 3 5 (fun c => plain (firstAbove c) i)).run
        (zeroStreams .int8_t i))
      (fun out _ => ∃ z : Vec 2 .int8_t, SharesB layout (fun i => (out i).1 (.b 3)) z ∧
        LabelsBlocks [0] firstAbove (fun r => (5 : Word .int8_t).slt (firstAbove (.b 1) r))
          (firstAbove (.b 2)) z) ↔
      ThresholdRight (k := 1) [0] 1 2 3 5 (fun i c => plain (firstAbove c) i) firstAbove :=
    hlabels.finishes_iff
      (fun i => ownedBy_thresholdSessionWindow (ownedBy_protocol i) _ _ _ _ _ _)
      fun _ _ ⟨_, hx, hc⟩ => labelsBlocks_of_shares (k := 1) hx hc
  exact fun h => absurd (hiff.mp h) (by decide)

/-- The first row below the threshold, the second above. -/
def secondAbove : Column → Vec 2 .int8_t
  | .b 0 => ![4, 4]
  | .b 1 => ![1, 9]
  | .b 2 => ![10, 20]
  | _ => 0

theorem thresholdSessionWindow_labels_second : Finishes .rendezvous
    (fun i => (thresholdSessionWindow (protocol .int8_t (Streams .int8_t) i) [0] 1 2 3 5
      (fun c => plain (secondAbove c) i)).run (zeroStreams .int8_t i))
    (fun out _ => ∃ z : Vec 2 .int8_t, SharesB layout (fun i => (out i).1 (.b 3)) z ∧
      LabelsBlocks [0] secondAbove (fun r => (5 : Word .int8_t).slt (secondAbove (.b 1) r))
        (secondAbove (.b 2)) z) :=
  (thresholdSessionWindow_labels_iff zeroMasks_streams zeroStreams_zero 1 [0] 1 2 3 5 (by decide)
    (by decide) (by decide) _ _ (fun c _ => shares_plain c (secondAbove c)) (by decide) (by decide)
    (by decide)).mpr (by decide)

end Tva.Replicated3pc
