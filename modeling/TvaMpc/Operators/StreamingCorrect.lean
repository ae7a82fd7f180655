import TvaMpc.Machinery.Sessions
import TvaMpc.Operators.AggregationCorrect
import TvaMpc.Operators.Streaming
import Mathlib.Data.Int.ConditionallyCompleteOrder
import Mathlib.Data.Nat.SuccPred

/-!
# Operators/StreamingCorrect — session windows are scans of marks

The windows hold the scan of the marked timestamps (`ensures_gapSessionWindow`,
`ensures_thresholdSessionWindow`).  What that means for the sessions is in Machinery/Sessions; here
the marks are connected to it, for groups of consecutive rows (`labels_gap_iff`) and for any table
whose timestamps do not decrease.
-/

namespace Tva.Operators

open Machinery

variable {N ρ n least : ℕ} {d : DataType} {G : Type}

/-! ## The first row and the others -/

/-- The first row. -/
def rowZero (hn : 0 < n) : Fin n := ⟨0, hn⟩

/-- Where the mark of a row comes from: the first row has its own, the others are compared with the
row before. -/
def startPlace (j : Fin n) : Fin 1 ⊕ Fin (n - 1) :=
  if h : (j : ℕ) = 0 then .inl 0 else .inr ⟨j - 1, by omega⟩

theorem write_secondRows (hn : 0 < n) (z : Vec (n - 1) d) (x : Vec n d) :
    (secondRows n 1).write (fun e => if h : e < n - 1 then z ⟨e, h⟩ else 0) x
      = fun j => Sum.elim (fun _ => x (rowZero hn)) z (startPlace j) := by
  have hshows : (secondRows n 1).Shows (secondRow : Fin (n - 1) → Fin n) := shows_secondRows hn hn
  funext j
  rw [startPlace]
  split
  · rename_i hj
    obtain rfl : j = rowZero hn := Fin.ext hj
    rw [Sum.elim_inl]
    exact hshows.write_of_ne _ _ fun k hk => absurd (congrArg Fin.val hk) (Nat.succ_ne_zero _)
  · rename_i hj
    have hlt : (j : ℕ) - 1 < n - 1 := by omega
    have hk : (secondRow ⟨(j : ℕ) - 1, hlt⟩ : Fin n) = j :=
      Fin.ext (show (j : ℕ) - 1 + 1 = j by omega)
    have hwrite := hshows.write secondRow_injective
      (fun e => if h : e < n - 1 then z ⟨e, h⟩ else 0) x ⟨(j : ℕ) - 1, hlt⟩
    rw [hk] at hwrite
    rw [hwrite, Sum.elim_inr]
    exact dif_pos _

/-- The first assignment reaches the first row; what it leaves in the second one is overwritten. -/
theorem markFirst_zero (hn : 0 < n) (one : EVector ρ 1 d) (pastEnd : Fin ρ → Word d)
    (x : EVector ρ n d) (k : Fin ρ) : markFirst one pastEnd x k (rowZero hn) =
      mask 1 (one k) 0 := by
  have hshows : ((VectorData.vectorData n).simpleSubsetReference 0 1 1).Shows
      (fun j : Fin (min n 2) => (⟨j, lt_of_lt_of_le j.isLt (min_le_left _ _)⟩ : Fin n)) := by
    refine ⟨?_, fun j => ?_⟩
    · rw [VectorData.simpleSubsetReference, VectorData.size, VectorData.size]
      norm_num
    · rw [VectorData.simpleSubsetReference, VectorData.index, VectorData.index]
      norm_num
  have hpos : 0 < min n 2 := lt_min hn two_pos
  exact (hshows.write (fun _ _ h => Fin.ext (Fin.mk.inj_iff.mp h)) _ _ ⟨0, hpos⟩).trans
    (dif_pos one_pos)

/-! ## Differences of times -/

/-- **The sign of the difference** says whether the second time is more than the gap later, where
nothing overflows. -/
theorem msb_gap {a g b : Word d} (ha : 0 ≤ a.toInt) (hg : 0 ≤ g.toInt) (hb : 0 ≤ b.toInt)
    (hsum : a.toInt + g.toInt < 2 ^ (d.bits - 1)) :
    (a + g - b).msb = true ↔ a.toInt + g.toInt < b.toInt := by
  have hadd : (a + g).toInt = a.toInt + g.toInt := by
    refine BitVec.toInt_add_of_not_saddOverflow fun h => ?_
    rw [BitVec.saddOverflow, Bool.or_eq_true, decide_eq_true_iff, decide_eq_true_iff] at h
    omega
  have hsub : (a + g - b).toInt = a.toInt + g.toInt - b.toInt := by
    rw [← hadd]
    refine BitVec.toInt_sub_of_not_ssubOverflow fun h => ?_
    rw [BitVec.ssubOverflow, Bool.or_eq_true, decide_eq_true_iff, decide_eq_true_iff, hadd] at h
    have hlt := b.toInt_lt
    omega
  rw [BitVec.msb_eq_toInt, decide_eq_true_iff, hsub]
  exact sub_neg

theorem toInt_neg_one : (-1 : Word d).toInt = -1 := by
  cases d <;> decide

/-! ## The windows -/

section Windows

variable [NeZero ρ] {layout : Fin N → Fin ρ → Fin N} {P : Fin N → Protocol N ρ d G}
variable {dataParty : Fin N → Prop} {Good : (Fin N → G) → Prop} {mode : SendMode}
variable {g : Fin N → G} {Live : Column → Prop} {M : Fin N → Memory ρ n d} {V : Column → Vec n d}
variable {keys : List ℕ} {timestampA timestampB functionRes windowId : ℕ}

/-- A repeated element is shared as it was. -/
theorem shares_repeatedElement {R : CommRing (Word d)} {x : Fin N → EVector ρ 1 d} {w : Word d}
    (hx : @Shares (Word d) R N ρ 1 _ layout x fun _ => w) :
    @Shares (Word d) R N ρ n _ layout (fun i => repeatedElement n (x i)) fun _ => w :=
  shares_read VectorData.shows_repeated hx

/-- The rows compared with the one before. -/
theorem shares_rows {x : Fin N → EVector ρ n d} {v : Vec n d} {R : CommRing (Word d)} (hn : 0 < n)
    (hx : @Shares (Word d) R N ρ n _ layout x v) :
    @Shares (Word d) R N ρ (n - 1) _ layout (fun i k => (firstRows n 1).read (n - 1) (x i k))
        (fun k => v (firstRow k)) ∧
      @Shares (Word d) R N ρ (n - 1) _ layout (fun i k => (secondRows n 1).read (n - 1) (x i k))
        fun k => v (secondRow k) :=
  ⟨shares_read (shows_firstRows hn) hx, shares_read (shows_secondRows hn hn) hx⟩

/-- Marks that are bits, in the first row and in the others. -/
theorem sharesBit_marks (hn : 0 < n) {x : Fin N → EVector ρ n d} {z : Fin N → EVector ρ (n - 1) d}
    {y : Fin N → EVector ρ 1 d} {a : Bool} {c : Fin (n - 1) → Bool}
    (hxy : ∀ i k, x i k (rowZero hn) = y i k 0) (hy : SharesBit layout y fun _ => a)
    (hz : SharesBit layout z c) :
    SharesBit layout (fun i k => (secondRows n 1).write
        (fun e => if h : e < n - 1 then z i k ⟨e, h⟩ else 0) (x i k))
      fun j => Sum.elim (fun _ => a) c (startPlace j) := by
  have hzero : ∀ i k, (fun _ : Fin 1 => x i k (rowZero hn)) = y i k := fun i k =>
    funext fun j => (hxy i k).trans (congrArg _ (Subsingleton.elim _ _))
  simp only [write_secondRows hn, hzero]
  exact hy.elim hz startPlace

/-- Which rows `mark_gap_session` marks: the first one, and those after a gap, whatever their
keys. -/
def gapStart (time : Vec n d) (gap : Word d) (j : Fin n) : Bool :=
  Sum.elim (fun _ : Fin 1 => true)
    (fun k : Fin (n - 1) => (time (firstRow k) + gap - time (secondRow k)).msb) (startPlace j)

theorem ensures_markGapSession [NeZero N] (hdata : dataParty 0)
    (hP : Protocol.KeepsBits P layout least dataParty Good mode) (hg : Good g) (hn : 0 < n)
    (hM : Memory.Shares layout Live M V) (htime : Live (.a timestampA)) (gap : Word d)
    (pastEnd : Fin N → Fin ρ → Word d) (hrows : least ≤ n - 1) :
    Ensures mode (fun i => markGapSession (P i) timestampA windowId gap (pastEnd i) (M i)) g
      fun M' g' _ => (SharesBit layout (fun i => M' i (.b windowId))
          (gapStart (V (.a timestampA)) gap) ∧
        ∀ c ≠ Column.b windowId, ∀ i, M' i c = M i c) ∧ Good g' := by
  refine (hP.secretShareB hdata hg).bind fun one g₁ _ hone => ?_
  refine (hP.secretShareA hdata hone.2).bind fun gapVec g₂ _ hgap => ?_
  have hcol : Column.a timestampA ≠ .b windowId := nofun
  obtain ⟨hfirst, hsecond⟩ := shares_rows hn (hM _ htime)
  have hdiff := (hfirst.add (shares_repeatedElement (n := n - 1) hgap.1)).sub hsecond
  simp only [hP.addA, hP.subA, Memory.read, Function.update_of_ne hcol]
  refine (hP.ensures_a2b hgap.2 hdiff hrows).bind fun z g₃ _ hz => ?_
  refine Ensures.pure ⟨⟨?_, fun c hc i => ?_⟩, hz.2⟩
  · have hrest := hz.1.mapBit (c := fun a j => (a j).msb) ltz_xor fun a => funext (ltz_apply a)
    have hbit : (1 : Word d).getLsbD 0 = true := by
      have h1 : (1 : Word d) = bit d true := rfl
      rw [h1, getLsbD_bit]
      rfl
    have hstart : SharesBit layout (fun i k => mask 1 (one i k)) fun _ => true :=
      hbit ▸ hone.1.mapBit (mask_xor 1) mask_one
    simp only [Memory.write, Function.update_self, hP.ltz]
    exact sharesBit_marks hn (fun i k => markFirst_zero hn _ _ _ k) hstart hrest
  · exact (Memory.write_of_ne hc).trans (Function.update_of_ne hc ..)

/-- What the rows hold before the maximum: the timestamps where `e` has ones, `-1` where it has
zeros. -/
def marks (e time : Vec n d) : Vec n d := (~~~e &&& fun _ => -1) ^^^ (e &&& time)

theorem marks_apply (e time : Vec n d) (j : Fin n) :
    marks e time j = (~~~e j &&& -1) ^^^ (e j &&& time j) := rfl

theorem marks_bits (s : Fin n → Bool) (time : Vec n d) :
    marks (fun j => if s j then BitVec.allOnes _ else 0) time = fun j =>
      if s j then time j else -1 :=
  choose_extended s (fun _ => -1) time

/-- **The marks are spread by a scan** for the maximum, over linked rows backwards. -/
theorem ensures_spreadMarks [NeZero N] (hdata : dataParty 0)
    (hP : Protocol.KeepsBits P layout least dataParty Good mode) (hg : Good g) {k : ℕ}
    (hn : n = 2 ^ k) (hM : Memory.Shares layout Live M V) (hkeys : keys ≠ [])
    (hliveKeys : ∀ key ∈ keys, Live (.b key)) (hwindow : windowId ∉ keys)
    (htime : Live (.b timestampB)) {e : Vec n d}
    (he : SharesB layout (fun i k => extendLsb (M i (.b windowId) k)) e)
    {sel : Option (Fin N → EVector ρ n d)} {b : Fin n → Bool} (hsel : Selects layout sel b)
    (hroom : RoomForRounds least n) (hrows : least ≤ n) :
    Ensures mode (fun i => spreadMarks (P i) keys timestampB windowId (sel.map (· i)) (M i)) g
      fun M' g' _ => Memory.Shares layout (fun c => c = .b windowId ∨ Live c) M'
        (Function.update V (.b windowId)
          (scan (extremum false) (partners true k) (linked keys V b) k
          (marks e (V (.b timestampB))))) ∧ Good g' := by
  refine (hP.secretShareB hdata hg).bind fun one g₁ _ hone => ?_
  refine (ensures_chooseB hP.toCorrect hone.2 he (shares_repeatedElement hone.1)
    (hM _ htime) hrows).bind fun z g₂ _ hz => ?_
  have hmarks : SharesB layout z (marks e (V (.b timestampB))) := hz.1
  have hM' := hM.assign (c := .b windowId) hmarks
  have hkey : ∀ key ∈ keys, Column.b key ≠ .b windowId := fun key hk h =>
    hwindow (Column.b.inj h ▸ hk)
  have hdistinct : Distinct .bSharedVector keys [windowId] [windowId] := by
    refine ⟨List.cons_ne_nil _ _, rfl, List.nodup_singleton _, fun p hp => .inl ?_⟩
    obtain rfl := List.mem_singleton.mp hp
    rfl
  have hlive : ∀ v ∈ [windowId], Column.b v = .b windowId ∨ Live (.b v) := fun v hv =>
    .inl (congrArg _ (List.mem_singleton.mp hv))
  have hagg := ensures_oddEvenAggregation_bits hdata hP (combines_max hP false) hz.2 hM' hn hkeys
    (fun key hk => .inr (hliveKeys key hk)) hlive hdistinct
    (fun _ _ _ x => extremum_self false x) true hsel hroom
  refine hagg.mono fun M' g' _ h => ?_
  obtain ⟨⟨V', hV', hscan, hother⟩, hg'⟩ := h
  have hlinks : linked keys (Function.update V (.b windowId) (marks e (V (.b timestampB)))) b
      = linked keys V b := linked_congr fun key hk => Function.update_of_ne (hkey key hk) ..
  have hwin : V' (.b windowId) = scan (extremum false) (partners true k) (linked keys V b) k
      (marks e (V (.b timestampB))) := by
    refine (hscan (windowId, windowId) (by simp)).trans ?_
    change scan _ _ _ k (Function.update V (.b windowId) _ (.b windowId)) = _
    rw [Function.update_self]
    congr 1
  refine ⟨fun c hc => ?_, hg'⟩
  by_cases he : c = .b windowId
  · subst he
    rw [Function.update_self, ← hwin]
    exact hV' _ (.inl (.inl rfl))
  · rw [Function.update_of_ne he]
    have hc' := hV' c (.inl hc)
    rwa [hother c fun h => he (List.mem_singleton.mp h), Function.update_of_ne he] at hc'

/-- **The gap session window** holds the latest marked timestamp that is linked. -/
theorem ensures_gapSessionWindow_bits [NeZero N] (hdata : dataParty 0)
    (hP : Protocol.KeepsBits P layout least dataParty Good mode) (hg : Good g) {k : ℕ}
    (hn : n = 2 ^ k) (hM : Memory.Shares layout Live M V) (hkeys : keys ≠ [])
    (hliveKeys : ∀ key ∈ keys, Live (.b key))
    (hwindow : windowId ∉ keys) (hliveA : Live (.a timestampA)) (hliveB : Live (.b timestampB))
    (hwindowB : timestampB ≠ windowId) (gap : Word d) (pastEnd : Fin N → Fin ρ → Word d)
    (hroom : RoomForRounds least n) (hrows : least ≤ n - 1) :
    Ensures mode (fun i =>
        gapSessionWindow (P i) keys timestampA timestampB windowId gap (pastEnd i)
        (M i)) g fun M' g' _ => Memory.Shares layout (fun c => c = .b windowId ∨ Live c) M'
        (Function.update V (.b windowId) (scan (extremum false) (partners true k)
          (linked keys V fun _ => true) k fun j =>
            if gapStart (V (.a timestampA)) gap j then V (.b timestampB) j else -1)) ∧ Good g' := by
  have hpos : 0 < n := hn ▸ Nat.two_pow_pos k
  refine (ensures_markGapSession hdata hP hg hpos hM hliveA gap pastEnd hrows).bind
    fun M' g₁ _ h => ?_
  obtain ⟨⟨hstart, hother⟩, hg₁⟩ := h
  have hM' : Memory.Shares layout (fun c => Live c ∧ c ≠ .b windowId) M' V := by
    rintro c ⟨hc, hne⟩
    simp only [hother c hne]
    exact hM c hc
  have hsel : Selects layout (none : Option (Fin N → EVector ρ n d)) fun _ => true := fun _ => rfl
  rw [← marks_bits]
  refine (ensures_spreadMarks hdata hP hg₁ hn hM' hkeys
    (fun key hk => ⟨hliveKeys key hk, fun h => hwindow (Column.b.inj h ▸ hk)⟩) hwindow
    ⟨hliveB, fun h => hwindowB (Column.b.inj h)⟩ hstart.extendLsb hsel hroom (by omega)).mono
      fun M'' g'' _ h => ⟨fun c hc => h.1 c ?_, h.2⟩
  exact or_iff_not_imp_left.mpr fun hne => ⟨hc.resolve_left hne, hne⟩

/-- With a protocol that sets bits, too. -/
theorem ensures_gapSessionWindow [NeZero N] (hdata : dataParty 0)
    (hP : Protocol.CorrectBits P layout least dataParty Good mode) (hg : Good g) {k : ℕ}
    (hn : n = 2 ^ k) (hM : Memory.Shares layout Live M V) (hkeys : keys ≠ [])
    (hliveKeys : ∀ key ∈ keys, Live (.b key))
    (hwindow : windowId ∉ keys) (hliveA : Live (.a timestampA)) (hliveB : Live (.b timestampB))
    (hwindowB : timestampB ≠ windowId) (gap : Word d) (pastEnd : Fin N → Fin ρ → Word d)
    (hroom : RoomForRounds least n) (hrows : least ≤ n - 1) :
    Ensures mode (fun i =>
        gapSessionWindow (P i) keys timestampA timestampB windowId gap (pastEnd i)
        (M i)) g fun M' g' _ => Memory.Shares layout (fun c => c = .b windowId ∨ Live c) M'
        (Function.update V (.b windowId) (scan (extremum false) (partners true k)
          (linked keys V fun _ => true) k fun j =>
            if gapStart (V (.a timestampA)) gap j then V (.b timestampB) j else -1)) ∧ Good g' :=
  ensures_gapSessionWindow_bits hdata hP.keepsBits hg hn hM hkeys hliveKeys hwindow hliveA hliveB
    hwindowB gap pastEnd hroom hrows

/-- Which rows after the first one `mark_threshold_session` marks: those above the threshold, after
a row that is not. -/
def thresholdStart (b : Fin n → Bool) (k : Fin (n - 1)) : Bool :=
  b (secondRow k) && (b (secondRow k) ^^ b (firstRow k))

/-- The extended marks: the first row keeps what the window column held. -/
def thresholdMarks (b : Fin n → Bool) (initial : Word d) (j : Fin n) : Word d :=
  Sum.elim (fun _ : Fin 1 => initial)
    (fun k => if thresholdStart b k then BitVec.allOnes d.bits else 0) (startPlace j)

theorem ensures_markThresholdSession [NeZero N] (hdata : dataParty 0)
    (hP : Protocol.KeepsBits P layout least dataParty Good mode) (hg : Good g) (hn : 0 < n)
    (hM : Memory.Shares layout Live M V) (hlive : Live (.b functionRes)) (threshold : Word d)
    {initial : Word d} (hinitial : SharesB layout
      (fun i k (_ : Fin 1) => -M i (.b windowId) k (rowZero hn)) fun _ => initial)
    (hrows : least ≤ n - 1) :
    Ensures mode (fun i => markThresholdSession (P i) functionRes windowId threshold (M i)) g
      fun r g' _ => (SharesBit layout (fun i => (r i).1)
          (fun j => threshold.slt (V (.b functionRes) j)) ∧
        SharesB layout (fun i k => extendLsb ((r i).2 (.b windowId) k))
          (thresholdMarks (fun j => threshold.slt (V (.b functionRes) j)) initial) ∧
        ∀ c ≠ Column.b windowId, ∀ i, (r i).2 c = M i c) ∧ Good g' := by
  refine (hP.secretShareB hdata hg).bind fun thr g₁ _ hthr => ?_
  refine (hP.ensures_gt hthr.2 (hM _ hlive) (shares_repeatedElement hthr.1) (by omega)).bind
    fun potential g₂ _ hpot => ?_
  have hviews : ∀ {view : VectorData} {p : Fin (n - 1) → Fin n}, view.Shows p →
      SharesBit layout (fun i k => view.read (n - 1) (potential i k))
        fun k => threshold.slt (V (.b functionRes) (p k)) := fun {view p} h => by
    simp only [h.read]
    exact hpot.1.comp p
  have hsecond := hviews (shows_secondRows hn hn)
  have hdiff := hsecond.xor (hviews (shows_firstRows hn))
  simp only [hP.xorB]
  refine (hP.andK hpot.2 hsecond hdiff hrows).bind fun z g₃ _ hz => ?_
  refine Ensures.pure ⟨⟨hpot.1, ?_, fun c hc i => Memory.write_of_ne hc⟩, hz.2⟩
  have hextend : ∀ i k, extendLsb ((M i).write ⟨.b windowId, secondRows n 1⟩ (z i) (.b windowId) k)
      = fun j => Sum.elim (fun _ : Fin 1 => -M i (.b windowId) k (rowZero hn)) (extendLsb (z i k))
        (startPlace j) := by
    intro i k
    rw [Memory.write, Function.update_self, write_secondRows hn]
    funext j
    rw [extendLsb]
    cases startPlace j <;> rfl
  simp only [hextend]
  exact @Shares.elim (Word d) (boolRing d) N ρ 1 (n - 1) _ layout _ _ n _ _ hinitial
    hz.1.extendLsb startPlace

/-- **The threshold session window** holds the latest marked timestamp that is linked, over rows
above the threshold. -/
theorem ensures_thresholdSessionWindow [NeZero N] (hdata : dataParty 0)
    (hP : Protocol.KeepsBits P layout least dataParty Good mode) (hg : Good g) {k : ℕ}
    (hn : n = 2 ^ k) (hpos : 0 < n) (hM : Memory.Shares layout Live M V) (hkeys : keys ≠ [])
    (hliveKeys : ∀ key ∈ keys, Live (.b key)) (hwindow : windowId ∉ keys)
    (hlive : Live (.b functionRes)) (hliveB : Live (.b timestampB))
    (hwindowB : timestampB ≠ windowId)
    (threshold : Word d) {initial : Word d} (hinitial : SharesB layout
      (fun i k (_ : Fin 1) => -M i (.b windowId) k (rowZero hpos)) fun _ => initial)
    (hroom : RoomForRounds least n) (hrows : least ≤ n - 1) :
    Ensures mode (fun i =>
        thresholdSessionWindow (P i) keys functionRes timestampB windowId threshold
        (M i)) g fun M' g' _ => Memory.Shares layout (fun c => c = .b windowId ∨ Live c) M'
        (Function.update V (.b windowId) (scan (extremum false) (partners true k)
          (linked keys V fun j => threshold.slt (V (.b functionRes) j)) k
          (marks (thresholdMarks (fun j => threshold.slt (V (.b functionRes) j)) initial)
            (V (.b timestampB))))) ∧ Good g' := by
  refine (ensures_markThresholdSession hdata hP hg hpos hM hlive threshold hinitial hrows).bind
    fun r g₁ _ h => ?_
  obtain ⟨⟨hpot, hmarks, hother⟩, hg₁⟩ := h
  have hM' : Memory.Shares layout (fun c => Live c ∧ c ≠ .b windowId) (fun i => (r i).2) V := by
    rintro c ⟨hc, hne⟩
    simp only [hother c hne]
    exact hM c hc
  have hsel : Selects layout (some fun i => (r i).1)
      fun j => threshold.slt (V (.b functionRes) j) := hpot
  refine (ensures_spreadMarks hdata hP hg₁ hn hM' hkeys
    (fun key hk => ⟨hliveKeys key hk, fun h => hwindow (Column.b.inj h ▸ hk)⟩) hwindow
    ⟨hliveB, fun h => hwindowB (Column.b.inj h)⟩ hmarks hsel hroom (by omega)).mono
      fun M'' g'' _ h => ⟨fun c hc => h.1 c ?_, h.2⟩
  exact or_iff_not_imp_left.mpr fun hne => ⟨hc.resolve_left hne, hne⟩

end Windows

/-! ## Sessions -/

section Sessions

variable {k : ℕ} {keys : List ℕ} {V : Column → Vec n d} {time : Vec n d} {gap : Word d}

theorem sameKeys_equivalence (keys : List ℕ) (V : Column → Vec n d) :
    Equivalence (sameKeys keys V) where
  refl _ := fun _ _ => rfl
  symm h := fun key hk => (h key hk).symm
  trans h h' := fun key hk => (h key hk).trans (h' key hk)

/-- The timestamps and the gap are not negative, and do not overflow together. -/
structure GapTimes (time : Vec n d) (gap : Word d) : Prop where
  nonneg (r : Fin n) : 0 ≤ (time r).toInt
  gap_nonneg : 0 ≤ gap.toInt
  bound (r : Fin n) : (time r).toInt + gap.toInt < 2 ^ (d.bits - 1)

/-- A row after the first one is marked exactly if it is after a gap. -/
theorem gapStart_iff (h : GapTimes time gap) {a b : Fin n} (hab : (b : ℕ) = a + 1) :
    gapStart time gap b = true ↔ (time a).toInt + gap.toInt < (time b).toInt := by
  have hlt : (b : ℕ) - 1 < n - 1 := by omega
  have hfirst : firstRow ⟨(b : ℕ) - 1, hlt⟩ = a := Fin.ext (show (b : ℕ) - 1 = a by omega)
  have hsecond : secondRow ⟨(b : ℕ) - 1, hlt⟩ = b := Fin.ext (show (b : ℕ) - 1 + 1 = b by omega)
  rw [gapStart, startPlace, dif_neg (by omega), Sum.elim_inr, hfirst, hsecond]
  exact msb_gap (h.nonneg a) h.gap_nonneg (h.nonneg b) (h.bound a)

/-- The scan of marked timestamps holds the latest one that is reached. -/
theorem isGreatest_labels (v : Vec n d) (b : Fin n → Bool) (link : Fin n → Fin n → Prop)
    [DecidableRel link] (r : Fin n) :
    IsGreatest (labels (fun j => (v j).toInt) (b · = true) (reach back link k) (-1) r)
      (scan (extremum false) (partners true k) link k
        (fun j => if b j then v j else -1) r).toInt := by
  have h := Aggregation.max.of_scan (fun j => if b j then v j else -1) link true (le_refl k) r
  have hvalue : (fun j => (if b j then v j else -1 : Word d).toInt)
      = fun j => if b j = true then (v j).toInt else -1 := by
    funext j
    rw [apply_ite BitVec.toInt, toInt_neg_one]
  rw [Aggregation.Of, hvalue] at h
  exact h

/-- In groups of consecutive rows the next row of the group is the next row. -/
theorem KeysContiguous.follows_iff (h : KeysContiguous keys V) {a b : Fin n} :
    Follows (sameKeys keys V) a b ↔ (b : ℕ) = a + 1 ∧ sameKeys keys V a b := by
  constructor
  · intro hab
    refine ⟨?_, hab.group⟩
    by_contra hne
    have hlt : (a : ℕ) < b := hab.lt
    have hn : (a : ℕ) + 1 < n := by omega
    exact hab.next ⟨a + 1, hn⟩ (Fin.lt_def.mpr (Nat.lt_succ_self _))
      (Fin.lt_def.mpr (show (a : ℕ) + 1 < b by omega))
      (h a ⟨a + 1, hn⟩ b (Fin.le_def.mpr (Nat.le_succ _))
        (Fin.le_def.mpr (show (a : ℕ) + 1 ≤ b by omega)) hab.group)
  · rintro ⟨hab, hsame⟩
    refine ⟨Fin.lt_def.mpr (by omega), hsame, fun c hac hcb => ?_⟩
    rw [Fin.lt_def] at hac hcb
    omega

/-- **The window separates the sessions**: two rows of a group have the same id exactly if no step
between them is longer than the gap. -/
def SeparatesSessions (keys : List ℕ) (V : Column → Vec n d) (time : Vec n d) (gap : Word d)
    (z : Vec n d) : Prop :=
  ∀ i j : Fin n, i < j → sameKeys keys V i j → (z i = z j ↔ ∀ m m' : Fin n, i ≤ m →
    (m' : ℕ) = m + 1 → m' ≤ j → (time m').toInt - (time m).toInt ≤ gap.toInt)

/-- **No gap between rows of a group**, in groups of consecutive rows. -/
theorem KeysContiguous.unbroken_iff (h : KeysContiguous keys V) {i j : Fin n}
    (hsame : sameKeys keys V i j) :
    Unbroken (sameKeys keys V) (fun r => (time r).toInt) gap.toInt i j ↔
      ∀ m m' : Fin n, i ≤ m → (m' : ℕ) = m + 1 → m' ≤ j →
        (time m').toInt - (time m).toInt ≤ gap.toInt := by
  have hequiv := sameKeys_equivalence keys V
  constructor
  · intro hun m m' him hm hm'j
    have hmj : m ≤ j := Fin.le_def.mpr (by rw [Fin.le_def] at hm'j; omega)
    have him' : i ≤ m' := Fin.le_def.mpr (by rw [Fin.le_def] at him; omega)
    have hm₁ : sameKeys keys V i m := h i m j him hmj hsame
    have hm₂ : sameKeys keys V i m' := h i m' j him' hm'j hsame
    have hfollows := h.follows_iff.mpr ⟨hm, hequiv.trans (hequiv.symm hm₁) hm₂⟩
    have hle := hun m m' hfollows hm₁ him hm'j
    dsimp only at hle
    omega
  · intro hsteps a b hab _ hia hbj
    have hle := hsteps a b hia (h.follows_iff.mp hab).1 hbj
    dsimp only
    omega

/-- **In groups of consecutive rows the marks suffice**: a session that is not marked is the first
one of its group. -/
theorem KeysContiguous.marksSuffice (h : KeysContiguous keys V) (ht : GapTimes time gap)
    (hsorted : ∀ r s, r ≤ s → sameKeys keys V r s → (time r).toInt ≤ (time s).toInt) :
    Marking (sameKeys keys V) (fun r => (time r).toInt) gap.toInt (gapStart time gap · = true)
        (groupRows keys V true) ∧
      MarksSuffice (sameKeys keys V) (fun r => (time r).toInt) gap.toInt
        (gapStart time gap · = true) (groupRows keys V true) := by
  have hequiv := sameKeys_equivalence keys V
  have hmem : ∀ {r s}, s ∈ groupRows keys V true r ↔ sameKeys keys V r s ∧ s ≤ r := by
    simp [groupRows]
  -- what begins a session after the first one of its group is marked
  have hlater : ∀ {s s'}, sameKeys keys V s s' → s < s' →
      Opens (sameKeys keys V) (fun r => (time r).toInt) gap.toInt s' → gapStart time gap s' =
        true :=
    fun hsame hlt hopens => by
      obtain ⟨a, -, ha⟩ := exists_follows hequiv hlt hsame
      exact (gapStart_iff ht (h.follows_iff.mp ha).1).mpr (hopens a ha)
  have hmarking : Marking (sameKeys keys V) (fun r => (time r).toInt) gap.toInt
      (gapStart time gap · = true) (groupRows keys V true) :=
    { equivalence := hequiv
      mono := fun hsame hle => hsorted _ _ hle hsame
      gap_nonneg := ht.gap_nonneg
      opens := fun hs a ha => (gapStart_iff ht (h.follows_iff.mp ha).1).mp hs
      self := fun r => hmem.mpr ⟨hequiv.refl r, le_rfl⟩
      back := fun hs => ⟨hequiv.symm (hmem.mp hs).1, (hmem.mp hs).2⟩ }
  refine ⟨hmarking, ?_, fun hsr _ => hmem.mpr ⟨hequiv.symm hsr.group, hsr.le⟩, ?_⟩
  · intro s s' hsame hs hs' hne
    rcases lt_or_gt_of_ne hne with hlt | hlt
    · exact .inr (hlater hsame hlt hs')
    · exact .inl (hlater (hequiv.symm hsame) hlt hs)
  · intro s r hsr hs s' hs' hmark
    obtain ⟨hgroup, hle⟩ := hmarking.back hs'
    have hle' := hsr.le_of_opens hequiv (hmarking.opens hmark) hgroup hle
    rcases hle'.lt_or_eq with hlt | rfl
    · exact hs (hlater (hequiv.trans hgroup (hequiv.symm hsr.group)) hlt hsr.opens)
    · exact hs hmark

/-! ### Rows in the order of their times -/

/-- A row is after a gap: the row before, whatever its keys, is earlier by more than the gap. -/
def AfterGap (time : Vec n d) (gap : Word d) (s : Fin n) : Prop :=
  ∀ m : Fin n, (s : ℕ) = m + 1 → (time m).toInt + gap.toInt < (time s).toInt

instance : DecidablePred (AfterGap time gap) := fun _ => inferInstanceAs (Decidable (∀ _, _))

theorem gapStart_iff_afterGap (h : GapTimes time gap) (s : Fin n) :
    gapStart time gap s = true ↔ AfterGap time gap s := by
  by_cases hs : (s : ℕ) = 0
  · refine iff_of_true ?_ fun m hm => absurd hm (by omega)
    rw [gapStart, startPlace, dif_pos hs, Sum.elim_inl]
  · have hlt : (s : ℕ) - 1 < n := by omega
    constructor
    · exact fun hstart m hm => (gapStart_iff h hm).mp hstart
    · intro hafter
      have hm : (s : ℕ) = (⟨(s : ℕ) - 1, hlt⟩ : Fin n) + 1 := by
        change (s : ℕ) = s - 1 + 1
        omega
      exact (gapStart_iff h hm).mpr (hafter _ hm)

/-- **The rows that the maximum reaches from `r`**: those whose distance can be jumped, the highest
bit first, from row to row of `r`'s keys. -/
def reachedRows (keys : List ℕ) (V : Column → Vec n d) (k : ℕ) (r : Fin n) : Finset (Fin n) :=
  Finset.univ.filter fun s => s ≤ r ∧
    ∀ l < k, ∀ m : Fin n, (m : ℕ) = s + (r - s) % 2 ^ l → sameKeys keys V r m

theorem reachedRows_congr {V' : Column → Vec n d} (h : ∀ key ∈ keys, V' (.b key) = V (.b key)) :
    reachedRows keys V' k = reachedRows keys V k := by
  funext r
  simp only [reachedRows, sameKeys_congr h]

theorem reach_reachedRows (hn : n = 2 ^ k) :
    reach back (linked keys V fun _ => true) k = reachedRows keys V k := by
  have hequiv := sameKeys_equivalence keys V
  funext r
  ext s
  rw [mem_reach_back_iff linked_symm linked_trans, reachedRows, Finset.mem_filter]
  have hr := r.isLt
  constructor
  · rintro ⟨hle, -, hway⟩
    refine ⟨Finset.mem_univ s, hle, fun l hl m hm => ?_⟩
    rcases hway l hl m hm with rfl | h
    · exact hequiv.refl m
    · exact h.1
  · rintro ⟨-, hle, hway⟩
    exact ⟨hle, by omega, fun l hl m hm => .inr ⟨hway l hl m hm, rfl, rfl⟩⟩

/-- **In a table in the order of its times** the window tells the sessions apart exactly if the
marks suffice. -/
theorem tellsApart_iff_marksSuffice (hn : n = 2 ^ k) (ht : GapTimes time gap)
    (hsorted : Monotone fun r => (time r).toInt) :
    TellsApart (sameKeys keys V) (fun r => (time r).toInt) gap.toInt
        (scan (extremum false) (partners true k) (linked keys V fun _ => true) k fun j =>
          if gapStart time gap j then time j else -1) ↔
      MarksSuffice (sameKeys keys V) (fun r => (time r).toInt) gap.toInt (AfterGap time gap)
        (reachedRows keys V k) := by
  have hequiv := sameKeys_equivalence keys V
  have hmark : AfterGap time gap = (gapStart time gap · = true) :=
    funext fun s => propext (gapStart_iff_afterGap ht s).symm
  have hmem : ∀ {r s}, s ∈ reach back (linked keys V fun _ => true) k r → s ≤ r ∧
      sameKeys keys V s r := by
    intro r s hs
    rw [reach_reachedRows hn, reachedRows, Finset.mem_filter] at hs
    refine ⟨hs.2.1, ?_⟩
    rcases Nat.eq_zero_or_pos k with rfl | hk
    · have hle := hs.2.1
      rw [Fin.le_def] at hle
      rw [show s = r from Fin.ext (by omega)]
      exact hequiv.refl r
    · exact hequiv.symm (hs.2.2 0 hk s (by rw [Nat.pow_zero, Nat.mod_one, Nat.add_zero]))
  have hmarking : Marking (sameKeys keys V) (fun r => (time r).toInt) gap.toInt
      (gapStart time gap · = true) (reach back (linked keys V fun _ => true) k) :=
    { equivalence := hequiv
      mono := fun _ hle => hsorted hle
      gap_nonneg := ht.gap_nonneg
      opens := fun {s} hs a ha => by
        -- the row before is not earlier than the one before in the group
        have hlt : (a : ℕ) < s := ha.lt
        have hn' : (s : ℕ) - 1 < n := by omega
        have hle : a ≤ ⟨(s : ℕ) - 1, hn'⟩ := Fin.le_def.mpr (show (a : ℕ) ≤ s - 1 by omega)
        have hafter := (gapStart_iff_afterGap ht s).mp hs ⟨s - 1, hn'⟩
          (show (s : ℕ) = s - 1 + 1 by omega)
        have htime := hsorted hle
        dsimp only at htime ⊢
        omega
      self := self_mem_reach back k
      back := fun hs => ⟨(hmem hs).2, (hmem hs).1⟩ }
  have hlabels := labels_iff hmarking (fun s => lt_of_lt_of_le (by norm_num) (ht.nonneg s))
    fun r => isGreatest_labels time (gapStart time gap) (linked keys V fun _ => true) r
  rw [hmark, ← reach_reachedRows hn, ← hlabels, tellsApart_iff hequiv hsorted ht.gap_nonneg]
  simp only [BitVec.toInt_inj]

end Sessions

/-! ## Blocks above a threshold -/

section Blocks

variable {k : ℕ} {keys : List ℕ} {V : Column → Vec n d} {time : Vec n d} {b : Fin n → Bool}
variable {initial : Word d}

/-- **The first row comes out right** in spite of what its mark held. -/
def FirstRight (on : Bool) (initial time : Word d) : Prop :=
  if on then initial ||| time = BitVec.allOnes _ else initial &&& ~~~time = 0

instance (on : Bool) (initial time : Word d) : Decidable (FirstRight on initial time) := by
  unfold FirstRight
  infer_instance

theorem firstRight_iff {on : Bool} {initial t : Word d} :
    (~~~initial &&& -1) ^^^ (initial &&& t) = (if on then t else -1) ↔ FirstRight on initial t := by
  have hones : (-1 : Word d) = BitVec.allOnes _ := BitVec.neg_one_eq_allOnes
  have h0 : (0 : Word d) = 0#d.bits := rfl
  rw [FirstRight, hones, BitVec.and_allOnes, h0]
  cases on with
  | false =>
    rw [if_neg Bool.false_ne_true, if_neg Bool.false_ne_true, BitVec.eq_of_getLsbD_eq_iff,
      BitVec.eq_of_getLsbD_eq_iff]
    refine forall₂_congr fun i hi => ?_
    simp only [BitVec.getLsbD_xor, BitVec.getLsbD_and, BitVec.getLsbD_not, hi, decide_true,
      Bool.true_and, BitVec.getLsbD_allOnes, BitVec.getLsbD_zero]
    cases initial.getLsbD i <;> cases t.getLsbD i <;> decide
  | true =>
    rw [if_pos rfl, if_pos rfl, BitVec.eq_of_getLsbD_eq_iff, BitVec.eq_of_getLsbD_eq_iff]
    refine forall₂_congr fun i hi => ?_
    simp only [BitVec.getLsbD_xor, BitVec.getLsbD_and, BitVec.getLsbD_not, hi, decide_true,
      Bool.true_and, BitVec.getLsbD_allOnes, BitVec.getLsbD_or]
    cases initial.getLsbD i <;> cases t.getLsbD i <;> decide

/-- The values of the rows after the first one. -/
theorem marks_thresholdMarks {m s : Fin n} (hms : (s : ℕ) = m + 1) :
    marks (thresholdMarks b initial) time s = if b s = true ∧ ¬ b m = true then time s else -1 := by
  have hlt : (s : ℕ) - 1 < n - 1 := by omega
  have hfirst : firstRow ⟨(s : ℕ) - 1, hlt⟩ = m := Fin.ext (show (s : ℕ) - 1 = m by omega)
  have hsecond : secondRow ⟨(s : ℕ) - 1, hlt⟩ = s := Fin.ext (show (s : ℕ) - 1 + 1 = s by omega)
  have hstart : thresholdMarks b initial s
      = if b s && (b s ^^ b m) then BitVec.allOnes d.bits else 0 := by
    rw [thresholdMarks, startPlace, dif_neg (by omega), Sum.elim_inr, thresholdStart, hfirst,
      hsecond]
  have hmark := congrFun (marks_bits (fun j => b j && (b j ^^ b m)) time) s
  simp only [marks_apply] at hmark
  rw [marks_apply, hstart, hmark]
  cases b s <;> cases b m <;> rfl

/-- **The window labels the blocks above the threshold**: `-1` below it, and otherwise the timestamp
of the first row of the block. -/
def LabelsBlocks (keys : List ℕ) (V : Column → Vec n d) (b : Fin n → Bool) (time z : Vec n d) :
    Prop :=
  ∀ r, (¬ b r = true → z r = -1) ∧
    (b r = true → ∃ s, BlockStart (sameKeys keys V) (b · = true) s r ∧ z r = time s)

/-- The scan of the marks labels the blocks exactly if the first row is right, and the keys do not
change within rows above the threshold. -/
theorem labelsBlocks_iff (hn : n = 2 ^ k) (hpos : 0 < n) (hcontiguous : KeysContiguous keys V)
    (hnonneg : ∀ r, 0 ≤ (time r).toInt)
    (hsorted : ∀ r s, r ≤ s → sameKeys keys V r s → (time r).toInt ≤ (time s).toInt) :
    LabelsBlocks keys V b time (scan (extremum false) (partners true k) (linked keys V b) k
        (marks (thresholdMarks b initial) time)) ↔
      FirstRight (b (rowZero hpos)) initial (time (rowZero hpos)) ∧
        ∀ m s : Fin n, (s : ℕ) = m + 1 → ¬ sameKeys keys V m s → b s = true → ¬ b m = true := by
  have hequiv := sameKeys_equivalence keys V
  have hcov : ∀ {m s : Fin n}, m ⋖ s ↔ (s : ℕ) = m + 1 := fun {m s} => by
    rw [Fin.covBy_iff, Nat.covBy_iff_add_one_eq, eq_comm]
  have hway : ∀ r s : Fin n, s ∈ reach back (linked keys V b) k r ↔ s ≤ r ∧ (r : ℕ) < s + 2 ^ k ∧
      ∀ l < k, ∀ m : Fin n, (m : ℕ) = s + (r - s) % 2 ^ l → m = r ∨ linked keys V b r m :=
    fun r s => mem_reach_back_iff linked_symm linked_trans
  have hback : ∀ {r s : Fin n}, s ∈ reach back (linked keys V b) k r →
      s = r ∨ s ≤ r ∧ sameKeys keys V s r ∧ b r = true := by
    intro r s hs
    obtain ⟨hle, hlt, hlinks⟩ := (hway r s).mp hs
    rcases Nat.eq_zero_or_pos k with rfl | hk
    · rw [Fin.le_def] at hle
      exact .inl (Fin.ext (by omega))
    · -- the way ends at `s`
      rcases hlinks 0 hk s (by rw [Nat.pow_zero, Nat.mod_one, Nat.add_zero]) with h | h
      · exact .inl h
      · exact .inr ⟨hle, hequiv.symm h.1, h.2.1⟩
  have hreach : ∀ {r s : Fin n}, s ≤ r →
      (∀ m, s ≤ m → m ≤ r → sameKeys keys V m r ∧ b m = true) →
      s ∈ reach back (linked keys V b) k r := by
    intro r s hle hblock
    have hr := r.isLt
    refine (hway r s).mpr ⟨hle, by omega, fun l _ m hm => .inr ?_⟩
    have hmod := Nat.mod_le ((r : ℕ) - s) (2 ^ l)
    rw [Fin.le_def] at hle
    obtain ⟨hsame, hon⟩ := hblock m (Fin.le_def.mpr (by omega)) (Fin.le_def.mpr (by omega))
    exact ⟨hequiv.symm hsame, (hblock r hle le_rfl).2, hon⟩
  have hblocks := @blocks_iff (Fin n) ℤ _ _ _ (sameKeys keys V) (b · = true)
    (fun r => (time r).toInt) (fun r => (marks (thresholdMarks b initial) time r).toInt)
    (fun r => (scan (extremum false) (partners true k) (linked keys V b) k
      (marks (thresholdMarks b initial) time) r).toInt)
    (-1) (reach back (linked keys V b) k) (rowZero hpos) _ hequiv
    (fun hab hbc hac => hcontiguous _ _ _ hab hbc hac) (fun hab hle => hsorted _ _ hle hab)
    (fun s => lt_of_lt_of_le (by norm_num) (hnonneg s)) (fun s => Fin.le_def.mpr (Nat.zero_le _))
    (fun m s hms => ?_) hback hreach
    fun r => Aggregation.max.of_scan _ (linked keys V b) true le_rfl r
  · have hword : ∀ x y : Word d, x = y ↔ x.toInt = y.toInt := fun _ _ => BitVec.toInt_inj.symm
    have hone : ∀ x : Word d, x = -1 ↔ x.toInt = -1 := fun x => by rw [hword, toInt_neg_one]
    have hfirst : (marks (thresholdMarks b initial) time (rowZero hpos)).toInt
          = (if b (rowZero hpos) = true then (time (rowZero hpos)).toInt else -1)
        ↔ FirstRight (b (rowZero hpos)) initial (time (rowZero hpos)) := by
      rw [← firstRight_iff, hword, apply_ite BitVec.toInt, toInt_neg_one]
      exact Iff.rfl
    simp only [LabelsBlocks, hone]
    simp only [hword, hcov, hfirst] at hblocks ⊢
    exact hblocks
  · rw [marks_thresholdMarks (hcov.mp hms), apply_ite BitVec.toInt, toInt_neg_one]

end Blocks

end Tva.Operators
