import TvaMpc.Operators.Comparisons
import TvaMpc.Operators.StreamingCorrect
import TvaMpc.Protocols.Replicated3pcMasked

/-!
# Operators/Distinct — marking the first row of every group

`distinct` compares every row with the row before, key by key, and folds the inequalities of the
keys by `&`.  So a row is marked if it differs in **all** keys (`ensures_distinct`), which is the
first row of a group exactly if the keys change together (`distinct_marks_iff`).
-/

namespace Tva.Operators

open Machinery

variable {N ρ n least : ℕ} {d : DataType} {G : Type}

/-! ## The operator -/

section Model

variable [NeZero N] (P : Protocol N ρ d G)

/-- The rows after the first that differ from the row before in a key. -/
def differing (key : ℕ) (M : Memory ρ n d) : PartyM N d G (EVector ρ (n - 1) d) :=
  P.ne (M.read (n - 1) ⟨.b key, firstRows n 1⟩) (M.read (n - 1) ⟨.b key, secondRows n 1⟩)

/-- `distinct`, of at least one key. -/
def distinct (keys : List ℕ) (res : ℕ) (M : Memory ρ n d) : PartyM N d G (Memory ρ n d) :=
  match keys with
  | [] => return M
  | key :: keys => do
      let zero ← P.secretShareB (fun _ : Fin 1 => 1) 0
      let M := M.write ⟨.b res, (VectorData.vectorData n).simpleSubsetReference 0 1 0⟩
        fun k => mask 1 (zero k)
      let z ← differing P key M
      let M := M.write ⟨.b res, secondRows n 1⟩ z
      keys.foldlM (fun M key => do
        let z ← differing P key M
        let z ← P.andB (M.read (n - 1) ⟨.b res, secondRows n 1⟩) z
        return M.write ⟨.b res, secondRows n 1⟩ z) M

end Model

theorem ownedBy_distinct [NeZero N] {P : Protocol N ρ d G} {i : Fin N} (hP : Protocol.OwnedBy i P)
    (keys : List ℕ) (res : ℕ) (M : Memory ρ n d) : OwnedBy i (distinct P keys res M) := by
  cases keys with
  | nil => exact .pure _
  | cons key keys =>
    exact (hP.secretShareB _ _).bind fun _ => (hP.ne _ _).bind fun _ =>
      Protocol.OwnedBy.foldlM (fun _ _ => (hP.ne _ _).bind fun _ => (hP.andB _ _).bind fun _ =>
        .pure _) _ _

/-! ## What it marks -/

/-- Which rows are marked: the first one, and those that differ from the row before in all keys. -/
def changesAll (keys : List ℕ) (V : Column → Vec n d) (j : Fin n) : Bool :=
  Sum.elim (fun _ : Fin 1 => true) (fun k : Fin (n - 1) => keys.all fun key =>
    !decide (V (.b key) (firstRow k) = V (.b key) (secondRow k))) (startPlace j)

section Correct

variable [NeZero ρ] {layout : Fin N → Fin ρ → Fin N} {P : Fin N → Protocol N ρ d G}
variable {dataParty : Fin N → Prop} {Good : (Fin N → G) → Prop} {mode : SendMode}
variable {K : (n : ℕ) → (Fin N → EVector ρ n d) → (Fin n → Bool) → Prop}
variable {g : Fin N → G} {Live : Column → Prop} {M : Fin N → Memory ρ n d} {V : Column → Vec n d}

/-- Assigning all rows of a column but the first. -/
theorem shares_write_secondRows (hn : 0 < n) {res : ℕ} {z : Fin N → EVector ρ (n - 1) d}
    {a : Word d} {c : Vec (n - 1) d}
    (hx : SharesB layout (fun i k (_ : Fin 1) => M i (.b res) k (rowZero hn)) fun _ => a)
    (hz : SharesB layout z c) :
    SharesB layout (fun i => (M i).write ⟨.b res, secondRows n 1⟩ (z i) (.b res))
      fun j => Sum.elim (fun _ => a) c (startPlace j) := by
  simp only [Memory.write, Function.update_self, write_secondRows hn]
  exact @Shares.elim (Word d) (boolRing d) N ρ 1 (n - 1) _ layout _ _ n z c hx hz startPlace

theorem ensures_differing (hP : Protocol.KeepsKind P layout least dataParty Good mode K)
    (hg : Good g) (hn : 0 < n) (hM : Memory.Shares layout Live M V) {key : ℕ} (hkey : Live (.b key))
    (hroom : least ≤ n - 1) :
    Ensures mode (fun i => differing (P i) key (M i)) g fun z g' _ =>
      SharesB layout z (bits d fun k : Fin (n - 1) =>
        !decide (V (.b key) (firstRow k) = V (.b key) (secondRow k))) ∧ Good g' := by
  obtain ⟨hfirst, hsecond⟩ := shares_rows hn (hM _ hkey)
  exact (hP.ensures_ne hg hfirst hsecond hroom).mono fun _ _ _ hz => ⟨hz.1.shares, hz.2⟩

/-- The marks of one more key. -/
theorem changesAll_append (keys : List ℕ) (key : ℕ) (hn : 0 < n) :
    (fun j => Sum.elim (fun _ : Fin 1 => bit d (changesAll keys V (rowZero hn)))
      ((fun k => bits d (changesAll keys V) (secondRow k)) &&& bits d fun k : Fin (n - 1) =>
        !decide (V (.b key) (firstRow k) = V (.b key) (secondRow k))) (startPlace j))
      = bits d (changesAll (keys ++ [key]) V) := by
  have hzero : startPlace (rowZero hn) = .inl 0 := dif_pos rfl
  have hsecond : ∀ k : Fin (n - 1), startPlace (secondRow k : Fin n) = .inr k :=
    fun k => dif_neg (Nat.succ_ne_zero _)
  funext j
  rw [bits, changesAll, hzero, changesAll]
  cases startPlace j with
  | inl => rfl
  | inr k =>
    change bit d (changesAll keys V (secondRow k)) &&& bit d _ = _
    rw [← bit_and, changesAll, hsecond, Sum.elim_inr, Sum.elim_inr, List.all_append, List.all_cons,
      List.all_nil, Bool.and_true]

/-- The view of the first row. -/
theorem shows_rowZero (hn : 0 < n) :
    ((VectorData.vectorData n).simpleSubsetReference 0 1 0).Shows fun _ : Fin 1 => rowZero hn := by
  refine ⟨?_, fun j => ?_⟩
  · simp only [VectorData.simpleSubsetReference, VectorData.size, Int.tdiv_one]
    omega
  · rw [Subsingleton.elim j 0, VectorData.simpleSubsetReference, VectorData.index, VectorData.index]
    rfl

/-- **`distinct` marks the rows that differ from the row before in all keys**, and leaves the other
columns. -/
theorem ensures_distinct_memory [NeZero N] (hdata : dataParty 0)
    (hP : Protocol.KeepsKind P layout least dataParty Good mode K) (hg : Good g) (hn : 0 < n)
    (hM : Memory.Shares layout Live M V) {keys : List ℕ} (hkeys : keys ≠ [])
    (hlive : ∀ key ∈ keys, Live (.b key)) {res : ℕ} (hres : res ∉ keys)
    (hroom : least ≤ n - 1) :
    Ensures mode (fun i => distinct (P i) keys res (M i)) g fun M' g' _ =>
      (∀ c ≠ Column.b res, ∀ i, M' i c = M i c) ∧
        SharesB layout (fun i => M' i (.b res)) (bits d (changesAll keys V)) ∧ Good g' := by
  obtain ⟨key₀, keys, rfl⟩ := List.exists_cons_of_ne_nil hkeys
  -- the keys are never assigned
  have hkeep : ∀ M' : Fin N → Memory ρ n d, (∀ c ≠ Column.b res, ∀ i, M' i c = M i c) →
      Memory.Shares layout (fun c => ∃ key ∈ key₀ :: keys, c = .b key) M' V := by
    rintro M' hsame c ⟨key, hkey, rfl⟩
    have hne : Column.b key ≠ .b res := fun h => hres (Column.b.inj h ▸ hkey)
    simp only [hsame _ hne]
    exact hM _ (hlive key hkey)
  refine (hP.secretShareB hdata hg).bind fun one g₁ _ hone => ?_
  set M₁ : Fin N → Memory ρ n d := fun i => (M i).write
    ⟨.b res, (VectorData.vectorData n).simpleSubsetReference 0 1 0⟩ fun k => mask 1 (one i k)
  have hother₁ : ∀ c ≠ Column.b res, ∀ i, M₁ i c = M i c := fun c hc i => Memory.write_of_ne hc
  refine (ensures_differing hP hone.2 hn (hkeep M₁ hother₁)
    ⟨key₀, List.mem_cons_self, rfl⟩ hroom).bind fun z g₂ _ hz => ?_
  have hzero : SharesB layout (fun i k (_ : Fin 1) => M₁ i (.b res) k (rowZero hn))
      fun _ => bit d true := by
    have hmask : (fun i k (_ : Fin 1) => M₁ i (.b res) k (rowZero hn))
        = fun i k => mask 1 (one i k) := by
      funext i k j
      obtain rfl := Subsingleton.elim j 0
      change (Memory.write _ _ _) (Column.b res) k (rowZero hn) = _
      rw [Memory.write, Function.update_self]
      exact (shows_rowZero hn).write (fun _ _ _ => Subsingleton.elim _ _) _ _ 0
    have hbit : (fun _ : Fin 1 => (1 : Word d) &&& 1) = fun _ => bit d true :=
      funext fun _ => BitVec.and_self
    rw [hmask]
    exact hbit ▸ hone.1.map (mask 1) (mask_xor 1)
  refine (Ensures.foldlM
    (fun pre (M' : Fin N → Memory ρ n d) g => (∀ c ≠ Column.b res, ∀ i, M' i c = M i c) ∧
    SharesB layout (fun i => M' i (.b res)) (bits d (changesAll (key₀ :: pre) V)) ∧ Good g)
    keys ?_ ?_).mono fun _ _ _ => id
  · refine ⟨fun c hc i => (Memory.write_of_ne hc).trans (hother₁ c hc i), ?_, hz.2⟩
    have hmarks : (fun j : Fin n => Sum.elim (fun _ : Fin 1 => bit d true)
        (bits d fun k : Fin (n - 1) =>
          !decide (V (.b key₀) (firstRow k) = V (.b key₀) (secondRow k))) (startPlace j))
        = bits d (changesAll [key₀] V) := by
      funext j
      rw [bits, changesAll]
      cases startPlace j with
      | inl => rfl
      | inr k => simp [bits]
    rw [← hmarks]
    exact shares_write_secondRows hn hzero hz.1
  · rintro pre key hpre M' g ⟨hsame, hmarks, hg⟩
    have hkey : key ∈ key₀ :: keys := .tail _ (hpre.subset (by simp))
    refine (ensures_differing hP hg hn (hkeep M' hsame) ⟨key, hkey, rfl⟩ hroom).bind
      fun z g₃ _ hz => ?_
    refine (hP.andB hz.2 (shares_rows hn hmarks).2 hz.1 hroom).bind
      fun z' g₄ _ hz' => Ensures.pure ?_
    refine ⟨fun c hc i => (Memory.write_of_ne hc).trans (hsame c hc i), ?_, hz'.2⟩
    rw [← List.cons_append, ← changesAll_append _ _ hn]
    exact shares_write_secondRows hn (@Shares.comp (Word d) (boolRing d) N ρ n 1 _ layout _ _ hmarks
      fun _ => rowZero hn) hz'.1

theorem ensures_distinct [NeZero N] (hdata : dataParty 0)
    (hP : Protocol.KeepsKind P layout least dataParty Good mode K) (hg : Good g) (hn : 0 < n)
    (hM : Memory.Shares layout Live M V) {keys : List ℕ} (hkeys : keys ≠ [])
    (hlive : ∀ key ∈ keys, Live (.b key)) {res : ℕ} (hres : res ∉ keys)
    (hroom : least ≤ n - 1) :
    Ensures mode (fun i => distinct (P i) keys res (M i)) g fun M' g' _ =>
      SharesB layout (fun i => M' i (.b res)) (bits d (changesAll keys V)) ∧ Good g' :=
  (ensures_distinct_memory hdata hP hg hn hM hkeys hlive hres hroom).mono fun _ _ _ h => h.2

end Correct

/-! ## Groups -/

/-- **The first row of a group**: row `0`, and a row that differs from the row before in at least
one key. -/
def FirstOfGroup (keys : List ℕ) (V : Column → Vec n d) (j : Fin n) : Prop :=
  (j : ℕ) = 0 ∨ ∃ i : Fin n, (i : ℕ) + 1 = j ∧ ∃ key ∈ keys, V (.b key) i ≠ V (.b key) j

instance (keys : List ℕ) (V : Column → Vec n d) : DecidablePred (FirstOfGroup keys V) :=
  fun j => inferInstanceAs (Decidable ((j : ℕ) = 0 ∨ _))

/-- The keys change together from a row to the next. -/
def KeysTogether (keys : List ℕ) (V : Column → Vec n d) : Prop :=
  ∀ i j : Fin n, (i : ℕ) + 1 = j → ∀ key ∈ keys, ∀ key' ∈ keys,
    V (.b key) i ≠ V (.b key) j → V (.b key') i ≠ V (.b key') j

instance (keys : List ℕ) (V : Column → Vec n d) : Decidable (KeysTogether keys V) :=
  inferInstanceAs (Decidable (∀ i j : Fin n, (i : ℕ) + 1 = j → _))

section Groups

variable {keys : List ℕ} {V : Column → Vec n d}

theorem changesAll_iff (j : Fin n) : changesAll keys V j = true ↔
    ∀ i : Fin n, (i : ℕ) + 1 = j → ∀ key ∈ keys, V (.b key) i ≠ V (.b key) j := by
  rw [changesAll, startPlace]
  split
  · rename_i hj
    exact iff_of_true rfl fun i hi => absurd hi (by omega)
  · rename_i hj
    have hlt : (j : ℕ) - 1 < n - 1 := by omega
    have hfirst : ((firstRow (⟨(j : ℕ) - 1, hlt⟩ : Fin (n - 1)) : Fin n) : ℕ) + 1 = j :=
      Nat.sub_add_cancel (Nat.one_le_iff_ne_zero.mpr hj)
    have hsecond : (secondRow (⟨(j : ℕ) - 1, hlt⟩ : Fin (n - 1)) : Fin n) = j := Fin.ext hfirst
    rw [Sum.elim_inr, hsecond, List.all_eq_true]
    simp only [Bool.not_eq_true', decide_eq_false_iff_not]
    refine ⟨fun h i hi => ?_, fun h => h _ hfirst⟩
    obtain rfl : i = firstRow (⟨(j : ℕ) - 1, hlt⟩ : Fin (n - 1)) := Fin.ext (by omega)
    exact h

/-- **The marked rows are the first rows of the groups exactly if the keys change together.** -/
theorem changesAll_eq_iff (hkeys : keys ≠ []) :
    (changesAll keys V = fun j => decide (FirstOfGroup keys V j)) ↔ KeysTogether keys V := by
  obtain ⟨key₀, hkey₀⟩ := List.exists_mem_of_ne_nil keys hkeys
  constructor
  · intro h i j hij key hkey key' hkey' hne
    have hj : changesAll keys V j = true := by
      rw [h]
      exact decide_eq_true (.inr ⟨i, hij, key, hkey, hne⟩)
    exact (changesAll_iff j).mp hj i hij key' hkey'
  · intro h
    funext j
    rw [Bool.eq_iff_iff, changesAll_iff, decide_eq_true_iff]
    constructor
    · intro hall
      by_cases hj : (j : ℕ) = 0
      · exact .inl hj
      · have hi : ((⟨j - 1, by omega⟩ : Fin n) : ℕ) + 1 = j := Nat.sub_add_cancel (by omega)
        exact .inr ⟨_, hi, key₀, hkey₀, hall _ hi key₀ hkey₀⟩
    · rintro (hj | ⟨i, hij, key, hkey, hne⟩) i' hi' key' hkey'
      · omega
      · obtain rfl : i' = i := Fin.ext (by omega)
        exact h i' j hij key hkey key' hkey' hne

end Groups

end Tva.Operators

/-! ## Three parties -/

namespace Tva.Replicated3pc

open Machinery Operators

variable {n : ℕ} {d : DataType} {G : Type} [RandomGenerator G d] {mode : SendMode}
variable {Good : (Fin 3 → G) → Prop} {g : Fin 3 → G}

variable (mode) in
/-- **`distinct` marks the first rows of the groups exactly if the keys change together**, whatever
the masks and whatever the result column held. -/
theorem distinct_marks_iff (hz : ZeroSharing d Good) (hg : Good g) (hn : 0 < n) (keys : List ℕ)
    (res : ℕ) (hkeys : keys ≠ []) (hres : res ∉ keys) (M : Fin 3 → Memory 2 n d)
    (V : Column → Vec n d) (hM : Memory.Shares layout (· ∈ keys.map Column.b) M V) :
    OpensB (protocol d G) mode
        (fun i => (fun M' : Memory 2 n d => M' (.b res)) <$>
          distinct (protocol d G i) keys res (M i))
        g (fun j => if FirstOfGroup keys V j then 1 else 0) ↔ KeysTogether keys V := by
  have hmarks := (ensures_distinct trivial (compares mode hz).toKeepsKind hg hn hM hkeys
    (fun key hkey => List.mem_map_of_mem hkey) hres (Nat.zero_le _)).map
      (f := fun M' : Memory 2 n d => M' (.b res))
      (R := fun z _ _ => SharesB layout z (bits d (changesAll keys V))) fun _ _ _ h => h.1
  rw [(correct hz).opensB_iff ownedBy_protocol hmarks
    fun i => (ownedBy_distinct (ownedBy_protocol i) _ _ _).map, ← changesAll_eq_iff hkeys,
    ← bits_decide]
  exact ⟨bits_inj, congrArg _⟩

/-- Two keys that change together. -/
def togetherKeys : Column → Vec 3 .int8_t
  | .b 0 => ![4, 4, 7]
  | .b _ => ![1, 1, 2]
  | .a _ => 0

theorem distinct_marks_together :
    OpensB (protocol .int8_t (Streams .int8_t)) .rendezvous
      (fun i => (fun M' : Memory 2 3 .int8_t => M' (.b 2)) <$>
        distinct (protocol .int8_t _ i) [0, 1] 2 fun c => plain (togetherKeys c) i)
      (zeroStreams .int8_t) fun j => if FirstOfGroup [0, 1] togetherKeys j then 1 else 0 :=
  (distinct_marks_iff .rendezvous zeroMasks_streams.toZeroSharing zeroStreams_zero (by decide)
    [0, 1] 2 (by decide) (by decide) (fun i c => plain (togetherKeys c) i) togetherKeys
    fun c _ => shares_plain c _).mpr (by decide)

/-- The second key changes alone. -/
def lateKey : Column → Vec 2 .int8_t
  | .b 0 => ![4, 4]
  | .b _ => ![1, 2]
  | .a _ => 0

/-- Row `1` is not marked there. -/
theorem distinct_misses_lateKey : ¬ OpensB (protocol .int8_t (Streams .int8_t)) .rendezvous
    (fun i => (fun M' : Memory 2 2 .int8_t => M' (.b 2)) <$>
      distinct (protocol .int8_t _ i) [0, 1] 2 fun c => plain (lateKey c) i)
    (zeroStreams .int8_t) (fun j => if FirstOfGroup [0, 1] lateKey j then 1 else 0) := by
  have hmarks : Ensures .rendezvous (fun i => (fun M' : Memory 2 2 .int8_t => M' (.b 2)) <$>
      distinct (protocol .int8_t (Streams .int8_t) i) [0, 1] 2 fun c => plain (lateKey c) i)
      (zeroStreams .int8_t) fun z _ _ =>
      SharesB layout z (bits .int8_t (changesAll [0, 1] lateKey)) :=
    (ensures_distinct (V := lateKey) (M := fun i c => plain (lateKey c) i) trivial
      (compares .rendezvous zeroMasks_streams.toZeroSharing).toKeepsKind zeroStreams_zero
        (by decide)
      (fun c (_ : True) => shares_plain c _) (by decide) (fun _ _ => trivial) (by decide)
        (Nat.zero_le _)).map fun _ _ _ h => h.1
  rw [(correct zeroMasks_streams.toZeroSharing).opensB_iff ownedBy_protocol hmarks
    fun i => (ownedBy_distinct (ownedBy_protocol i) _ _ _).map]
  exact fun h => absurd (congrFun h 1) (by decide)

end Tva.Replicated3pc
