import TvaMpc.Protocols.Replicated3pcBits
import TvaMpc.Relational.EncodedTableCorrect
import Mathlib.Data.Fin.Tuple.Sort

/-!
# Relational/Replicated3pcEncodedTable — three parties label the sessions of an unsorted table
-/

namespace Tva.Replicated3pc

open Machinery Operators Relational Relational.EncodedTable

variable {d : DataType} {G : Type} [RandomGenerator G d] {mode : SendMode}
variable {Good : (Fin 3 → G) → Prop} {g : Fin 3 → G} {k : ℕ}
variable {t : EncodedTable} {keys : List String} {keysVec : List ℕ} {timeA timeB windowId : String}
variable {a b w : ℕ} {gap : Word d} {M : Fin 3 → Memory 2 (2 ^ k) d} {V : Column → Vec (2 ^ k) d}

/-- **The window tells the sessions apart**: the rows of the table are there again, in some order,
and two rows of a group have the same window id exactly if there is no gap between their times. -/
def TellsSessions (t : EncodedTable) (keysVec : List ℕ) (b w : ℕ) (gap : Word d)
    (V : Column → Vec (2 ^ k) d) (out : Fin 3 → Memory 2 (2 ^ k) d) : Prop :=
  ∃ (σ : Equiv.Perm (Fin (2 ^ k))) (z : Vec (2 ^ k) d),
    (∀ c ∈ t.columns, c ≠ .b w → SharesC layout c (fun i => out i c) (arrange σ V c)) ∧
    SharesB layout (fun i => out i (.b w)) z ∧
    TellsApart (sameKeys keysVec (arrange σ V)) (fun r => (arrange σ V (.b b) r).toInt) gap.toInt z

/-- **In the order of time and keys the marks suffice.** -/
def MarksSufficeInOrder (keysVec : List ℕ) (b : ℕ) (gap : Word d) (V : Column → Vec (2 ^ k) d) :
    Prop :=
  ∀ σ : Equiv.Perm (Fin (2 ^ k)), (Monotone fun j => keyRow (sortingKeys keysVec b) V (σ j)) →
    MarksSuffice (sameKeys keysVec (arrange σ V)) (fun r => (arrange σ V (.b b) r).toInt) gap.toInt
      (AfterGap (arrange σ V (.b b)) gap) (reachedRows keysVec (arrange σ V) k)

omit [RandomGenerator G d] in
/-- The order of the rows determines their keys and times. -/
theorem arrange_unique {σ τ : Equiv.Perm (Fin (2 ^ k))}
    (hσ : Monotone fun j => keyRow (sortingKeys keysVec b) V (σ j))
    (hτ : Monotone fun j => keyRow (sortingKeys keysVec b) V (τ j)) :
    (∀ key ∈ keysVec, arrange σ V (.b key) = arrange τ V (.b key)) ∧
      arrange σ V (.b b) = arrange τ V (.b b) := by
  have hrows := Tuple.unique_monotone (f := keyRow (sortingKeys keysVec b) V) hσ hτ
  have hkey : ∀ key ∈ sortingVec keysVec b, arrange σ V (.b key) = arrange τ V (.b key) := by
    intro key hk
    funext j
    exact eq_of_keyRow_eq (congrFun hrows j) (List.mem_map_of_mem hk (f := (·, false)))
  refine ⟨fun key hk => hkey key ?_, hkey b List.mem_cons_self⟩
  by_cases h : key = b
  · exact h ▸ List.mem_cons_self
  · exact .tail _ (List.mem_filter.mpr ⟨hk, by simpa using h⟩)

omit [RandomGenerator G d] in
/-- One order of the rows is enough. -/
theorem marksSufficeInOrder_iff {σ : Equiv.Perm (Fin (2 ^ k))}
    (hσ : Monotone fun j => keyRow (sortingKeys keysVec b) V (σ j)) :
    MarksSufficeInOrder keysVec b gap V ↔
      MarksSuffice (sameKeys keysVec (arrange σ V)) (fun r => (arrange σ V (.b b) r).toInt)
        gap.toInt (AfterGap (arrange σ V (.b b)) gap) (reachedRows keysVec (arrange σ V) k) := by
  refine ⟨fun h => h σ hσ, fun hsuffice τ hτ => ?_⟩
  obtain ⟨hkeys, htime⟩ := arrange_unique hτ hσ
  rwa [sameKeys_congr hkeys, reachedRows_congr hkeys, htime]

omit [RandomGenerator G d] in
/-- The first sorting attribute is the time. -/
theorem monotone_time {σ : Equiv.Perm (Fin (2 ^ k))}
    (hσ : Monotone fun j => keyRow (sortingKeys keysVec b) V (σ j)) :
    Monotone fun r => (arrange σ V (.b b) r).toInt := by
  intro r s hrs
  exact not_lt.mp fun hlt => absurd (hσ hrs) (not_le.mpr (List.cons_lt_cons_iff.mpr (.inl hlt)))

theorem ensures_tellsSessions (hz : ZeroMasks d Good) (hg : Good g) (keys : List String)
    (keysVec : List ℕ) (timeA timeB windowId : String) (a b w : ℕ)
    (hM : Memory.Shares layout (· ∈ t.columns) M V) (hne : keys ≠ []) (hnodup : keys.Nodup)
    (hkeys : keys.map t.bShared = keysVec.map some) (ha : t.aShared timeA = some a)
    (hb : t.bShared timeB = some b) (hw : t.bShared windowId = some w) (hwkeys : windowId ∉ keys)
    (hwb : windowId ≠ timeB) (htime : V (.a a) = V (.b b)) (hgap : GapTimes (V (.b b)) gap)
    (pastEnd : Fin 3 → Fin 2 → Word d) :
    Ensures mode (fun i => sortedWindow (protocol d G i) t keys timeB keysVec a b w gap (pastEnd i)
        (M i)) g fun out _ _ =>
      TellsSessions t keysVec b w gap V out ↔ MarksSufficeInOrder keysVec b gap V := by
  have hP : Protocol.CorrectBits (protocol d G) layout 0 (fun _ => True) Good mode := correctBits hz
  refine (ensures_sortedWindow trivial hP hg rfl hM hne hnodup hkeys ha hb hw hwkeys hwb gap
    pastEnd (roomForRounds_zero _) (Nat.zero_le _)).mono fun out g' _ h => ?_
  obtain ⟨σ, hσ, hout⟩ := h
  have hcolumn : ∀ {name i}, t.bShared name = some i → Column.b i ∈ t.columns := fun h =>
    mem_columns.mpr ⟨_, bShared_eq_some.mp h⟩
  have hdiffer : ∀ {name i}, t.bShared name = some i → name ≠ windowId → Column.b i ≠ .b w :=
    fun h hname he => hname (name_unique (bShared_eq_some.mp h) (he ▸ bShared_eq_some.mp hw))
  have hkey : ∀ key ∈ keysVec, Column.b key ∈ t.columns ∧ Column.b key ≠ .b w := fun key hk => by
    obtain ⟨name, hname, he⟩ := List.mem_map.mp (hkeys ▸ List.mem_map_of_mem hk)
    exact ⟨hcolumn he, hdiffer he fun h => hwkeys (h ▸ hname)⟩
  have hrest : ∀ c ∈ t.columns, c ≠ .b w → SharesC layout c (fun i => out i c) (arrange σ V c) :=
    fun c hc hne => by simpa only [Function.update_of_ne hne] using hout c hc
  have hwin := hout (.b w) (hcolumn hw)
  rw [Function.update_self] at hwin
  -- what is told apart does not depend on the order, as the columns are shared
  have hunique : TellsSessions t keysVec b w gap V out ↔
      TellsApart (sameKeys keysVec (arrange σ V)) (fun r => (arrange σ V (.b b) r).toInt) gap.toInt
        (scan (extremum false) (partners true k) (linked keysVec (arrange σ V) fun _ => true) k
          fun j => if gapStart (arrange σ V (.a a)) gap j then arrange σ V (.b b) j else -1) := by
    constructor
    · rintro ⟨τ, z, hτ, hzw, hapart⟩
      have hsame : ∀ c ∈ t.columns, c ≠ .b w → arrange τ V c = arrange σ V c := fun c hc hne =>
        @Shares.unique (Word d) (c.ring d) 3 2 (2 ^ k) _ layout _ _ _ (hτ c hc hne) (hrest c hc hne)
      rwa [sameKeys_congr fun key hk => hsame _ (hkey key hk).1 (hkey key hk).2,
        hsame _ (hcolumn hb) (hdiffer hb hwb.symm), SharesB.unique hzw hwin] at hapart
    · exact fun hapart => ⟨σ, _, hrest, hwin, hapart⟩
  have htime' : arrange σ V (.a a) = arrange σ V (.b b) :=
    congrArg (fun v j => v (σ j)) htime
  have hgap' : GapTimes (arrange σ V (.b b)) gap :=
    ⟨fun r => hgap.nonneg _, hgap.gap_nonneg, fun r => hgap.bound _⟩
  rw [hunique, htime', tellsApart_iff_marksSuffice rfl hgap' (monotone_time hσ),
    marksSufficeInOrder_iff hσ]

omit [RandomGenerator G d] in
theorem ownedBy_sortedWindow {i : Fin 3} {P : Protocol 3 2 d G} (hP : Protocol.OwnedBy i P)
    (t : EncodedTable) (pastEnd : Fin 2 → Word d) (M : Memory 2 (2 ^ k) d) :
    OwnedBy i (sortedWindow P t keys timeB keysVec a b w gap pastEnd M) :=
  (ownedBy_bitonicSort hP _ _ _ _ _).bind fun _ => ownedBy_gapSessionWindow hP _ _ _ _ _ _ _

/-- **With its sorting, the gap session window tells the sessions apart exactly if the marks suffice
in the order of time and keys**, the attributes that it sorts by: the keys come last, so rows of
different keys interleave, a mark is lost where another row falls into the gap, and the maximum
reaches some rows of a group only. -/
theorem gapSessionWindow_tells_iff (hz : ZeroMasks d Good) (hg : Good g) (k : ℕ) (t : EncodedTable)
    (keys : List String) (keysVec : List ℕ) (timeA timeB windowId : String) (a b w : ℕ)
    (gap : Word d) (pastEnd : Fin 3 → Fin 2 → Word d) (hne : keys ≠ []) (hnodup : keys.Nodup)
    (hkeys : keys.map t.bShared = keysVec.map some) (ha : t.aShared timeA = some a)
    (hb : t.bShared timeB = some b) (hw : t.bShared windowId = some w) (hwkeys : windowId ∉ keys)
    (hwb : windowId ≠ timeB) (M : Fin 3 → Memory 2 (2 ^ k) d) (V : Column → Vec (2 ^ k) d)
    (hM : Memory.Shares layout (· ∈ t.columns) M V) (htime : V (.a a) = V (.b b))
    (hgap : GapTimes (V (.b b)) gap) :
    ∃ m : Fin 3 → PartyM 3 d G (Memory 2 (2 ^ k) d),
      (∀ i, t.gapSessionWindow (protocol d G i) keys timeA timeB windowId gap (pastEnd i) true (M i)
        = some (m i)) ∧
      (Finishes mode (fun i => (m i).run (g i))
        (fun out _ => TellsSessions t keysVec b w gap V fun i => (out i).1) ↔
        MarksSufficeInOrder keysVec b gap V) :=
  ⟨_, fun i => gapSessionWindow_eq (protocol d G i) rfl hkeys ha hb hw gap (pastEnd i) (M i),
    (ensures_tellsSessions hz hg keys keysVec timeA timeB windowId a b w hM hne hnodup hkeys ha
      hb hw hwkeys hwb htime hgap pastEnd).finishes_iff
      (fun i => ownedBy_sortedWindow (ownedBy_protocol i) _ _ _) fun _ _ h => h⟩

/-- A table with a key, its times in both encodings, and a window. -/
def sessionTable : EncodedTable where
  schema := [("T", .a 0), ("[K]", .b 0), ("[T]", .b 1), ("[W]", .b 2)]
  names_nodup := by decide
  columns_nodup := by decide

/-- Two groups, one after the other, the first row of each after a gap. -/
def grouped : Column → Vec 4 .int32_t
  | .b 0 => ![1, 1, 2, 2]
  | .b 1 => ![0, 1, 10, 11]
  | .a _ => ![0, 1, 10, 11]
  | .b _ => 0

theorem marksSufficeInOrder_grouped : MarksSufficeInOrder (k := 2) [0] 1 1 grouped := by
  have hrows : ∀ r s : Fin (2 ^ 2), r ≤ s → keyRow (sortingKeys [0] 1) grouped r
      ≤ keyRow (sortingKeys [0] 1) grouped s := by decide
  have hsorted : Monotone fun r => keyRow (sortingKeys [0] 1) grouped
      ((1 : Equiv.Perm (Fin (2 ^ 2))) r) := hrows
  refine (marksSufficeInOrder_iff hsorted).mpr ?_
  have hmarked : ∀ s, Opens (sameKeys [0] (arrange 1 grouped))
      (fun r : Fin (2 ^ 2) => (arrange 1 grouped (.b 1) r).toInt) (1 : Word .int32_t).toInt s →
        AfterGap (arrange 1 grouped (.b 1)) 1 s := by decide
  have hreached : ∀ s r : Fin (2 ^ 2), s ≤ r → sameKeys [0] (arrange 1 grouped) s r →
      s ∈ reachedRows (n := 2 ^ 2) [0] (arrange 1 grouped) 2 r := by decide
  exact ⟨fun _ hs _ _ => .inl (hmarked _ hs), fun h _ => hreached _ _ h.le h.group,
    fun h hs => absurd (hmarked _ h.opens) hs⟩

/-- The window tells their sessions apart. -/
theorem gapSessionWindow_tells_iff_grouped : ∃ m : Fin 3 → PartyM 3 .int32_t (Streams .int32_t)
      (Memory 2 4 .int32_t),
    (∀ i, sessionTable.gapSessionWindow (protocol .int32_t (Streams .int32_t) i) ["[K]"] "T" "[T]"
      "[W]" 1 0 true (fun c => plain (grouped c) i) = some (m i)) ∧
    Finishes .rendezvous (fun i => (m i).run (zeroStreams .int32_t i))
      fun out _ => TellsSessions (k := 2) sessionTable [0] 1 2 1 grouped fun i => (out i).1 := by
  exact (gapSessionWindow_tells_iff zeroMasks_streams zeroStreams_zero 2 sessionTable ["[K]"] [0]
    "T" "[T]" "[W]" 0 1 2 1 0 (by decide) (by decide) (by decide) (by decide) (by decide)
    (by decide) (by decide) (by decide) (fun i c => plain (grouped c) i) grouped
    (fun c _ => shares_plain c (grouped c)) rfl ⟨by decide, by decide, by decide⟩).imp
      fun m hm => ⟨hm.1, hm.2.mpr marksSufficeInOrder_grouped⟩

/-- Two groups whose rows alternate, every row within the gap of the one before, which is of the
other group. -/
def alternating : Column → Vec 4 .int32_t
  | .b 0 => ![1, 2, 1, 2]
  | .b 1 => ![0, 1, 2, 3]
  | .a _ => ![0, 1, 2, 3]
  | .b _ => 0

theorem not_marksSufficeInOrder_alternating :
    ¬ MarksSufficeInOrder (k := 2) [0] 1 1 alternating := by
  intro h
  have hsuffice := h 1 (by decide)
  -- row `2` begins a session that is not marked, and reaches the mark in row `0`
  have hopens : Opens (sameKeys [0] (arrange 1 alternating))
      (fun r : Fin (2 ^ 2) => (arrange 1 alternating (.b 1) r).toInt) (1 : Word .int32_t).toInt
        2 := by
    decide
  exact hsuffice.unreached (hopens.openedBy (sameKeys_equivalence _ _)) (by decide) 0 (by decide)
    (by decide)

/-- The two sessions of each group have the same window id there. -/
theorem gapSessionWindow_merges_alternating : ¬ ∃ m : Fin 3 → PartyM 3 .int32_t (Streams .int32_t)
      (Memory 2 4 .int32_t),
    (∀ i, sessionTable.gapSessionWindow (protocol .int32_t (Streams .int32_t) i) ["[K]"] "T" "[T]"
      "[W]" 1 0 true (fun c => plain (alternating c) i) = some (m i)) ∧
    Finishes .rendezvous (fun i => (m i).run (zeroStreams .int32_t i))
      fun out _ => TellsSessions (k := 2) sessionTable [0] 1 2 1 alternating fun i =>
        (out i).1 := by
  rintro ⟨m, hm, hf⟩
  have hrun : ∀ i, sessionTable.gapSessionWindow (protocol .int32_t (Streams .int32_t) i)
      ["[K]"] "T" "[T]" "[W]" 1 0 true (fun c => plain (alternating c) i) = some (sortedWindow
        (protocol .int32_t (Streams .int32_t) i) sessionTable ["[K]"] "[T]" [0] 0 1 2 1 0
        fun c => plain (alternating c) i) := fun i =>
    gapSessionWindow_eq (k := 2) _ rfl (by decide) (by decide) (by decide) (by decide) 1 0 _
  obtain rfl : m = _ := funext fun i => Option.some.inj ((hm i).symm.trans (hrun i))
  have htells : Ensures .rendezvous (fun i => sortedWindow (protocol .int32_t (Streams .int32_t) i)
      sessionTable ["[K]"] "[T]" [0] 0 1 2 1 0 fun c => plain (alternating c) i)
      (zeroStreams .int32_t) fun out _ _ =>
        TellsSessions (k := 2) sessionTable [0] 1 2 1 alternating
        out ↔ MarksSufficeInOrder (k := 2) [0] 1 1 alternating :=
    ensures_tellsSessions (k := 2) (t := sessionTable) (M := fun i c => plain (alternating c) i)
      (V := alternating) zeroMasks_streams zeroStreams_zero ["[K]"] [0] "T" "[T]" "[W]" 0 1 2
      (fun c _ => shares_plain c (alternating c)) (by decide) (by decide) (by decide) (by decide)
      (by decide) (by decide) (by decide) (by decide) rfl ⟨by decide, by decide, by decide⟩ 0
  exact not_marksSufficeInOrder_alternating ((htells.finishes_iff
    (fun i => ownedBy_sortedWindow (k := 2) (ownedBy_protocol i) _ _ _) fun _ _ h => h).mp hf)

end Tva.Replicated3pc
