import TvaMpc.Relational.Plaintext

/-!
# Relational/GroupedRows — what a sort, a window and an aggregation do together

A sort puts the rows of a group next to each other, for every first part of its keys
(`together_of_monotone`), and in such a group the next key ascends (`ascending_of_monotone`).  Then
the ids of a gap window tell the sessions of a group apart (`gapIds_eq_iff`), and an aggregation
gives every row the aggregate of the rows of its group from there on (`aggregate_scanRows`).
-/

namespace Tva.Relational

open Machinery Operators EncodedTable

variable {n k : ℕ} {d : DataType} {v v' : String → Vec n d} {keys : List String} {r s : Fin n}

theorem sameValues_equivalence (v : String → Vec n d) (keys : List String) :
    Equivalence (SameValues v keys) where
  refl _ := fun _ _ => rfl
  symm h := fun key hk => (h key hk).symm
  trans h h' := fun key hk => (h key hk).trans (h' key hk)

/-- Rows with equal values are contiguous. -/
def Together (v : String → Vec n d) (keys : List String) : Prop :=
  ∀ r s t : Fin n, r ≤ s → s ≤ t → SameValues v keys r t → SameValues v keys r s

theorem Together.linked (h : Together v keys) : Contiguous (LinkedRows v keys fun _ => true) where
  refl _ := ⟨fun _ _ => rfl, rfl, rfl⟩
  symm h := ⟨(sameValues_equivalence v keys).symm h.1, rfl, rfl⟩
  trans h h' := ⟨(sameValues_equivalence v keys).trans h.1 h'.1, rfl, rfl⟩
  between hrs hst hrt := ⟨h _ _ _ hrs hst hrt.1, rfl, rfl⟩

/-! ## Sorted rows -/

section Sorted

section Order

variable {α : Type*} [LinearOrder α] {l l' m m' : List α}

theorem cons_le_iff {x y : α} : x :: l ≤ y :: l' ↔ x < y ∨ x = y ∧ l ≤ l' := by
  rw [← not_lt, List.cons_lt_cons_iff, not_or, not_and, not_lt, not_lt]
  constructor
  · rintro ⟨hle, hrest⟩
    exact hle.lt_or_eq.imp_right fun he => ⟨he, hrest he.symm⟩
  · rintro (hlt | ⟨rfl, hle⟩)
    exacts [⟨hlt.le, fun he => absurd he hlt.ne'⟩, ⟨le_rfl, fun _ => hle⟩]

/-- What comes first decides, and what comes next decides between equals. -/
theorem append_le_append
    (h : l.length = l'.length) (hle : l ++ m ≤ l' ++ m') : l ≤ l' ∧ (l = l' → m ≤ m') := by
  induction l generalizing l' with
  | nil =>
    obtain rfl := List.length_eq_zero_iff.mp h.symm
    exact ⟨le_rfl, fun _ => hle⟩
  | cons x l ih =>
    obtain ⟨y, l', rfl⟩ :=
      List.exists_cons_of_length_eq_add_one (h.symm.trans (List.length_cons ..))
    rw [List.cons_append, List.cons_append, cons_le_iff] at hle
    rcases hle with hlt | ⟨rfl, hle⟩
    · exact ⟨cons_le_iff.mpr (.inl hlt), fun he => absurd (List.cons.inj he).1 hlt.ne⟩
    · obtain ⟨hle', hrest⟩ := ih (by simpa using h) hle
      exact ⟨cons_le_iff.mpr (.inr ⟨rfl, hle'⟩), fun he => hrest (List.cons.inj he).2⟩

end Order

/-- The key row, each key with its direction. -/
abbrev keysAt (v : String → Vec n d) (keys : List (String × Bool)) (j : Fin n) : List ℤ :=
  row Prod.snd (fun key => v key.1) keys j

variable {p q : List (String × Bool)}

theorem sameValues_iff : SameValues v (p.map Prod.fst) r s ↔ keysAt v p r = keysAt v p s := by
  simp only [SameValues, List.forall_mem_map, keysAt, row, List.map_inj_left, signed_inj]

theorem keysAt_append (j : Fin n) : keysAt v (p ++ q) j = keysAt v p j ++ keysAt v q j :=
  List.map_append

/-- **A sort leaves the rows in the order of its keys.** -/
theorem Sorts.monotone {moved : String → Prop} (h : Sorts v p moved v')
    (hmoved : ∀ key ∈ p, moved key.1) : Monotone (keysAt v' p) := by
  obtain ⟨σ, hσ, hv'⟩ := h
  have hrows : keysAt v' p = fun j => keysAt v p (σ j) := by
    ext1 j
    refine List.map_congr_left fun key hk => ?_
    simp only [(hv' key.1).1 (hmoved key hk)]
  rwa [hrows]

theorem keysAt_le (hmono : Monotone (keysAt v (p ++ q))) (hrs : r ≤ s) :
    keysAt v p r ≤ keysAt v p s ∧
      (keysAt v p r = keysAt v p s → keysAt v q r ≤ keysAt v q s) := by
  have hle := hmono hrs
  rw [keysAt_append, keysAt_append] at hle
  exact append_le_append (by simp [row]) hle

/-- **Groups by the first keys are contiguous.** -/
theorem together_of_monotone (hmono : Monotone (keysAt v (p ++ q))) :
    Together v (p.map Prod.fst) := by
  intro r s t hrs hst hrt
  rw [sameValues_iff] at hrt ⊢
  exact le_antisymm (keysAt_le hmono hrs).1 (hrt ▸ (keysAt_le hmono hst).1)

/-- **In a group by the first keys, the next key ascends.** -/
theorem ascending_of_monotone {key : String}
    (hmono : Monotone (keysAt v (p ++ (key, false) :: q))) (hrs : r ≤ s)
    (hsame : SameValues v (p.map Prod.fst) r s) : (v key r).toInt ≤ (v key s).toInt := by
  have hle := (keysAt_le hmono hrs).2 (sameValues_iff.mp hsame)
  rw [keysAt, row, List.map_cons, keysAt, row, List.map_cons, cons_le_iff] at hle
  rcases hle with hlt | ⟨he, -⟩
  exacts [hlt.le, he.le]

end Sorted

/-! ## Aggregates -/

/-- The rows of the group of `r` from `r` on, or up to `r`. -/
def rowsFrom (v : String → Vec n d) (keys : List String) (reverse : Bool) (r : Fin n) :
    Finset (Fin n) :=
  Finset.univ.filter fun s => SameValues v keys r s ∧ if reverse then s ≤ r else r ≤ s

theorem reach_rowsFrom (hn : n = 2 ^ k) (h : Together v keys) (reverse : Bool) (r : Fin n) :
    reach (partners reverse k) (LinkedRows v keys fun _ => true) k r
      = rowsFrom v keys reverse r := by
  ext s
  rw [rowsFrom, Finset.mem_filter]
  cases reverse with
  | false =>
    refine (h.linked.reach_ahead hn).trans ?_
    simp [LinkedRows]
  | true =>
    refine (h.linked.reach_behind hn).trans ?_
    simp [LinkedRows]

/-- **A scan of contiguous groups gives the aggregates** of the rows from every row on. -/
theorem aggregate_scanRows (a : Aggregation) (hn : n = 2 ^ k) (h : Together v keys)
    (reverse : Bool) (x : Vec n d) (r : Fin n) :
    a.Of x (rowsFrom v keys reverse r) (scanRows v a.op reverse keys (fun _ => true) x r) := by
  have hlog : Nat.log 2 n = k := by rw [hn, Nat.log_pow one_lt_two]
  rw [scanRows, hlog, ← reach_rowsFrom hn h]
  exact a.of_scan x _ reverse le_rfl r

/-! ## Sessions -/

section Sessions

variable {timeA timeB : String} {gap : Word d}

/-- The keys as numbered columns. -/
def numbered (v : String → Vec n d) (keys : List String) : Column → Vec n d :=
  fun c => v (keys.getD (Table.place c) "")

theorem sameKeys_numbered (v : String → Vec n d) (keys : List String) :
    sameKeys (List.range keys.length) (numbered v keys) = SameValues v keys := by
  ext r s
  simp only [sameKeys, SameValues, List.mem_range, numbered, Table.place]
  constructor
  · intro h key hkey
    obtain ⟨i, hi, rfl⟩ := List.getElem_of_mem hkey
    simpa only [List.getD_eq_getElem?_getD, List.getElem?_eq_getElem hi, Option.getD_some] using
      h i hi
  · intro h i hi
    rw [List.getD_eq_getElem _ _ hi]
    exact h _ (List.getElem_mem hi)

/-- **No gap between the rows `i` and `j`.** -/
def NoGapUpTo (time : Vec n d) (gap : Word d) (i j : Fin n) : Prop :=
  ∀ m m' : Fin n, i ≤ m → (m' : ℕ) = m + 1 → m' ≤ j → (time m').toInt - (time m).toInt ≤ gap.toInt

instance (time : Vec n d) (gap : Word d) : DecidableRel (NoGapUpTo time gap) :=
  fun i j => inferInstanceAs (Decidable (∀ m m' : Fin n, i ≤ m → _ → m' ≤ j → _))

/-- **The ids of a gap window tell the sessions of a group apart**, where groups are contiguous and
times ascend in a group. -/
theorem gapIds_eq_iff (hn : n = 2 ^ k) (h : Together v keys) (htime : v timeA = v timeB)
    (hgap : GapTimes (v timeB) gap)
    (hascending : ∀ r s, r ≤ s → SameValues v keys r s → (v timeB r).toInt ≤ (v timeB s).toInt)
    {i j : Fin n} (hij : i ≤ j) (hsame : SameValues v keys i j) :
    gapIds v keys timeA timeB gap i = gapIds v keys timeA timeB gap j ↔
      NoGapUpTo (v timeB) gap i j := by
  have hkeys := sameKeys_numbered v keys
  have hcontiguous : KeysContiguous (List.range keys.length) (numbered v keys) := by
    rw [KeysContiguous, hkeys]
    exact h
  obtain ⟨hmarking, hsuffice⟩ := hcontiguous.marksSuffice hgap fun r s => by
    rw [hkeys]
    exact hascending r s
  have hreach : reach back (LinkedRows v keys fun _ => true) k
      = groupRows (List.range keys.length) (numbered v keys) true := by
    ext r s
    refine (h.linked.reach_behind hn).trans ?_
    simp [LinkedRows, groupRows, hkeys]
  have hlog : Nat.log 2 n = k := by rw [hn, Nat.log_pow one_lt_two]
  have hlabels := (labels_iff hmarking
    (fun s => lt_of_lt_of_le (by norm_num : (-1 : ℤ) < 0) (hgap.nonneg s))
    fun r => hreach ▸ isGreatest_labels (v timeB) (gapStart (v timeB) gap)
      (LinkedRows v keys fun _ => true) r).mpr hsuffice
  have hiff := hlabels i j hij (hkeys ▸ hsame)
  rw [hcontiguous.unbroken_iff (hkeys ▸ hsame), BitVec.toInt_inj] at hiff
  rw [gapIds, scanRows, hlog, htime]
  exact hiff

end Sessions

end Tva.Relational
