import TvaMpc.Machinery.Loops
import TvaMpc.Operators.SortingCorrect
import TvaMpc.Operators.StreamingCorrect
import TvaMpc.Relational.EncodedTable

/-!
# Relational/EncodedTableCorrect — a sorted window is a window of the sorted table

The columns that a sort is given are all columns of the table, each once (`mem_table_sort`,
`nodup_sort`).  So a window with sorting is computed on the rows in the order of the attributes
(`ensures_gapSessionWindow`).
-/

namespace Tva.Relational

open Machinery Operators

namespace EncodedTable

variable {t : EncodedTable} {name x y : String} {c : Column} {i : ℕ}

theorem schemaAt_eq_some : t.schemaAt name = some c ↔ (name, c) ∈ t.schema := by
  constructor
  · intro h
    obtain ⟨p, hp, rfl⟩ := Option.map_eq_some_iff.mp h
    have hname : p.1 = name := by simpa using List.find?_some hp
    exact hname ▸ List.mem_of_find?_eq_some hp
  · intro h
    cases hfind : t.schema.find? (·.1 = name) with
    | none => exact absurd (decide_eq_true rfl) (List.find?_eq_none.mp hfind _ h)
    | some p =>
      -- a name has one column
      have hname : p.1 = name := by simpa using List.find?_some hfind
      have hp := List.inj_on_of_nodup_map t.names_nodup (List.mem_of_find?_eq_some hfind) h hname
      rw [schemaAt, hfind, hp]
      rfl

theorem bShared_eq_some : t.bShared name = some i ↔ (name, .b i) ∈ t.schema := by
  rw [bShared, ← schemaAt_eq_some]
  cases t.schemaAt name with
  | none => simp
  | some c => cases c <;> simp

theorem aShared_eq_some : t.aShared name = some i ↔ (name, .a i) ∈ t.schema := by
  rw [aShared, ← schemaAt_eq_some]
  cases t.schemaAt name with
  | none => simp
  | some c => cases c <;> simp

/-- A vector has one name. -/
theorem name_unique (hx : (x, c) ∈ t.schema) (hy : (y, c) ∈ t.schema) : x = y :=
  congrArg Prod.fst (List.inj_on_of_nodup_map t.columns_nodup hx hy rfl)

theorem mem_columns : c ∈ t.columns ↔ ∃ name, (name, c) ∈ t.schema := by
  simp [columns]

/-! ## The columns of a sort -/

section Columns

variable {keys : List String} {keysVec : List ℕ} {timeB : String} {b : ℕ}

/-- The vectors of the sorting attributes. -/
def sortingVec (keysVec : List ℕ) (b : ℕ) : List ℕ := b :: keysVec.filter (· ≠ b)

theorem bShared_sortingAttrs (hkeys : keys.map t.bShared = keysVec.map some)
    (hb : t.bShared timeB = some b) :
    (sortingAttrs keys timeB).map t.bShared = (sortingVec keysVec b).map some := by
  rw [sortingAttrs, sortingVec, List.map_cons, List.map_cons, hb]
  congr 1
  induction keys generalizing keysVec with
  | nil => cases keysVec with
    | nil => rfl
    | cons => exact absurd hkeys (by simp)
  | cons key keys ih =>
    cases keysVec with
    | nil => exact absurd hkeys (by simp)
    | cons i keysVec =>
      rw [List.map_cons, List.map_cons, List.cons.injEq] at hkeys
      have hsame : key = timeB ↔ i = b := by
        constructor
        · rintro rfl
          exact Option.some.inj (hkeys.1.symm.trans hb)
        · rintro rfl
          exact name_unique (bShared_eq_some.mp hkeys.1) (bShared_eq_some.mp hb)
      by_cases h : key = timeB
      · rw [List.filter_cons_of_neg (by simpa using h),
          List.filter_cons_of_neg (by simpa using hsame.mp h)]
        exact ih hkeys.2
      · rw [List.filter_cons_of_pos (by simpa using h),
          List.filter_cons_of_pos (by simpa using mt hsame.mpr h), List.map_cons, List.map_cons,
          hkeys.1, ih hkeys.2]

/-- The vectors of different names are different. -/
theorem nodup_of_bShared {vec : List ℕ} (hnodup : keys.Nodup)
    (hkeys : keys.map t.bShared = vec.map some) : vec.Nodup := by
  refine List.Nodup.of_map some ?_
  rw [← hkeys]
  refine List.Nodup.map_on (fun x hx y hy hxy => ?_) hnodup
  obtain ⟨i, -, hi⟩ := List.mem_map.mp (hkeys ▸ List.mem_map_of_mem hx)
  exact name_unique (bShared_eq_some.mp hi.symm) (bShared_eq_some.mp (hxy ▸ hi.symm))

variable {attrs cols : List String} {vec : List ℕ}

theorem mem_remaining : c ∈ t.remaining attrs cols ↔
    ∃ name, (name, c) ∈ t.schema ∧ name ∉ attrs ∧ name ∈ cols := by
  simp only [remaining, List.mem_map, List.mem_filter, decide_eq_true_eq, Prod.exists]
  constructor
  · rintro ⟨name, c', ⟨hmem, hattrs, hcols⟩, rfl⟩
    exact ⟨name, hmem, hattrs, hcols⟩
  · rintro ⟨name, hmem, hattrs, hcols⟩
    exact ⟨name, c, ⟨hmem, hattrs, hcols⟩, rfl⟩

theorem mem_dataA : i ∈ t.dataA attrs cols ↔ Column.a i ∈ t.remaining attrs cols := by
  rw [dataA, List.mem_filterMap]
  constructor
  · rintro ⟨c, hc, he⟩
    cases c with
    | a j => exact Option.some.inj he ▸ hc
    | b j => cases he
  · exact fun h => ⟨_, h, rfl⟩

theorem mem_dataB : i ∈ t.dataB attrs cols ↔ Column.b i ∈ t.remaining attrs cols := by
  rw [dataB, List.mem_filterMap]
  constructor
  · rintro ⟨c, hc, he⟩
    cases c with
    | a j => cases he
    | b j => exact Option.some.inj he ▸ hc
  · exact fun h => ⟨_, h, rfl⟩

theorem nodup_remaining (t : EncodedTable) (attrs cols : List String) :
    (t.remaining attrs cols).Nodup :=
  t.columns_nodup.sublist (List.filter_sublist.map _)

theorem nodup_dataA (t : EncodedTable) (attrs cols : List String) :
    (t.dataA attrs cols).Nodup := by
  refine List.Nodup.filterMap (fun c c' i hc hc' => ?_) (t.nodup_remaining attrs cols)
  cases c <;> cases c' <;> simp_all

theorem nodup_dataB (t : EncodedTable) (attrs cols : List String) :
    (t.dataB attrs cols).Nodup := by
  refine List.Nodup.filterMap (fun c c' i hc hc' => ?_) (t.nodup_remaining attrs cols)
  cases c <;> cases c' <;> simp_all

/-- **All boolean columns take part in a sort once**, … -/
theorem nodup_sort (hnodup : attrs.Nodup) (hattrs : attrs.map t.bShared = vec.map some) :
    (vec ++ t.dataB attrs cols).Nodup := by
  refine List.Nodup.append (nodup_of_bShared hnodup hattrs) (t.nodup_dataB attrs cols)
    fun i hi hi' => ?_
  obtain ⟨x, hx, hxi⟩ := List.mem_map.mp (hattrs ▸ List.mem_map_of_mem hi)
  obtain ⟨y, hy, hy', -⟩ := mem_remaining.mp (mem_dataB.mp hi')
  exact hy' (name_unique (bShared_eq_some.mp hxi) hy ▸ hx)

/-- … the columns that take part are the keys and those that are to be sorted, … -/
theorem mem_table (hattrs : attrs.map t.bShared = vec.map some) :
    c ∈ table vec (t.dataA attrs cols) (t.dataB attrs cols) ↔
      ∃ name, (name, c) ∈ t.schema ∧ (name ∈ attrs ∨ name ∈ cols) := by
  simp only [table, List.mem_append, List.mem_map, mem_dataA, mem_dataB]
  constructor
  · rintro ((⟨i, hi, rfl⟩ | ⟨i, hi, rfl⟩) | ⟨i, hi, rfl⟩)
    · obtain ⟨x, hx, hxi⟩ := List.mem_map.mp (hattrs ▸ List.mem_map_of_mem hi)
      exact ⟨x, bShared_eq_some.mp hxi, .inl hx⟩
    · obtain ⟨x, hx, -, hcols⟩ := mem_remaining.mp hi
      exact ⟨x, hx, .inr hcols⟩
    · obtain ⟨x, hx, -, hcols⟩ := mem_remaining.mp hi
      exact ⟨x, hx, .inr hcols⟩
  · rintro ⟨x, hx, hpart⟩
    by_cases hmem : x ∈ attrs
    · obtain ⟨i, hi, hxi⟩ := List.mem_map.mp (hattrs ▸ List.mem_map_of_mem hmem)
      have hb := bShared_eq_some.mp hxi.symm
      have hname := List.inj_on_of_nodup_map t.names_nodup hx hb rfl
      exact .inl (.inl ⟨i, hi, (congrArg Prod.snd hname).symm⟩)
    · have hrest := mem_remaining.mpr ⟨x, hx, hmem, hpart.resolve_left hmem⟩
      cases c with
      | a i => exact .inl (.inr ⟨i, hrest, rfl⟩)
      | b i => exact .inr ⟨i, hrest, rfl⟩

/-- … and in a sort of all columns those of the table. -/
theorem mem_table_sort (hattrs : attrs.map t.bShared = vec.map some) :
    c ∈ table vec (t.dataA attrs t.names) (t.dataB attrs t.names) ↔ c ∈ t.columns := by
  rw [mem_table hattrs, mem_columns]
  exact exists_congr fun name => and_iff_left_of_imp fun h => .inr (List.mem_map_of_mem h)

end Columns

/-! ## The window of the sorted table -/

section Window

variable {N ρ n least : ℕ} [NeZero N] {d : DataType} {G : Type} {keys : List String}
  {keysVec : List ℕ}
variable {timeA timeB windowId : String} {a b w : ℕ}

/-- The table with its rows in another order. -/
def arrange (σ : Equiv.Perm (Fin n)) (V : Column → Vec n d) : Column → Vec n d :=
  fun c j => V c (σ j)

/-- The keys that the rows are sorted by, all of them ascending. -/
def sortingKeys (keysVec : List ℕ) (b : ℕ) : List (ℕ × Bool) :=
  (sortingVec keysVec b).map (·, false)

/-- The window without its names. -/
def sortedWindow (P : Protocol N ρ d G) (t : EncodedTable) (keys : List String) (timeB : String)
    (keysVec : List ℕ) (a b w : ℕ) (gap : Word d) (pastEnd : Fin ρ → Word d) (M : Memory ρ n d) :
    PartyM N d G (Memory ρ n d) :=
  bitonicSort P ((sortingKeys keysVec b).map Prod.fst) (t.dataA (sortingAttrs keys timeB) t.names)
      (t.dataB (sortingAttrs keys timeB) t.names) ((sortingKeys keysVec b).map Prod.snd) M
    >>= Operators.gapSessionWindow P keysVec a b w gap pastEnd

theorem gapSessionWindow_eq (P : Protocol N ρ d G) {k : ℕ} (hn : n = 2 ^ k)
    (hkeys : keys.map t.bShared = keysVec.map some) (ha : t.aShared timeA = some a)
    (hb : t.bShared timeB = some b) (hw : t.bShared windowId = some w) (gap : Word d)
    (pastEnd : Fin ρ → Word d) (M : Memory ρ n d) :
    t.gapSessionWindow P keys timeA timeB windowId gap pastEnd true M
      = some (sortedWindow P t keys timeB keysVec a b w gap pastEnd M) := by
  have hattrs := bShared_sortingAttrs hkeys hb
  have hsize : Nat.clog 2 n = Nat.log 2 n := by
    rw [hn, Nat.clog_pow 2 k one_lt_two, Nat.log_pow one_lt_two]
  have hlength : (sortingAttrs keys timeB).length = (sortingVec keysVec b).length := by
    simpa using congrArg List.length hattrs
  have hdesc : ((sortingAttrs keys timeB).map fun _ => false)
      = (sortingKeys keysVec b).map Prod.snd := by
    rw [sortingKeys, List.map_map, List.map_const', hlength, ← List.map_const']
    rfl
  have hfst : (sortingKeys keysVec b).map Prod.fst = sortingVec keysVec b := by
    rw [sortingKeys, List.map_map]
    exact List.map_id _
  simp only [gapSessionWindow, sort, sortColumns, mapM_eq_some_iff.mpr hattrs,
    mapM_eq_some_iff.mpr hkeys, ha, hb, hw, hsize, hdesc, sortedWindow, hfst]
  rfl

variable [NeZero ρ] {layout : Fin N → Fin ρ → Fin N} {P : Fin N → Protocol N ρ d G}
variable {dataParty : Fin N → Prop} {Good : (Fin N → G) → Prop} {mode : SendMode}
variable {g : Fin N → G} {M : Fin N → Memory ρ n d} {V : Column → Vec n d}

/-- **The window is computed on the table in the order of its sorting attributes.** -/
theorem ensures_sortedWindow (hdata : dataParty 0)
    (hP : Protocol.CorrectBits P layout least dataParty Good mode) (hg : Good g) {k : ℕ}
    (hn : n = 2 ^ k) (hM : Memory.Shares layout (· ∈ t.columns) M V) (hne : keys ≠ [])
    (hnodup : keys.Nodup) (hkeys : keys.map t.bShared = keysVec.map some)
    (ha : t.aShared timeA = some a) (hb : t.bShared timeB = some b)
    (hw : t.bShared windowId = some w) (hwkeys : windowId ∉ keys) (hwb : windowId ≠ timeB)
    (gap : Word d) (pastEnd : Fin N → Fin ρ → Word d) (hroom : RoomForRounds least n)
    (hrows : least ≤ n - 1) :
    Ensures mode (fun i => sortedWindow (P i) t keys timeB keysVec a b w gap (pastEnd i) (M i)) g
      fun M' _ _ => ∃ σ : Equiv.Perm (Fin n),
        (Monotone fun j => keyRow (sortingKeys keysVec b) V (σ j)) ∧
        Memory.Shares layout (· ∈ t.columns) M' (Function.update (arrange σ V) (.b w)
          (scan (extremum false) (partners true k) (linked keysVec (arrange σ V) fun _ => true) k
            fun j => if gapStart (arrange σ V (.a a)) gap j then arrange σ V (.b b) j
              else -1)) := by
  have hattrs := bShared_sortingAttrs hkeys hb
  have hfst : (sortingKeys keysVec b).map Prod.fst = sortingVec keysVec b := by
    rw [sortingKeys, List.map_map]
    exact List.map_id _
  have hattrsNodup : (sortingAttrs keys timeB).Nodup :=
    List.nodup_cons.mpr ⟨by simp, hnodup.filter _⟩
  have hcolumns : ∀ {c}, c ∈ t.columns ↔ c ∈ table ((sortingKeys keysVec b).map Prod.fst)
      (t.dataA (sortingAttrs keys timeB) t.names) (t.dataB (sortingAttrs keys timeB) t.names) := by
    rw [hfst]
    exact (mem_table_sort hattrs).symm
  have hsorting : sortingKeys keysVec b ≠ [] := List.cons_ne_nil _ _
  have hsort := ensures_bitonicSort hn hP hg hM hsorting
    (by rw [hfst]; exact nodup_sort hattrsNodup hattrs) (t.nodup_dataA _ _) fun c hc =>
      hcolumns.mpr hc
  refine (hsort hroom).bind fun M₁ g₁ _ h => ?_
  obtain ⟨⟨σ, hM₁, hmono⟩, hg₁⟩ := h
  have harranged : Memory.Shares layout (· ∈ t.columns) M₁ (arrange σ V) := fun c hc => by
    have hc' := hM₁ c hc
    rwa [reorder, if_pos (hcolumns.mp hc)] at hc'
  have hmem : ∀ {name i}, t.bShared name = some i → Column.b i ∈ t.columns := fun h =>
    mem_columns.mpr ⟨_, bShared_eq_some.mp h⟩
  have hkey : ∀ key ∈ keysVec, ∃ name ∈ keys, t.bShared name = some key := fun key hk => by
    obtain ⟨name, hname, he⟩ := List.mem_map.mp (hkeys ▸ List.mem_map_of_mem hk)
    exact ⟨name, hname, he⟩
  have hkeysVec : keysVec ≠ [] := by
    rintro rfl
    exact hne (List.map_eq_nil_iff.mp hkeys)
  have hwin := ensures_gapSessionWindow hdata hP hg₁ hn harranged hkeysVec
    (fun key hk => (hkey key hk).elim fun _ h => hmem h.2)
    (fun h => (hkey w h).elim fun _ h => hwkeys (name_unique (bShared_eq_some.mp h.2)
      (bShared_eq_some.mp hw) ▸ h.1)) (mem_columns.mpr ⟨_, aShared_eq_some.mp ha⟩) (hmem hb)
    (fun h => hwb (name_unique (bShared_eq_some.mp hw) (h ▸ bShared_eq_some.mp hb))) gap pastEnd
    hroom hrows
  exact hwin.mono fun M' g' _ h => ⟨σ, hmono, fun c hc => h.1 c (.inr hc)⟩

end Window

end EncodedTable

end Tva.Relational
