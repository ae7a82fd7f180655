import TvaMpc.Relational.Represents

/-!
# Relational/MethodMeaning — every method does to the shares what it means

The parties stop together or run code that ends as the method means (`Computes`).  Methods look
their columns up by names, and the operators behind them know the columns by numbers: what holds of
the values by numbers is brought back to the names.
-/

namespace Tva.Relational

open Machinery Operators EncodedTable

variable {N ρ n least : ℕ} [NeZero ρ] {d : DataType} {G : Type} {layout : Fin N → Fin ρ → Fin N}

/-- **The parties stop, or they run code that ensures `Q`.** -/
def Computes {α : Type} (mode : SendMode) (g : Fin N → G)
    (f : Fin N → Except Halt (PartyM N d G α)) (Q : (Fin N → α) → (Fin N → G) → Prop) : Prop :=
  (∀ i, f i = .error .stops) ∨ ∃ m, (∀ i, f i = .ok (m i)) ∧
    (Ensures mode m g fun a g' _ => Q a g') ∧ ∀ i, OwnedBy i (m i)

namespace Computes

variable {α β : Type} {mode : SendMode} {g : Fin N → G}
variable {f : Fin N → Except Halt (PartyM N d G α)} {Q : (Fin N → α) → (Fin N → G) → Prop}
variable {R : (Fin N → β) → (Fin N → G) → Prop}

theorem ok {m : Fin N → PartyM N d G α} (hm : Ensures mode m g fun a g' _ => Q a g')
    (hown : ∀ i, OwnedBy i (m i)) : Computes mode g (fun i => .ok (m i)) Q :=
  .inr ⟨m, fun _ => rfl, hm, hown⟩

/-- What is looked up does not depend on the party. -/
theorem lookup {γ : Type} {o : Option γ} {k : Fin N → γ → Except Halt (PartyM N d G α)}
    (hk : ∀ a, o = some a → Computes mode g (fun i => k i a) Q) :
    Computes mode g (fun i => asserted o >>= k i) Q := by
  cases o with
  | none => exact .inl fun _ => rfl
  | some a => exact hk a rfl

theorem bind (hf : Computes mode g f Q)
    {k : Fin N → PartyM N d G α → Except Halt (PartyM N d G β)}
    (hk : ∀ m, (Ensures mode m g fun a g' _ => Q a g') → (∀ i, OwnedBy i (m i)) →
      Computes mode g (fun i => k i (m i)) R) : Computes mode g (fun i => f i >>= k i) R := by
  rcases hf with hstops | ⟨m, hm, hens, hown⟩
  · simp only [hstops]
    exact .inl fun _ => rfl
  · simp only [hm]
    exact hk m hens hown

/-- Code after code. -/
theorem then_ok {m : Fin N → PartyM N d G α} {k : Fin N → α → PartyM N d G β}
    (hm : Ensures mode m g fun a g' _ => Q a g') (hown : ∀ i, OwnedBy i (m i))
    (hk : ∀ a g', Q a g' → Ensures mode (fun i => k i (a i)) g' fun b g'' _ => R b g'')
    (hkown : ∀ i a, OwnedBy i (k i a)) : Computes mode g (fun i => .ok (m i >>= k i)) R :=
  .ok (hm.bind fun a g' _ h => (hk a g' h).mono fun _ _ _ => id) fun i =>
    (hown i).bind (hkown i)

theorem mono (hf : Computes mode g f Q) {Q' : (Fin N → α) → (Fin N → G) → Prop}
    (h : ∀ a g', Q a g' → Q' a g') : Computes mode g f Q' :=
  hf.imp_right fun ⟨m, hm, hens, hown⟩ => ⟨m, hm, hens.mono fun a g' _ => h a g', hown⟩

end Computes

section Calls

variable {P : Fin N → Protocol N ρ d G} {dataParty : Fin N → Prop} {Good : (Fin N → G) → Prop}
variable {mode : SendMode} {g : Fin N → G} {t : Table N ρ d} {value : String → Vec n d}
variable {keys : List String} {keysVec : List ℕ}

/-- The memory holds values that have the property `Q`. -/
def HoldsValues (layout : Fin N → Fin ρ → Fin N) (Good : (Fin N → G) → Prop) (t : Table N ρ d)
    (Q : (String → Vec n d) → Prop) (M : Fin N → Memory ρ n d) (g : Fin N → G) : Prop :=
  (∃ value, Q value ∧ Memory.Shares layout (· ∈ t.view.columns) M (t.valuation value)) ∧ Good g

/-! ## Names and numbers -/

omit [NeZero ρ] in
theorem mem_schema_of_bShared {name : String} {i : ℕ} (h : t.view.bShared name = some i) :
    (name, Column.b i) ∈ t.view.schema := bShared_eq_some.mp h

omit [NeZero ρ] in
theorem mem_columns_of_schema {name : String} {c : Column} (h : (name, c) ∈ t.view.schema) :
    c ∈ t.view.columns := EncodedTable.mem_columns.mpr ⟨name, h⟩

section Keys

variable (hkeys : keys.map t.view.bShared = keysVec.map some)
include hkeys

omit [NeZero ρ]

theorem related_keys :
    List.Forall₂ (fun key i => (key, Column.b i) ∈ t.view.schema) keys keysVec :=
  (related_of_mapM hkeys).imp fun _ _ h => mem_schema_of_bShared h

theorem live_keys : ∀ i ∈ keysVec, Column.b i ∈ t.view.columns := fun i hi => by
  obtain ⟨key, -, hkey⟩ := exists_left (related_keys hkeys) hi
  exact mem_columns_of_schema hkey

/-- A key has the name of its column. -/
theorem mem_keys_iff {name : String} {i : ℕ} (h : (name, Column.b i) ∈ t.view.schema) :
    i ∈ keysVec ↔ name ∈ keys := by
  constructor
  · intro hi
    obtain ⟨key, hkey, hschema⟩ := exists_left (related_keys hkeys) hi
    exact name_unique hschema h ▸ hkey
  · intro hname
    obtain ⟨i', hi', hschema⟩ := exists_right (related_keys hkeys) hname
    have hsame := List.inj_on_of_nodup_map t.view.names_nodup h hschema rfl
    exact Column.b.inj (congrArg Prod.snd hsame) ▸ hi'

theorem keys_eq_nil_iff : keysVec = [] ↔ keys = [] := by
  have hlength := (related_keys hkeys).length_eq
  rw [← List.length_eq_zero_iff, ← List.length_eq_zero_iff, hlength]

theorem sameKeys_iff (r s : Fin n) :
    sameKeys keysVec (t.valuation value) r s ↔ SameValues value keys r s := by
  constructor
  · intro h key hkey
    obtain ⟨i, hi, hschema⟩ := exists_right (related_keys hkeys) hkey
    have hsame := h i hi
    rwa [Table.valuation_name value hschema] at hsame
  · intro h i hi
    obtain ⟨key, hkey, hschema⟩ := exists_left (related_keys hkeys) hi
    rw [Table.valuation_name value hschema]
    exact h key hkey

theorem keyRow_eq (desc : List Bool) (j : Fin n) :
    keyRow (keysVec.zip desc) (t.valuation value) j
      = row Prod.snd (fun key => value key.1) (keys.zip desc) j := by
  have hdescs : List.Forall₂ (· = ·) desc desc := List.forall₂_refl desc
  have hzip := related_zip (related_keys hkeys) hdescs
  rw [keyRow, row, row, ← List.forall₂_eq_eq_eq, List.forall₂_map_left_iff,
    List.forall₂_map_right_iff]
  refine hzip.flip.imp fun q p h => ?_
  have hdesc : p.2 = q.2 := h.2
  rw [Table.valuation_name value h.1, hdesc]

/-- **The scan by numbers is the scan by names.** -/
theorem scanRows_eq {k : ℕ} (hn : n = 2 ^ k) (op : Word d → Word d → Word d) (reverse : Bool)
    (b : Fin n → Bool) (x : Vec n d) :
    scan op (partners reverse k) (linked keysVec (t.valuation value) b) k x
      = scanRows value op reverse keys b x := by
  have hlink : linked keysVec (t.valuation value) b = LinkedRows value keys b := by
    ext r s
    exact and_congr_left' (sameKeys_iff hkeys r s)
  have hlog : Nat.log 2 n = k := by rw [hn, Nat.log_pow one_lt_two]
  rw [scanRows, hlog]
  congr!

end Keys

/-! ## Sorting -/

section Methods

variable {top : Word d → Word d} (hP : ComparesWithin top P layout least dataParty Good mode)
variable (hown : ∀ i, Protocol.OwnedBy i (P i)) {M : Fin N → Memory ρ n d} {u : String → Vec n d}
variable {Q : (String → Vec n d) → Prop}

theorem shares_update {name : String} {c : Column} (h : (name, c) ∈ t.view.schema) {z : Vec n d}
    (hM : Memory.Shares layout (fun c' => c' = c ∨ c' ∈ t.view.columns) M
      (Function.update (t.valuation u) c z)) :
    Memory.Shares layout (· ∈ t.view.columns) M (t.valuation (Function.update u name z)) := by
  intro c' hc'
  rw [Table.valuation_update u h hc']
  exact hM c' (.inr hc')

omit [NeZero ρ] in
/-- The assertions of a sort may come first. -/
theorem sortAsserted_eq (t : EncodedTable) (Q : Protocol N ρ d G) (keys : List String)
    (desc : List Bool) (cols : List String) (M : Memory ρ n d) :
    t.sortAsserted Q keys desc cols M = (do
      asserted (guard (keys ≠ [] ∧ (1 < n → desc.length = keys.length)))
      asserted (t.sortColumns Q keys desc cols M)) := by
  rw [sortAsserted]
  by_cases h : keys ≠ [] ∧ (1 < n → desc.length = keys.length)
  · rw [guard, if_pos h]
    cases t.sortColumns Q keys desc cols M <;> rfl
  · rw [guard, if_neg h]
    cases t.sortColumns Q keys desc cols M <;> rfl

section Sorted

include hP hown

theorem computes_sortColumns (hg : Good g)
    (hM : Memory.Shares layout (· ∈ t.view.columns) M (t.valuation value)) {k : ℕ} (hn : n = 2 ^ k)
    (hwithin : ValuesWithin top value keys) (hne : keys ≠ []) (hnodup : keys.Nodup)
    {desc : List Bool} (hdesc : desc.length = keys.length) (cols : List String)
    {moved : String → Prop}
    (hmoved : ∀ {name c}, (name, c) ∈ t.view.schema → (moved name ↔ name ∈ keys ∨ name ∈ cols))
    (hroom : RoomForRounds least n) :
    Computes mode g (fun i => asserted (t.view.sortColumns (P i) keys desc cols (M i)))
      (HoldsValues layout Good t (Sorts value (keys.zip desc) moved)) := by
  simp only [sortColumns, asserted_bind]
  refine .lookup fun _ _ => .lookup fun keysVec hmapM => .ok ?_ fun i =>
    ownedBy_bitonicSort (hown i) keysVec _ _ desc _
  have hkeys := mapM_eq_some_iff.mp hmapM
  have hlength : desc.length = keysVec.length := hdesc.trans (related_keys hkeys).length_eq
  have hfst : (keysVec.zip desc).map Prod.fst = keysVec := List.map_fst_zip hlength.ge
  have hsnd : (keysVec.zip desc).map Prod.snd = desc := List.map_snd_zip hlength.le
  have hnil : keysVec.zip desc ≠ [] := fun h => by
    rw [h, List.map_nil] at hfst
    exact hne ((keys_eq_nil_iff hkeys).mp hfst.symm)
  have hB : ((keysVec.zip desc).map Prod.fst ++ t.view.dataB keys cols).Nodup :=
    hfst.symm ▸ nodup_sort hnodup hkeys
  have hsort := ensures_bitonicSort_within hn hP hg hM hnil hB (t.view.nodup_dataA keys cols)
    fun c hc => by
      rw [hfst] at hc
      obtain ⟨name, hname, -⟩ := (mem_table hkeys).mp hc
      exact mem_columns_of_schema hname
  have hkeysWithin : KeysWithin top (keysVec.zip desc) (t.valuation value) := by
    intro key hkey r s
    obtain ⟨name, hname, hschema⟩ := exists_left (related_keys hkeys) (List.of_mem_zip hkey).1
    rw [Table.valuation_name value hschema]
    exact hwithin name hname r s
  rw [hfst, hsnd] at hsort
  refine (hsort hroom).mono fun M' g' _ h => ?_
  obtain ⟨⟨σ, hM', hmono⟩, hg'⟩ := h
  replace hmono := hmono hkeysWithin
  simp only [keyRow_eq hkeys] at hmono
  classical
  refine ⟨⟨fun name => if moved name then fun j => value name (σ j) else value name,
    ⟨σ, hmono, fun name => ⟨fun h => if_pos h, fun h => if_neg h⟩⟩, fun c hc => ?_⟩, hg'⟩
  obtain ⟨name, hname⟩ := EncodedTable.mem_columns.mp hc
  have hpart : c ∈ table keysVec (t.view.dataA keys cols) (t.view.dataB keys cols) ↔
      moved name := by
    rw [mem_table hkeys, hmoved hname]
    constructor
    · rintro ⟨name', hname', h⟩
      exact name_unique hname' hname ▸ h
    · exact fun h => ⟨name, hname, h⟩
  have hc' := hM' c hc
  rw [reorder] at hc'
  rw [Table.valuation_name _ hname]
  simp only [hpart, Table.valuation_name value hname] at hc'
  exact hc'

theorem computes_sortAsserted (hg : Good g)
    (hM : Memory.Shares layout (· ∈ t.view.columns) M (t.valuation value)) {k : ℕ} (hn : n = 2 ^ k)
    (hwithin : ValuesWithin top value keys) (hnodup : keys.Nodup) {desc : List Bool}
    (hdesc : desc.length = keys.length) (cols : List String) {moved : String → Prop}
    (hmoved : ∀ {name c}, (name, c) ∈ t.view.schema → (moved name ↔ name ∈ keys ∨ name ∈ cols))
    (hroom : RoomForRounds least n) :
    Computes mode g (fun i => t.view.sortAsserted (P i) keys desc cols (M i))
      (HoldsValues layout Good t (Sorts value (keys.zip desc) moved)) := by
  simp only [sortAsserted_eq]
  refine .lookup fun _ hguard => ?_
  exact computes_sortColumns hP hown hg hM hn hwithin ((Option.guard_eq_some' _).mp hguard).1
    hnodup hdesc cols hmoved hroom

end Sorted

omit [NeZero ρ] in
/-- A sort of all columns moves all values. -/
theorem moved_all {name : String} {c : Column} (h : (name, c) ∈ t.view.schema) :
    True ↔ name ∈ keys ∨ name ∈ t.view.names :=
  iff_of_true trivial (.inr (List.mem_map_of_mem h))

/-- `if (_do_sorting)`. -/
theorem computes_sortFirst (doSorting : Bool)
    {f : Fin N → Except Halt (PartyM N d G (Memory ρ n d))} (hg : Good g)
    (hM : Memory.Shares layout (· ∈ t.view.columns) M (t.valuation value))
    (hf : doSorting = true → Computes mode g f
      (HoldsValues layout Good t (Sorts value (keys.map (·, false)) fun _ => True))) :
    Computes mode g (fun i => sortFirst doSorting (f i) (M i))
      (HoldsValues layout Good t (SortsFirst value doSorting keys)) := by
  cases doSorting with
  | false => exact .ok (Ensures.pure ⟨⟨value, rfl, hM⟩, hg⟩) fun _ => .pure _
  | true => exact hf rfl

/-! ## Aggregation -/

section Aggregation

variable {kind : SVector} {names res data : List String} {vec : List ℕ} {V : Column → Vec n d}

omit [NeZero ρ] in
theorem shared_eq_some {t : EncodedTable} {name : String} {i : ℕ} :
    t.shared kind name = some i ↔ (name, kind.column i) ∈ t.schema := by
  cases kind
  exacts [aShared_eq_some, bShared_eq_some]

omit [NeZero ρ] in
theorem nodup_of_shared {t : EncodedTable} (hnodup : names.Nodup)
    (h : names.map (t.shared kind) = vec.map some) : vec.Nodup := by
  refine List.Nodup.of_map some ?_
  rw [← h]
  refine List.Nodup.map_on (fun x hx y hy hxy => ?_) hnodup
  obtain ⟨i, -, hi⟩ := List.mem_map.mp (h ▸ List.mem_map_of_mem hx)
  exact name_unique (shared_eq_some.mp hi.symm) (shared_eq_some.mp (hxy ▸ hi.symm))

/-- The values of the names, from those of the columns. -/
def readBack (t : Table N ρ d) (V : Column → Vec n d) (v : String → Vec n d) : String → Vec n d :=
  fun name => match t.find name with
    | some j => V (t.column j)
    | none => v name

omit [NeZero ρ] in
theorem readBack_name {v : String → Vec n d} {name : String} {c : Column}
    (h : (name, c) ∈ t.view.schema) : readBack t V v name = V c := by
  obtain ⟨j, hj, rfl⟩ := Table.mem_schema.mp h
  rw [readBack, Table.find_eq_some_iff.mpr hj]

omit [NeZero ρ] in
theorem valuation_readBack {v : String → Vec n d} {c : Column} (hc : c ∈ t.view.columns) :
    t.valuation (readBack t V v) c = V c := by
  obtain ⟨name, h⟩ := EncodedTable.mem_columns.mp hc
  rw [Table.valuation_name _ h, readBack_name h]

omit [NeZero ρ] in
/-- What no column has changed has no name changed. -/
theorem readBack_of_eq {v : String → Vec n d} {name : String}
    (h : ∀ c, (name, c) ∈ t.view.schema → V c = t.valuation v c) :
    readBack t V v name = v name := by
  cases hfind : t.find name with
  | none => rw [readBack, hfind]
  | some j =>
    have hj : (name, t.column j) ∈ t.view.schema :=
      Table.mem_schema.mpr ⟨j, Table.find_eq_some_iff.mp hfind, rfl⟩
    rw [readBack_name hj, h _ hj, Table.valuation_name v hj]

omit [NeZero ρ] in
/-- The objects are distinct if the names are. -/
theorem distinct_of_names {t : EncodedTable} {dataVec resVec : List ℕ}
    (hkeys : keys.map t.bShared = keysVec.map some)
    (hdataVec : data.map (t.shared kind) = dataVec.map some)
    (hresVec : res.map (t.shared kind) = resVec.map some) (hlength : data.length = res.length)
    (hne : data ≠ []) (hres : res.Nodup)
    (hfresh : ∀ p ∈ data.zip res, p.1 = p.2 ∨ p.2 ∉ data ∧ p.2 ∉ keys) :
    Distinct kind keysVec dataVec resVec := by
  have hdataRel := related_of_mapM hdataVec
  have hresRel := related_of_mapM hresVec
  have hnonempty : dataVec ≠ [] := List.length_pos_iff.mp <|
    hdataRel.length_eq ▸ List.length_pos_iff.mpr hne
  refine ⟨hnonempty, hdataRel.length_eq.symm.trans (hlength.trans hresRel.length_eq),
    nodup_of_shared hres hresVec, fun q hq => ?_⟩
  obtain ⟨p, hp, hsource, hresult⟩ := exists_left (related_zip hdataRel hresRel) hq
  rw [shared_eq_some] at hsource hresult
  rcases hfresh p hp with hsame | ⟨hdata, hkey⟩
  · left
    rw [hsame] at hsource
    have hcol := List.inj_on_of_nodup_map t.names_nodup hsource hresult rfl
    exact column_injective kind (congrArg Prod.snd hcol)
  · refine .inr ⟨fun hmem => hdata ?_, fun hmem => hkey ?_⟩
    · obtain ⟨name, hname, hschema⟩ := exists_left hdataRel hmem
      exact name_unique (shared_eq_some.mp hschema) hresult ▸ hname
    · obtain ⟨i, hi, hcol⟩ := List.mem_map.mp hmem
      obtain ⟨key, hkey', hschema⟩ := exists_left (related_of_mapM hkeys) hi
      rw [← hcol] at hresult
      exact name_unique (bShared_eq_some.mp hschema) hresult ▸ hkey'

omit [NeZero ρ] in
theorem op_idem_of_key (a : Aggregation) {r : ℕ}
    (h : a.kind.column r ∈ keysVec.map Column.b) (x : Word d) : a.op x x = x := by
  cases a with
  | sum => simp [Aggregation.kind, SVector.column] at h
  | max => exact extremum_self false x
  | min => exact extremum_self true x

include hP hown

/-- **The aggregation on named columns.** -/
theorem computes_aggregation [NeZero N] (hdata : dataParty 0)
    (hkeys : keys.map t.view.bShared = keysVec.map some) (hne : keys ≠ []) {k : ℕ} (hn : n = 2 ^ k)
    (a : Aggregation) (hres : res.Nodup)
    (hfresh : ∀ p ∈ data.zip res, p.1 = p.2 ∨ p.2 ∉ data ∧ p.2 ∉ keys) (reverse : Bool)
    {m : Fin N → PartyM N d G (Memory ρ n d)}
    (hm : Ensures mode m g fun M' g' _ => HoldsValues layout Good t Q M' g')
    (hmown : ∀ i, OwnedBy i (m i)) (hroom : RoomForRounds least n) : Computes mode g (fun i => do
        asserted (guard (data.length = res.length ∧ data ≠ []))
        let dataVec ← asserted (data.mapM (t.view.shared a.kind))
        let resVec ← asserted (res.mapM (t.view.shared a.kind))
        return m i >>= Operators.oddEvenAggregation (P i) a.kind keysVec dataVec resVec
          (a.function (P i)) reverse none)
      (HoldsValues layout Good t fun v => ∃ u, Q u ∧
        Aggregates u a reverse keys (data.zip res) v) := by
  refine .lookup fun _ hguard => .lookup fun dataVec hdataVec => .lookup fun resVec hresVec =>
    .then_ok hm hmown (fun M g' h => ?_) fun i _ =>
      ownedBy_oddEvenAggregation (hown i) a.kind _ _ _ (a.ownedBy_function (hown i)) reverse none _
  obtain ⟨hlength, hdata'⟩ := (Option.guard_eq_some' _).mp hguard
  rw [mapM_eq_some_iff] at hdataVec hresVec
  obtain ⟨⟨u, hu, hM⟩, hg'⟩ := h
  have hdist := distinct_of_names hkeys hdataVec hresVec hlength hdata' hres hfresh
  have hrel := related_zip (related_of_mapM hdataVec) (related_of_mapM hresVec)
  have hlive : ∀ i ∈ dataVec, a.kind.column i ∈ t.view.columns := fun i hi => by
    obtain ⟨name, -, hname⟩ := exists_left (related_of_mapM hdataVec) hi
    exact mem_columns_of_schema (shared_eq_some.mp hname)
  have hkeysVec : keysVec ≠ [] := fun h => hne ((keys_eq_nil_iff hkeys).mp h)
  have hsel : Selects layout (none : Option (Fin N → EVector ρ n d)) fun _ => true := fun _ => rfl
  refine (ensures_oddEvenAggregation_bits hdata hP.toKeepsKind (a.combines_bits hP.toKeepsKind) hg'
    hM hn hkeysVec (live_keys hkeys) hlive hdist (fun r _ hr => op_idem_of_key a hr) reverse
    hsel hroom).mono fun M' g'' _ h => ?_
  obtain ⟨⟨V', hM', hvalues, hother⟩, hg''⟩ := h
  refine ⟨⟨readBack t V' u, ⟨u, hu, fun p hp => ?_, fun name hname => ?_⟩, fun c hc => ?_⟩, hg''⟩
  · obtain ⟨q, hq, hsource, hresult⟩ := exists_right hrel hp
    rw [shared_eq_some] at hsource hresult
    rw [readBack_name hresult, hvalues q hq, Table.valuation_name u hsource]
    exact scanRows_eq hkeys hn _ reverse _ _
  · refine readBack_of_eq fun c hc => hother c fun hmem => hname ?_
    obtain ⟨r, hr, rfl⟩ := List.mem_map.mp hmem
    obtain ⟨name', hname', hschema⟩ := exists_left (related_of_mapM hresVec) hr
    rw [List.map_snd_zip hlength.ge]
    exact name_unique (shared_eq_some.mp hschema) hc ▸ hname'
  · rw [valuation_readBack hc]
    exact hM' c (.inl hc)

end Aggregation

/-! ## The other methods -/

section Others

variable {timeA timeB windowId inputA inputB outputA outputB functionRes : String} {k : ℕ}

omit [NeZero ρ] in
theorem downcast_stops {t : EncodedTable} {kind : SVector} {name : String}
    (h : t.schemaAt name = none) : t.downcast kind name = .error .stops := by
  cases kind <;> simp [downcast, h]

omit [NeZero ρ] in
theorem downcast_ok {t : EncodedTable} {kind : SVector} {name : String} {i : ℕ}
    (h : t.schemaAt name = some (kind.column i)) : t.downcast kind name = .ok i := by
  cases kind <;> simp [downcast, h, SVector.column]

omit [NeZero ρ] in
/-- **A cast to the class of the name.** -/
theorem Computes.downcast {α : Type} {t : EncodedTable} {kind : SVector} {name : String}
    (hkind : ∀ c, (name, c) ∈ t.schema → ∃ i, c = kind.column i)
    {f : Fin N → ℕ → Except Halt (PartyM N d G α)} {R : (Fin N → α) → (Fin N → G) → Prop}
    (hf : ∀ i, (name, kind.column i) ∈ t.schema → Computes mode g (fun p => f p i) R) :
    Computes mode g (fun p => t.downcast kind name >>= f p) R := by
  cases h : t.schemaAt name with
  | none =>
    rw [downcast_stops h]
    exact .inl fun _ => rfl
  | some c =>
    have hc := schemaAt_eq_some.mp h
    obtain ⟨i, rfl⟩ := hkind c hc
    rw [downcast_ok h]
    exact hf i hc

/-- A column whose vector is computed from another one. -/
theorem computes_column (hM : Memory.Shares layout (· ∈ t.view.columns) M (t.valuation value))
    {output : String} {c : Column} (houtput : (output, c) ∈ t.view.schema)
    {m : Fin N → PartyM N d G (EVector ρ n d)} {Z : Vec n d → Prop}
    (hm : Ensures mode m g fun z g' _ => (∃ w, Z w ∧ SharesC layout c z w) ∧ Good g')
    (hmown : ∀ i, OwnedBy i (m i)) (hQ : ∀ w, Z w → Q (Function.update value output w)) :
    Computes mode g (fun i => .ok (m i >>= fun z => return Function.update (M i) c z))
      (HoldsValues layout Good t Q) := by
  refine .ok (hm.bind fun z g' _ h => Ensures.pure ?_) fun i => (hmown i).bind fun _ => .pure _
  obtain ⟨⟨w, hw, hz⟩, hg'⟩ := h
  exact ⟨⟨_, hQ w hw, shares_update houtput (hM.assign hz)⟩, hg'⟩

variable (hg : Good g) (hM : Memory.Shares layout (· ∈ t.view.columns) M (t.valuation value))
variable (hkind : ∀ {name c}, (name, c) ∈ t.view.schema →
  if isBShared name then ∃ i, c = .b i else ∃ i, c = .a i)

omit [NeZero ρ] in
include hkind in
theorem kind_b {name : String} (h : isBShared name = true) (c : Column)
    (hc : (name, c) ∈ t.view.schema) : ∃ i, c = SVector.bSharedVector.column i := by
  have hclass := hkind hc
  rwa [if_pos h] at hclass

omit [NeZero ρ] in
include hkind in
theorem kind_a {name : String} (h : isBShared name = false) (c : Column)
    (hc : (name, c) ∈ t.view.schema) : ∃ i, c = SVector.aSharedVector.column i := by
  have hclass := hkind hc
  rwa [h, if_neg Bool.false_ne_true] at hclass

include hP hown hg hM

include hkind in
theorem computes_convertA2b (hA : isBShared inputA = false) (hB : isBShared outputB = true)
    (hrows : least ≤ n) :
    Computes mode g (fun i => t.view.convertA2b (P i) inputA outputB (M i))
      (HoldsValues layout Good t fun v => v = Function.update value outputB (value inputA)) := by
  refine .downcast (kind_a hkind hA) fun a ha => .downcast (kind_b hkind hB) fun b hb => ?_
  have hin : SharesA layout (fun i => M i (.a a)) (value inputA) :=
    Table.valuation_name value ha ▸ hM _ (mem_columns_of_schema ha)
  have hconv := hP.ensures_a2b hg hin hrows
  exact computes_column (Z := (· = value inputA)) hM hb
    (hconv.mono fun z g' _ h => ⟨⟨_, rfl, h.1⟩, h.2⟩) (fun i => (hown i).a2b _)
    fun w hw => congrArg _ hw

include hkind in
theorem computes_convertB2aBit (hB : isBShared inputB = true) (hA : isBShared outputA = false) :
    Computes mode g (fun i => t.view.convertB2aBit (P i) inputB outputA (M i))
      (HoldsValues layout Good t fun v =>
        v = Function.update value outputA (lowBit (value inputB))) := by
  refine .downcast (kind_b hkind hB) fun b hb => .downcast (kind_a hkind hA) fun a ha => ?_
  have hin : SharesB layout (fun i => M i (.b b)) (value inputB) :=
    Table.valuation_name value hb ▸ hM _ (mem_columns_of_schema hb)
  have hconv := hP.b2aBit hg hin
  exact computes_column (Z := (· = lowBit (value inputB))) hM ha
    (hconv.mono fun z g' _ h => ⟨⟨_, rfl, h.1⟩, h.2⟩) (fun i => (hown i).b2aBit _)
    fun w hw => congrArg _ hw

/-- **A tumbling window** divides the two words that the shares split each time in. -/
theorem computes_tumblingWindow (hD : Protocol.Divides P layout Good mode) {windowSize : Word d}
    (hsafe : SafeDivisor windowSize) (res : String) (hrows : least ≤ n) :
    Computes mode g (fun i => t.view.tumblingWindow (P i) timeA windowSize res (M i))
      (HoldsValues layout Good t fun v => ∃ l r : Vec n d, l + r = value timeA ∧
        v = Function.update value res fun j => splitQuotient (N = 3) (l j) (r j) windowSize) := by
  refine .lookup fun a ha => .lookup fun o ho => ?_
  rw [aShared_eq_some] at ha ho
  have hin : SharesA layout (fun i => M i (.a a)) (value timeA) :=
    Table.valuation_name value ha ▸ hM _ (mem_columns_of_schema ha)
  obtain ⟨l, r, hsum, hdiv⟩ := hD.ensures_div hP.toKeepsKind hg hin hsafe hrows
  exact computes_column (Z := (· = fun j => splitQuotient (N = 3) (l j) (r j) windowSize)) hM ho
    (hdiv.mono fun z g' _ h => ⟨⟨_, rfl, h.1⟩, h.2⟩) (fun i => (hown i).div _ _)
    fun w hw => ⟨l, r, hsum, congrArg _ hw⟩

/-- The sorting of a window. -/
theorem computes_sortWindow (hnodup : keys.Nodup) (hn : n = 2 ^ k) (doSorting : Bool)
    (hwithin : ValuesWithin top value (if doSorting then sortingAttrs keys timeB else []))
    (hroom : RoomForRounds least n) :
    Computes mode g (fun i => sortFirst doSorting (asserted (t.view.sort (P i)
        (sortingAttrs keys timeB) ((sortingAttrs keys timeB).map fun _ => false) (M i))) (M i))
      (HoldsValues layout Good t (SortsFirst value doSorting (sortingAttrs keys timeB))) := by
  have hattrs : (sortingAttrs keys timeB).Nodup :=
    List.nodup_cons.mpr ⟨by simp, hnodup.filter _⟩
  refine computes_sortFirst doSorting hg hM fun hdo => ?_
  rw [if_pos hdo] at hwithin
  have hsort := computes_sortColumns hP hown hg hM hn hwithin (List.cons_ne_nil timeB _) hattrs
    (List.length_map (fun _ : String => false)) t.view.names moved_all hroom
  rwa [← List.map_prod_left_eq_zip] at hsort

section Marks

variable [NeZero N] (hdata : dataParty 0)
include hdata

include hkind in
theorem computes_distinct {res : String} (hB : isBShared res = true) (hres : res ∉ keys)
    (hrows : least ≤ n - 1) :
    Computes mode g (fun i => t.view.distinct (P i) keys res (M i))
      (HoldsValues layout Good t fun v =>
        v = Function.update value res (bits d (changedRows value keys))) := by
  refine .lookup fun keysVec hmapM => .downcast (kind_b hkind hB) fun r hr =>
    .lookup fun _ hguard => .ok ?_ fun i => ownedBy_distinct (hown i) _ _ _
  have hkeys := mapM_eq_some_iff.mp hmapM
  have hne := (Option.guard_eq_some' _).mp hguard
  have hr' : (res, Column.b r) ∈ t.view.schema := hr
  have hfresh : r ∉ keysVec := fun h => hres ((mem_keys_iff hkeys hr).mp h)
  refine (ensures_distinct_memory hdata hP.toKeepsKind hg hne.2 hM hne.1
    (live_keys hkeys) hfresh hrows).mono fun M' g' _ h => ⟨⟨_, rfl, shares_update hr' ?_⟩, h.2.2⟩
  have hmarks : changesAll keysVec (t.valuation value) = changedRows value keys := by
    ext j
    rw [Bool.eq_iff_iff, changesAll_iff, changedRows, decide_eq_true_iff]
    refine forall₂_congr fun i _ => ⟨fun hall key hkey => ?_, fun hall i' hi' => ?_⟩
    · obtain ⟨i', hi', hschema⟩ := exists_right (related_keys hkeys) hkey
      exact Table.valuation_name value hschema ▸ hall i' hi'
    · obtain ⟨key, hkey, hschema⟩ := exists_left (related_keys hkeys) hi'
      rw [Table.valuation_name value hschema]
      exact hall key hkey
  intro c hc
  by_cases he : c = .b r
  · subst he
    rw [Function.update_self, ← hmarks]
    exact h.2.1
  · rw [Function.update_of_ne he]
    simp only [h.1 c he]
    exact hM c (hc.resolve_left he)

theorem computes_oddEvenAggregation (hne : keys ≠ []) (hnodup : keys.Nodup) (hn : n = 2 ^ k)
    {data res : List String} (hres : res.Nodup)
    (hfresh : ∀ p ∈ data.zip res, p.1 = p.2 ∨ p.2 ∉ data ∧ p.2 ∉ keys)
    (aggregationType : AggregationType) (reverse doSorting : Bool)
    (hwithin : ValuesWithin top value (if doSorting then keys else []))
    (hroom : RoomForRounds least n) :
    Computes mode g (fun i => t.view.oddEvenAggregation (P i) keys data res aggregationType reverse
        doSorting (M i))
      (HoldsValues layout Good t fun v => ∃ u a, SortsFirst value doSorting keys u ∧
        aggregationType.aggregation = some a ∧ Aggregates u a reverse keys (data.zip res) v) := by
  have hsort : doSorting = true → Computes mode g (fun i => t.view.sortAsserted (P i) keys
      (keys.map fun _ => false) t.view.names (M i))
      (HoldsValues layout Good t (Sorts value (keys.map (·, false)) fun _ => True)) := by
    intro hdo
    rw [if_pos hdo] at hwithin
    rw [List.map_prod_left_eq_zip]
    exact computes_sortAsserted hP hown hg hM hn hwithin hnodup (List.length_map _) t.view.names
      moved_all hroom
  refine (computes_sortFirst doSorting hg hM hsort).bind fun m hm hmown =>
    .lookup fun keysVec hmapM => ?_
  have hkeys := mapM_eq_some_iff.mp hmapM
  have hcall := fun a => computes_aggregation hP hown hdata hkeys hne hn a hres hfresh reverse hm
    hmown hroom
  have hweaken : ∀ {f : Fin N → Except Halt (PartyM N d G (Memory ρ n d))} (a : Aggregation),
      aggregationType.aggregation = some a → Computes mode g f (HoldsValues layout Good t fun v =>
        ∃ u, SortsFirst value doSorting keys u ∧ Aggregates u a reverse keys (data.zip res) v) →
      Computes mode g f (HoldsValues layout Good t fun v => ∃ u a,
        SortsFirst value doSorting keys u ∧ aggregationType.aggregation = some a ∧
          Aggregates u a reverse keys (data.zip res) v) := fun a ha hf =>
    hf.mono fun M' g' h => ⟨h.1.imp fun v ⟨⟨u, hu, hv⟩, hM'⟩ => ⟨⟨u, a, hu, ha, hv⟩, hM'⟩, h.2⟩
  cases aggregationType with
  | sum => exact hweaken .sum rfl (hcall .sum)
  | max => exact hweaken .max rfl (hcall .max)
  | min => exact hweaken .min rfl (hcall .min)
  | count => exact .inl fun _ => rfl
  | extra => exact .inl fun _ => rfl

theorem computes_gapSessionWindow (hne : keys ≠ []) (hnodup : keys.Nodup) (hn : n = 2 ^ k)
    (hwkeys : windowId ∉ keys) (hwb : windowId ≠ timeB) (gap : Word d)
    (pastEnd : Fin N → Fin ρ → Word d) (doSorting : Bool)
    (hwithin : ValuesWithin top value (if doSorting then sortingAttrs keys timeB else []))
    (hrows : least ≤ n - 1) (hroom : RoomForRounds least n) :
    Computes mode g (fun i => t.view.gapSessionWindowAsserted (P i) keys timeA timeB windowId gap
        (pastEnd i) doSorting (M i))
      (HoldsValues layout Good t fun v => ∃ u,
        SortsFirst value doSorting (sortingAttrs keys timeB) u ∧
          v = Function.update u windowId (gapIds u keys timeA timeB gap)) := by
  refine .lookup fun _ _ => ?_
  simp only [asserted_gapSessionWindow]
  refine (computes_sortWindow hP hown hg hM hnodup hn doSorting hwithin hroom).bind
    fun m hm hmown => .lookup fun keysVec hmapM => .lookup fun a ha => .lookup fun b hb =>
      .lookup fun w hw => .then_ok hm hmown (fun M' g' h => ?_) fun i _ =>
        ownedBy_gapSessionWindow (hown i) _ _ _ _ _ _ _
  have hkeys := mapM_eq_some_iff.mp hmapM
  rw [aShared_eq_some] at ha
  rw [bShared_eq_some] at hb hw
  obtain ⟨⟨u, hu, hM'⟩, hg'⟩ := h
  have hkeysVec : keysVec ≠ [] := fun h => hne ((keys_eq_nil_iff hkeys).mp h)
  refine (ensures_gapSessionWindow_bits hdata hP.toKeepsKind hg' hn hM' hkeysVec (live_keys hkeys)
    (fun h => hwkeys ((mem_keys_iff hkeys hw).mp h)) (mem_columns_of_schema ha)
    (mem_columns_of_schema hb) (fun h => hwb (name_unique hw (h ▸ hb))) gap pastEnd
    hroom hrows).mono
      fun M'' g'' _ h => ⟨⟨_, ⟨u, hu, rfl⟩, shares_update hw ?_⟩, h.2⟩
  rw [gapIds, ← scanRows_eq hkeys hn, ← Table.valuation_name u ha, ← Table.valuation_name u hb]
  exact h.1

theorem computes_thresholdSessionWindow (hne : keys ≠ []) (hnodup : keys.Nodup) (hn : n = 2 ^ k)
    (hwkeys : windowId ∉ keys) (hwb : windowId ≠ timeB) (threshold : Word d) (doSorting : Bool)
    (hwithin : ValuesWithin top value (if doSorting then sortingAttrs keys timeB else []))
    (hrows : least ≤ n - 1) (hroom : RoomForRounds least n) :
    Computes mode g (fun i => t.view.thresholdSessionWindow (P i) keys functionRes timeB windowId
        threshold doSorting (M i))
      (HoldsValues layout Good t fun v => ∃ u initial,
        SortsFirst value doSorting (sortingAttrs keys timeB) u ∧ v = Function.update u windowId
          (thresholdIds u keys functionRes timeB threshold initial)) := by
  refine .lookup fun _ _ => ?_
  refine (computes_sortWindow hP hown hg hM hnodup hn doSorting hwithin hroom).bind
    fun m hm hmown => .lookup fun keysVec hmapM => .lookup fun f hf => .lookup fun b hb =>
      .lookup fun w hw => .then_ok hm hmown (fun M' g' h => ?_) fun i _ =>
        ownedBy_thresholdSessionWindow (hown i) _ _ _ _ _ _
  have hkeys := mapM_eq_some_iff.mp hmapM
  rw [bShared_eq_some] at hf hb hw
  obtain ⟨⟨u, hu, hM'⟩, hg'⟩ := h
  have hkeysVec : keysVec ≠ [] := fun h => hne ((keys_eq_nil_iff hkeys).mp h)
  have hpos : 0 < n := hn ▸ Nat.two_pow_pos k
  -- the mark of the first row is made of what the window column held
  have hwindow : Replicated layout fun i => M' i (.b w) :=
    SharesB.isReplicated (hM' (.b w) (mem_columns_of_schema hw))
  obtain ⟨initial, hinitial⟩ := exists_sharesB (hwindow.map fun x (_ : Fin 1) =>
    -x (rowZero hpos))
  have hconst : initial = fun _ => initial 0 := funext fun j => congrArg initial
    (Subsingleton.elim j 0)
  rw [hconst] at hinitial
  refine (ensures_thresholdSessionWindow hdata hP.toKeepsKind hg' hn hpos hM' hkeysVec
    (live_keys hkeys) (fun h => hwkeys ((mem_keys_iff hkeys hw).mp h)) (mem_columns_of_schema hf)
    (mem_columns_of_schema hb) (fun h => hwb (name_unique hw (h ▸ hb))) threshold hinitial
    hroom hrows).mono
      fun M'' g'' _ h => ⟨⟨_, ⟨u, initial 0, hu, rfl⟩, shares_update hw ?_⟩, h.2⟩
  rw [thresholdIds, ← scanRows_eq hkeys hn, ← Table.valuation_name u hf,
    ← Table.valuation_name u hb]
  exact h.1

end Marks

end Others

/-! ## All methods -/

/-- The columns have the classes of their names. -/
theorem Table.Holds.kind {value : String → Vec t.rows d} {names : List String}
    (ht : t.Holds layout value names) {name : String} {c : Column}
    (h : (name, c) ∈ t.view.schema) :
    if isBShared name then ∃ i, c = .b i else ∃ i, c = .a i := by
  obtain ⟨j, rfl, rfl⟩ := Table.mem_schema.mp h
  rw [Table.column, (t.columns j).encoding_eq, ht.encoding, nameEncoding]
  split <;> exact ⟨_, rfl⟩

/-- **Every method does to a table what it means**, if it is called as it is made for. -/
theorem computes_call [NeZero N] (hP : ComparesWithin top P layout least dataParty Good mode)
    (hD : Protocol.Divides P layout Good mode)
    (hown : ∀ i, Protocol.OwnedBy i (P i)) (hdata : dataParty 0) (hg : Good g)
    {value : String → Vec t.rows d} {names : List String} (ht : t.Holds layout value names)
    (method : Method N ρ d) (h : method.Checked t.rows)
    (hwithin : ValuesWithin top value method.sortKeys) (hroom : method.Room least t.rows) :
    Computes mode g (fun i => method.call (P i) i t.view (t.memory ht.intact.size i))
      (HoldsValues layout Good t fun v => method.Means value v) := by
  have hM := ht.memory
  cases method with
  | sort keys desc =>
    obtain ⟨hnodup, hdesc, k, hn⟩ := h
    exact computes_sortAsserted hP hown hg hM hn hwithin hnodup hdesc _ moved_all hroom
  | sortColumns keys desc toBeSortedColumns =>
    obtain ⟨hnodup, hdesc, k, hn⟩ := h
    exact computes_sortAsserted hP hown hg hM hn hwithin hnodup hdesc _ (fun _ => Iff.rfl) hroom
  | convertA2b => exact computes_convertA2b hP hown hg hM ht.kind h.1 h.2 hroom
  | convertB2aBit => exact computes_convertB2aBit hP hown hg hM ht.kind h.1 h.2
  | oddEvenAggregation =>
    obtain ⟨hne, hnodup, hres, hfresh, k, hn⟩ := h
    exact computes_oddEvenAggregation hP hown hg hM hdata hne hnodup hn hres hfresh _ _ _ hwithin
      hroom
  | distinct => exact computes_distinct hP hown hg hM ht.kind hdata h.1 h.2 hroom
  | tumblingWindow => exact computes_tumblingWindow hP hown hg hM hD h _ hroom
  | gapSessionWindow =>
    obtain ⟨hne, hnodup, hwkeys, hwb, k, hn⟩ := h
    exact computes_gapSessionWindow hP hown hg hM hdata hne hnodup hn hwkeys hwb _ _ _ hwithin
      hroom.1 hroom.2
  | thresholdSessionWindow =>
    obtain ⟨hne, hnodup, hwkeys, hwb, k, hn⟩ := h
    exact computes_thresholdSessionWindow hP hown hg hM hdata hne hnodup hn hwkeys hwb _ _ hwithin
      hroom.1 hroom.2

end Methods

end Calls

end Tva.Relational
