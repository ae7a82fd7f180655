import TvaMpc.Relational.TableMeaning

/-!
# Relational/Stopping — which statements stop the program

The names of a table in the clear say which statements stop the parties: a name that is missing, a
column of the other encoding where one is asserted, an assertion about the arguments.  A checked
statement stops all parties if it is not `Defined` (`stops_iff`), and has exactly one outcome if it
is (`program_progress`).
-/

namespace Tva.Relational

open Machinery Operators EncodedTable

variable {N ρ n least : ℕ} {d : DataType} {G α β : Type} {layout : Fin N → Fin ρ → Fin N}

/-! ## Which names there must be -/

/-- The encodings that an expression can be asserted to have. -/
def ColumnExpr.Typed (ts : List (PlainTable d)) : ColumnExpr → Encoding → Prop
  | column table name, e => ∃ t, ts[table]? = some t ∧ name ∈ t.names ∧ nameEncoding name = e
  | allocate _ eType, e => eType = e
  | unary op x, e => x.Typed ts op.encoding ∧ op.encoding = e
  | binary op x y, e => x.Typed ts op.encoding ∧ y.Typed ts op.encoding ∧ op.encoding = e

theorem ColumnExpr.Typed.gives {ts : List (PlainTable d)} {x : ColumnExpr} {e : Encoding}
    (h : x.Typed ts e) (hx : x.IsTemporary) : x.Gives e := by
  cases x with
  | column => exact hx
  | allocate => exact h
  | unary => exact h.2
  | binary => exact h.2.2

/-- A column with that encoding. -/
def Has (names : List String) (e : Encoding) (name : String) : Prop :=
  name ∈ names ∧ nameEncoding name = e

instance (names : List String) (e : Encoding) : DecidablePred (Has names e) :=
  fun _ => inferInstanceAs (Decidable (_ ∧ _))

/-- The encoding of the columns that a type aggregates; the other types exit. -/
def EncodedTable.AggregationType.encoding : AggregationType → Option Encoding
  | .sum => some .aShared
  | .max | .min => some .bShared
  | .count | .extra => none

/-- **The calls that do not stop** on a table with these names. -/
def Method.Defined (names : List String) (rows : ℕ) : Method N ρ d → Prop
  | sort keys _ | sortColumns keys _ _ => keys ≠ [] ∧ ∀ key ∈ keys, Has names .bShared key
  | convertA2b input output | convertB2aBit input output => input ∈ names ∧ output ∈ names
  | oddEvenAggregation keys data res aggregationType _ _ =>
      (∀ key ∈ keys, Has names .bShared key) ∧ data.length = res.length ∧ data ≠ [] ∧
        ∃ e, aggregationType.encoding = some e ∧ ∀ name ∈ data ++ res, Has names e name
  | distinct keys res =>
      keys ≠ [] ∧ (∀ key ∈ keys, Has names .bShared key) ∧ res ∈ names ∧ 0 < rows
  | tumblingWindow timeA _ res => Has names .aShared timeA ∧ Has names .aShared res
  | gapSessionWindow keys timeA timeB windowId _ _ _ =>
      (∀ key ∈ keys, Has names .bShared key) ∧ Has names .aShared timeA ∧
        Has names .bShared timeB ∧ Has names .bShared windowId
  | thresholdSessionWindow keys functionRes timeB windowId _ _ =>
      (∀ key ∈ keys, Has names .bShared key) ∧ Has names .bShared functionRes ∧
        Has names .bShared timeB ∧ Has names .bShared windowId

/-- **The statements that do not stop.** -/
def Statement.Defined (ts : List (PlainTable d)) : Statement N ρ d → Prop
  | create schema _ => schema.Nodup
  | secretShare schema _ _ _ => schema.Nodup ∧ schema ≠ []
  | assign table name x =>
      (∃ t, ts[table]? = some t ∧ name ∈ t.names) ∧ x.IsTemporary ∧ ∃ e, x.Typed ts e
  | call table method => ∃ t, ts[table]? = some t ∧ method.Defined t.names t.rows

/-! ## Lookups that may fail -/

/-- The code is there. -/
def IsOk (r : Except Halt α) : Prop := ∃ a, r = .ok a

@[simp] theorem isOk_pure (a : α) : IsOk (pure a) := ⟨a, rfl⟩

theorem isOk_bind {r : Except Halt α} {k : α → Except Halt β} :
    IsOk (r >>= k) ↔ ∃ a, r = .ok a ∧ IsOk (k a) := by
  cases r with
  | error h =>
    refine iff_of_false (fun hb => ?_) fun ha => ?_
    · obtain ⟨b, hb⟩ := hb
      cases hb
    · obtain ⟨a, ha, -⟩ := ha
      cases ha
  | ok a =>
    refine ⟨fun h => ⟨a, rfl, h⟩, fun h => ?_⟩
    obtain ⟨a', ha', h'⟩ := h
    obtain rfl := Except.ok.inj ha'
    exact h'

theorem downcast_eq_ok {t : EncodedTable} {kind : SVector} {name : String} {i : ℕ} :
    t.downcast kind name = .ok i ↔ t.shared kind name = some i := by
  cases kind <;> cases h : t.schemaAt name with
  | none => simp [downcast, shared, aShared, bShared, h]
  | some c => cases c <;> simp [downcast, shared, aShared, bShared, h]

/-- A sort comes first, by columns that are asserted anyway. -/
theorem isOk_sortFirst {doSorting : Bool} {M : Memory ρ n d}
    {f : Except Halt (PartyM N d G (Memory ρ n d))}
    {k : PartyM N d G (Memory ρ n d) → Except Halt α} {p : Prop} (hf : p → IsOk f)
    (hk : ∀ m, IsOk (k m) ↔ p) : IsOk (sortFirst doSorting f M >>= k) ↔ p := by
  simp only [isOk_bind, hk]
  refine ⟨fun h => ?_, fun hp => ?_⟩
  · obtain ⟨-, -, hp⟩ := h
    exact hp
  · cases doSorting with
    | false => exact ⟨_, rfl, hp⟩
    | true =>
      obtain ⟨m, hm⟩ := hf hp
      exact ⟨m, hm, hp⟩

/-! ### Columns by their names -/

section Methods

variable {t : Table N ρ d} {value : String → Vec t.rows d} {bitNames : List String}
variable {name inputA inputB outputA outputB res timeA timeB windowId functionRes : String}
variable {keys names data results : List String} {P : Protocol N ρ d G} {M : Memory ρ n d}

variable [NeZero ρ]

/-- The encoding of a kind of vectors. -/
def SVector.encoding : SVector → Encoding
  | .aSharedVector => .aShared
  | .bSharedVector => .bShared

section Lookup

variable (ht : t.Holds layout value bitNames)
include ht

/-- **What can be looked up.** -/
theorem shared_iff (kind : SVector) :
    (∃ i, t.view.shared kind name = some i) ↔ Has t.names (SVector.encoding kind) name := by
  simp only [shared_eq_some, Table.mem_schema]
  constructor
  · rintro ⟨i, j, rfl, hj⟩
    refine ⟨List.get_mem _ _, ?_⟩
    rw [Table.column, (t.columns j).encoding_eq, ht.encoding] at hj
    cases kind <;> cases he : nameEncoding (t.names.get j) <;> rw [he] at hj
    · rfl
    · cases hj
    · cases hj
    · rfl
  · rintro ⟨hmem, henc⟩
    obtain ⟨j, rfl⟩ := List.get_of_mem hmem
    refine ⟨j, j, rfl, ?_⟩
    rw [Table.column, (t.columns j).encoding_eq, ht.encoding, henc]
    cases kind <;> rfl

theorem aShared_iff : (∃ i, t.view.aShared name = some i) ↔ Has t.names .aShared name :=
  shared_iff ht .aSharedVector

theorem bShared_iff : (∃ i, t.view.bShared name = some i) ↔ Has t.names .bShared name :=
  shared_iff ht .bSharedVector

theorem keys_iff :
    (∃ l, keys.mapM t.view.bShared = some l) ↔ ∀ key ∈ keys, Has t.names .bShared key := by
  simp only [exists_mapM_iff, bShared_iff ht]

theorem columns_iff (kind : SVector) : (∃ l, names.mapM (t.view.shared kind) = some l) ↔
    ∀ name ∈ names, Has t.names (SVector.encoding kind) name := by
  simp only [exists_mapM_iff, shared_iff ht]

end Lookup

/-! ### Every method -/

section Ok

variable (ht : t.Holds layout value bitNames)
include ht

section Sorts

variable {k : ℕ} (hn : n = 2 ^ k) {desc : List Bool} {cols : List String}
include hn

/-- The number of rows is a power of two. -/
theorem sortColumns_iff : (∃ m, t.view.sortColumns P keys desc cols M = some m) ↔
    ∀ key ∈ keys, Has t.names .bShared key := by
  have hlog : Nat.clog 2 n = Nat.log 2 n := by
    rw [hn, Nat.clog_pow _ _ one_lt_two, Nat.log_pow one_lt_two]
  simp only [sortColumns, guard, if_pos hlog, Option.bind_eq_bind, Option.bind_eq_some_iff,
    ← keys_iff ht]
  simp

theorem isOk_sortAsserted (hdesc : desc.length = keys.length) :
    IsOk (t.view.sortAsserted P keys desc cols M) ↔
      keys ≠ [] ∧ ∀ key ∈ keys, Has t.names .bShared key := by
  have hsort : (∃ m, t.view.sortColumns P keys desc cols M = some m) ↔
    ∀ key ∈ keys, Has t.names .bShared key := sortColumns_iff ht hn
  rw [← hsort]
  simp only [sortAsserted, isOk_bind, asserted_eq_ok, Option.guard_eq_some']
  simp [hdesc, and_comm]

end Sorts

theorem isOk_convertA2b : IsOk (t.view.convertA2b P inputA outputB M) ↔
    Has t.names .aShared inputA ∧ Has t.names .bShared outputB := by
  rw [← aShared_iff ht, ← bShared_iff ht]
  simp only [convertA2b, isOk_bind, downcast_eq_ok, shared]
  simp

theorem isOk_convertB2aBit : IsOk (t.view.convertB2aBit P inputB outputA M) ↔
    Has t.names .bShared inputB ∧ Has t.names .aShared outputA := by
  rw [← bShared_iff ht, ← aShared_iff ht]
  simp only [convertB2aBit, isOk_bind, downcast_eq_ok, shared]
  simp

theorem isOk_distinct [NeZero N] : IsOk (t.view.distinct P keys res M) ↔
    keys ≠ [] ∧ (∀ key ∈ keys, Has t.names .bShared key) ∧ Has t.names .bShared res ∧ 0 < n := by
  rw [← bShared_iff ht, ← keys_iff ht]
  simp only [EncodedTable.distinct, isOk_bind, downcast_eq_ok, asserted_eq_ok,
    Option.guard_eq_some', shared]
  constructor
  · rintro ⟨l, hl, i, hi, -, ⟨hne, hrows⟩, -⟩
    exact ⟨mt (keys_eq_nil_iff (mapM_eq_some_iff.mp hl)).mpr hne, ⟨l, hl⟩, ⟨i, hi⟩, hrows⟩
  · rintro ⟨hne, ⟨l, hl⟩, ⟨i, hi⟩, hrows⟩
    exact ⟨l, hl, i, hi, (), ⟨mt (keys_eq_nil_iff (mapM_eq_some_iff.mp hl)).mp hne, hrows⟩,
      isOk_pure _⟩

theorem isOk_tumblingWindow {windowSize : Word d} :
    IsOk (t.view.tumblingWindow P timeA windowSize res M) ↔
      Has t.names .aShared timeA ∧ Has t.names .aShared res := by
  rw [← aShared_iff ht, ← aShared_iff ht]
  simp only [tumblingWindow, isOk_bind, asserted_eq_ok]
  simp

section Windows

variable [NeZero N] {k : ℕ} (hn : n = 2 ^ k)
include hn

theorem isOk_oddEvenAggregation (hne : keys ≠ []) {aggregationType : AggregationType}
    {reverse doSorting : Bool} :
    IsOk (t.view.oddEvenAggregation P keys data results aggregationType reverse doSorting M) ↔
      (∀ key ∈ keys, Has t.names .bShared key) ∧ data.length = results.length ∧ data ≠ [] ∧
        ∃ e, aggregationType.encoding = some e ∧
          ∀ name ∈ data ++ results, Has t.names e name := by
  refine isOk_sortFirst (fun h => (isOk_sortAsserted ht hn (List.length_map _)).mpr ⟨hne, h.1⟩)
    fun m => ?_
  have hA : ∀ {l : List String}, (∃ v, l.mapM (t.view.shared .aSharedVector) = some v) ↔
      ∀ name ∈ l, Has t.names .aShared name := columns_iff ht .aSharedVector
  have hB : ∀ {l : List String}, (∃ v, l.mapM (t.view.shared .bSharedVector) = some v) ↔
      ∀ name ∈ l, Has t.names .bShared name := columns_iff ht .bSharedVector
  simp only [isOk_bind, asserted_eq_ok, Option.guard_eq_some', ← keys_iff ht,
    List.forall_mem_append]
  cases aggregationType with
  | sum => simp [AggregationType.function, AggregationType.encoding, hA, and_assoc]
  | max | min => simp [AggregationType.function, AggregationType.encoding, hB, and_assoc]
  | count | extra => simp [AggregationType.function, AggregationType.encoding]

omit [NeZero N] in
/-- A sort by the columns of a window. -/
theorem isOk_sortWindow (h : (∀ key ∈ keys, Has t.names .bShared key) ∧
    Has t.names .bShared timeB) : IsOk (asserted (t.view.sort P (sortingAttrs keys timeB)
      ((sortingAttrs keys timeB).map fun _ => false) M)) := by
  have hattrs : ∀ key ∈ sortingAttrs keys timeB, Has t.names .bShared key :=
    List.forall_mem_cons.mpr ⟨h.2, fun key hkey => h.1 key (List.mem_filter.mp hkey).1⟩
  obtain ⟨m, hm⟩ := (sortColumns_iff ht hn (P := P) (M := M)).mpr hattrs
  exact ⟨m, asserted_eq_ok.mpr hm⟩

theorem isOk_gapSessionWindow {gap : Word d} {pastEnd : Fin ρ → Word d} {doSorting : Bool} :
    IsOk (t.view.gapSessionWindowAsserted P keys timeA timeB windowId gap pastEnd doSorting M) ↔
      (∀ key ∈ keys, Has t.names .bShared key) ∧ Has t.names .aShared timeA ∧
        Has t.names .bShared timeB ∧ Has t.names .bShared windowId := by
  have hpos : 0 < n := hn ▸ Nat.two_pow_pos k
  simp only [gapSessionWindowAsserted, guard, if_pos hpos, asserted_gapSessionWindow]
  refine isOk_sortFirst (fun h => isOk_sortWindow ht hn ⟨h.1, h.2.2.1⟩) fun m => ?_
  rw [← keys_iff ht, ← aShared_iff ht, ← bShared_iff ht, ← bShared_iff ht]
  simp only [isOk_bind, asserted_eq_ok]
  simp

theorem isOk_thresholdSessionWindow {threshold : Word d} {doSorting : Bool} :
    IsOk (t.view.thresholdSessionWindow P keys functionRes timeB windowId threshold doSorting
      M) ↔ (∀ key ∈ keys, Has t.names .bShared key) ∧ Has t.names .bShared functionRes ∧
        Has t.names .bShared timeB ∧ Has t.names .bShared windowId := by
  have hpos : 0 < n := hn ▸ Nat.two_pow_pos k
  simp only [EncodedTable.thresholdSessionWindow, guard, if_pos hpos]
  refine isOk_sortFirst (fun h => isOk_sortWindow ht hn ⟨h.1, h.2.2.1⟩) fun m => ?_
  rw [← keys_iff ht, ← bShared_iff ht, ← bShared_iff ht, ← bShared_iff ht]
  simp only [isOk_bind, asserted_eq_ok]
  simp

end Windows

end Ok

/-- **A checked call does not stop exactly if it is defined.** -/
theorem isOk_run [NeZero N] {i : Fin N} (ht : t.Holds layout value bitNames)
    {method : Method N ρ d} (h : method.Checked t.rows) :
    IsOk (method.run P i t) ↔ method.Defined t.names t.rows := by
  simp only [Method.run, dif_pos ht.intact.size]
  cases method with
  | sort keys desc | sortColumns keys desc =>
    obtain ⟨-, hdesc, k, hn⟩ := h
    exact isOk_sortAsserted ht hn hdesc
  | convertA2b =>
    refine (isOk_convertA2b ht).trans ?_
    simp [Method.Defined, Has, nameEncoding, h.1, h.2]
  | convertB2aBit =>
    refine (isOk_convertB2aBit ht).trans ?_
    simp [Method.Defined, Has, nameEncoding, h.1, h.2]
  | oddEvenAggregation =>
    obtain ⟨hne, -, -, -, k, hn⟩ := h
    exact isOk_oddEvenAggregation ht hn hne
  | distinct =>
    refine (isOk_distinct ht).trans ?_
    simp [Method.Defined, Has, nameEncoding, h.1]
  | tumblingWindow => exact isOk_tumblingWindow ht
  | gapSessionWindow =>
    obtain ⟨-, -, -, -, k, hn⟩ := h
    exact isOk_gapSessionWindow ht hn
  | thresholdSessionWindow =>
    obtain ⟨-, -, -, -, k, hn⟩ := h
    exact isOk_thresholdSessionWindow ht hn

end Methods

/-! ## Expressions -/

section Expressions

variable [NeZero ρ] {P : Fin N → Protocol N ρ d G} {ts : List (Table N ρ d)}
variable {ps : List (PlainTable d)} {x : ColumnExpr} {rows : ℕ} {e : Encoding}

theorem ColumnExpr.exists_column_iff (hts : Represent layout ts ps) {table : ℕ} {name : String}
    (hrows : (ColumnExpr.column table name).HasRows ps rows) :
    (∃ u, (ColumnExpr.column table name).eval P ts = some u ∧ u.encoding = e ∧ u.size = rows) ↔
      (ColumnExpr.column table name).Typed ps e := by
  constructor
  · rintro ⟨u, hu, rfl, -⟩
    obtain ⟨t, j, ht, hj, rfl⟩ := eval_column hu
    obtain ⟨p, hp, value, names, rfl, hholds⟩ := exists_related hts ht
    obtain rfl := Table.find_eq_some_iff.mp hj
    exact ⟨_, hp, List.get_mem _ _, (((t.columns j).encoding_eq).trans (hholds.encoding j)).symm⟩
  · rintro ⟨p, hp, hmem, rfl⟩
    obtain ⟨t, ht, value, names, rfl, hholds⟩ := exists_related hts.flip hp
    obtain ⟨j, rfl⟩ := List.get_of_mem hmem
    have hj : t.find (t.names.get j) = some j := Table.find_eq_some_iff.mpr rfl
    refine ⟨⟨(t.columns j).encoding, (t.columns j).contents.size, fun i =>
      return (t.columns j).contents.shares i⟩, ?_, ?_, ?_⟩
    · simp only [eval, ht, hj, Option.bind_eq_bind, Option.bind_some, Option.pure_def]
    · exact ((t.columns j).encoding_eq).trans (hholds.encoding j)
    · exact (hholds.intact.size j).trans (hrows _ hp)

/-- **The expressions that have a value** are the typed ones. -/
theorem ColumnExpr.exists_eval_iff (hts : Represent layout ts ps) (hrows : x.HasRows ps rows) :
    (∃ u, x.eval P ts = some u ∧ u.encoding = e ∧ u.size = rows) ↔ x.Typed ps e := by
  induction x generalizing e with
  | column => exact exists_column_iff hts hrows
  | allocate size eType =>
    refine ⟨fun h => ?_, fun h => ⟨_, rfl, h, hrows⟩⟩
    obtain ⟨u, hu, henc, -⟩ := h
    obtain rfl := Option.some.inj hu
    exact henc
  | unary op x ih =>
    rw [Typed, ← ih hrows]
    constructor
    · rintro ⟨u, hu, rfl, hsize⟩
      obtain ⟨v, hv, rfl⟩ := eval_unary hu
      exact ⟨⟨v, hv, encoding_of_unary hu hv, hsize⟩, rfl⟩
    · rintro ⟨⟨v, hv, henc, hsize⟩, rfl⟩
      have heval : (unary op x).eval P ts
          = some ⟨op.encoding, v.size, fun i => v.program i >>= fun x => op.run (P i) x⟩ := by
        simp [eval, hv, henc]
      exact ⟨_, heval, rfl, hsize⟩
  | binary op x y ihx ihy =>
    rw [Typed, ← ihx hrows.1, ← ihy hrows.2]
    constructor
    · rintro ⟨u, hu, rfl, hsize⟩
      obtain ⟨v, w, hvw, hv, hw, rfl⟩ := eval_binary hu
      obtain ⟨henc, henc'⟩ := encoding_of_binary hu hv hw
      exact ⟨⟨v, hv, henc, hsize⟩, ⟨w, hw, henc', hvw.trans hsize⟩, rfl⟩
    · rintro ⟨⟨v, hv, henc, hsize⟩, ⟨w, hw, henc', hsize'⟩, rfl⟩
      have hvw : w.size = v.size := hsize'.trans hsize.symm
      have heval : (binary op x y).eval P ts = some ⟨op.encoding, v.size, fun i => do
          let x ← v.program i
          let y ← w.program i
          op.run (P i) x (Table.resize hvw y)⟩ := by
        simp [eval, hv, hw, henc, henc', hvw]
      exact ⟨_, heval, rfl, hsize⟩

end Expressions

/-! ## Statements -/

section Statements

variable [NeZero ρ] [NeZero N] {P : Fin N → Protocol N ρ d G} {dataParty : Fin N → Prop}
variable {Good : (Fin N → G) → Prop} {mode : SendMode} {g : Fin N → G}
variable {ts : List (Table N ρ d)} {ps : List (PlainTable d)} {st : Statement N ρ d}

variable {top : Word d → Word d} (hP : ComparesWithin top P layout least dataParty Good mode)
variable (hD : Protocol.Divides P layout Good mode)
variable (hown : ∀ i, Protocol.OwnedBy i (P i)) (hdata : dataParty 0)

section Checked

variable (hg : Good g) (hts : Represent layout ts ps) (hst : st.Checked dataParty ps)
variable (hwithin : st.Within top least ps)
include hP hD hown hdata hg hts hst hwithin

/-- **The checked statements that stop all parties** are those that are not defined. -/
theorem Statement.stops_iff : st.Stops P ts ↔ ¬st.Defined ps := by
  cases st with
  | create => exact Iff.rfl
  | secretShare schema =>
    rw [Stops, Defined, not_and_or, not_not]
  | assign table name x =>
    constructor
    · rintro hstops ⟨⟨p, hp, hmem⟩, htemporary, e, htyped⟩
      obtain ⟨u, hu, -⟩ := (ColumnExpr.exists_eval_iff hts (hst p hp).1).mpr htyped
      obtain ⟨t, ht, value, names, rfl, -⟩ := exists_related hts.flip hp
      obtain ⟨j, rfl⟩ := List.get_of_mem hmem
      rcases hstops t ht with hfind | htemporary' | heval
      · exact absurd (hfind.symm.trans (Table.find_eq_some_iff.mpr rfl)) (by simp)
      · exact htemporary' htemporary
      · exact absurd (heval.symm.trans hu) (by simp)
    · rintro hnot t ht
      obtain ⟨p, hp, value, names, rfl, -⟩ := exists_related hts ht
      obtain ⟨hrows, -⟩ := hst _ hp
      by_contra! hgoes
      obtain ⟨hj, htemporary, hu⟩ := hgoes
      obtain ⟨j, hj⟩ := Option.ne_none_iff_exists'.mp hj
      obtain ⟨u, hu⟩ := Option.ne_none_iff_exists'.mp hu
      have hname : name ∈ t.names := Table.find_eq_some_iff.mp hj ▸ List.get_mem _ _
      exact hnot ⟨⟨_, hp, hname⟩, htemporary, u.encoding,
        (ColumnExpr.exists_eval_iff hts hrows).mp ⟨u, hu, rfl,
          ColumnExpr.size_of_hasRows hts hu hrows⟩⟩
  | call table method =>
    constructor
    · rintro hstops ⟨p, hp, hdefined⟩
      obtain ⟨t, ht, value, names, rfl, hholds⟩ := exists_related hts.flip hp
      obtain ⟨m, hm⟩ := (isOk_run (P := P 0) (i := 0) hholds (hst _ hp)).mpr hdefined
      exact absurd (hm.symm.trans (hstops t ht 0)) (by simp)
    · rintro hnot t ht
      obtain ⟨p, hp, value, names, rfl, hholds⟩ := exists_related hts ht
      rcases computes_run hP hD hown hdata hg hholds method (hst _ hp)
        (hwithin _ hp) with hstops | ⟨m, hm, -⟩
      · exact hstops
      · exact absurd ⟨_, hp, (isOk_run hholds (hst _ hp)).mp ⟨m 0, hm 0⟩⟩ hnot

/-- **A checked statement has exactly one outcome if it is defined**, in all interleavings, and
stops all parties if it is not. -/
theorem steps_or_stops : (st.Defined ps ∧ ∃ g' ts', Step P mode g ts st g' (some ts') ∧
      ∀ g'' r, Step P mode g ts st g'' r → g'' = g' ∧ r = some ts') ∨
    ¬st.Defined ps ∧ st.Stops P ts := by
  have hiff := Statement.stops_iff hP hD hown hdata hg hts hst hwithin
  by_cases hdefined : st.Defined ps
  · exact .inl ⟨hdefined, (stops_or_steps hP hD hown hdata hg hts hst hwithin).resolve_left
      fun hstops => hiff.mp hstops hdefined⟩
  · exact .inr ⟨hdefined, hiff.mpr hdefined⟩

end Checked

include hP hD hown hdata

/-- **A program whose statements are checked goes on** after any of its runs. -/
theorem program_goesOn (hg : Good g) {s : (Fin N → G) × Option (List (Table N ρ d))}
    {h : List (Statement N ρ d)} (hr : (program P mode (fun _ _ => True) g).Reaches s h)
    (st : Statement N ρ d)
    (hchecked : (guardedProgram N ρ d dataParty (Statement.Within top least)).After (· ≠ none)
      (h ++ [st]) (some [])) :
    ∃ ts ps, s.2 = some ts ∧
      (guardedProgram N ρ d dataParty (Statement.Within top least)).Reaches (some ps) h ∧
      ((st.Defined ps ∧ ∃ g' ts', Step P mode s.1 ts st g' (some ts') ∧
          ∀ g'' r, Step P mode s.1 ts st g'' r → g'' = g' ∧ r = some ts') ∨
        ¬st.Defined ps ∧ st.Stops P ts) := by
  obtain ⟨o, ho, hrel⟩ := reaches_guardedProgram hP hD hown hdata hg hr
  have hnext := System.Reaches.after guardedProgram_silent ho (System.after_append.mp hchecked)
  obtain ⟨ps, rfl, hwithin, hst⟩ := allowed_of_after hnext
  obtain ⟨ts, hs, hts, hgood⟩ := hrel ps rfl
  exact ⟨ts, ps, hs, ho, steps_or_stops hP hD hown hdata hgood hts hst hwithin⟩

end Statements

/-- The first statement makes the table. -/
theorem reaches_oneRow [NeZero N] {G : Type} {mode : SendMode} (P : Fin N → Protocol N ρ .int8_t G)
    (g : Fin N → G) :
    (program P mode (fun _ _ => True) g).Reaches (g, some [oneRow N ρ])
      [.create ["a", "[b]"] 1] := by
  have hfirst : (program P mode (fun _ _ => True) g).Step (g, some [])
      (some (.create ["a", "[b]"] 1)) (g, some [oneRow N ρ]) :=
    ⟨[], _, rfl, rfl, trivial, .create nodup_names⟩
  exact System.Reaches.init.step hfirst

/-! ## Three parties -/

section Three

variable {S : Type} {nrand48 : S → BitVec 64 × S} {g : Fin 3 → PseudoRandomGenerator nrand48}
variable {s : (Fin 3 → PseudoRandomGenerator nrand48) × Option (List (Table 3 2 d))}
variable {h : List (Statement 3 2 d)} {mode : SendMode}

/-- **A program whose statements are checked goes on**: after any of its runs the next statement has
exactly one outcome, with the tables there, if the tables in the clear define it, and stops all
parties if they do not. -/
theorem program_progress (hg : Replicated3pc.SeedsAgree g)
    (hr : (program (Replicated3pc.parties d nrand48) mode (fun _ _ => True) g).Reaches s h)
    (st : Statement 3 2 d)
    (hchecked : (plainProgram 3 2 d fun _ => True).After (· ≠ none) (h ++ [st]) (some [])) :
    ∃ ts ps, s.2 = some ts ∧ (plainProgram 3 2 d fun _ => True).Reaches (some ps) h ∧
      ((st.Defined ps ∧ ∃ g' ts',
          Step (Replicated3pc.parties d nrand48) mode s.1 ts st g' (some ts') ∧
            ∀ g'' r, Step (Replicated3pc.parties d nrand48) mode s.1 ts st g'' r →
              g'' = g' ∧ r = some ts') ∨
        ¬st.Defined ps ∧ st.Stops (Replicated3pc.parties d nrand48) ts) := by
  rw [← guardedProgram_eq fun _ st => st.within_const (c := 0)] at hchecked ⊢
  exact program_goesOn (comparesWithin Replicated3pc.correctBits_seedsAgree)
    Replicated3pc.divides_seedsAgree Replicated3pc.ownedBy_protocol trivial hg hr st hchecked

/-- `table["[b]"] = table["[b]"] ^ table["[b]"]` is checked in every table with such columns. -/
theorem checked_selfXor : (plainProgram 3 2 .int8_t fun _ => True).After (· ≠ none)
    [.create ["a", "[b]"] 1, .assign 0 "[b]" selfXor] (some []) := by
  intro o₁ hcreate o₂ hassign
  rw [plainProgram_step] at hcreate
  cases hcreate with
  | unchecked h => exact absurd trivial h
  | create =>
    rw [plainProgram_step] at hassign
    cases hassign with
    | assign => exact Option.some_ne_none _
    | unchecked h =>
      refine absurd (fun t ht => ?_) h
      obtain rfl := Option.some.inj ht
      refine ⟨⟨fun t ht => ?_, fun t ht => ?_⟩, rfl, trivial, trivial⟩ <;>
      · obtain rfl := Option.some.inj ht
        rfl

theorem program_progress_selfXor : ∃ ts ps, some [oneRow 3 2] = some ts ∧
    (plainProgram 3 2 .int8_t fun _ => True).Reaches (some ps) [.create ["a", "[b]"] 1] ∧
    (((.assign 0 "[b]" selfXor : Statement 3 2 .int8_t).Defined ps ∧ ∃ g' ts',
        Step (Replicated3pc.parties .int8_t counter) .rendezvous zeroSeeds ts
          (.assign 0 "[b]" selfXor) g' (some ts') ∧
        ∀ g'' r, Step (Replicated3pc.parties .int8_t counter) .rendezvous zeroSeeds ts
          (.assign 0 "[b]" selfXor) g'' r → g'' = g' ∧ r = some ts') ∨
      ¬(.assign 0 "[b]" selfXor : Statement 3 2 .int8_t).Defined ps ∧
        (Statement.assign 0 "[b]" selfXor).Stops (Replicated3pc.parties .int8_t counter) ts) :=
  program_progress (fun _ => rfl) (reaches_oneRow _ zeroSeeds) _ checked_selfXor

end Three

end Tva.Relational
