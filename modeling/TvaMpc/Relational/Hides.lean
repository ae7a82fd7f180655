import TvaMpc.Operators.Hides
import TvaMpc.Relational.Performs
import TvaMpc.Relational.Represents

/-!
# Relational/Hides — programs on tables hide what others have shared

What a party has of a table besides its own shares is public.  Two tables with the same public part
and the same shares of party `p` look the same to it (`SameTable`), and from such tables a statement
stops or sends it the same, as long as it does not call `b2a_bit` (`Statement.Masked`).
-/

namespace Tva.Relational

open Machinery Operators EncodedTable

variable {N ρ n : ℕ} {d : DataType} {G J W : Type} {p : Fin N}

/-! ## Tables that look the same -/

/-- Vectors of one class and size, with the same shares of `p`. -/
inductive SameVector (p : Fin N) : EncodedVector N ρ d → EncodedVector N ρ d → Prop
  | intro {encoding : Encoding} {size : ℕ} {shares shares' : Fin N → EVector ρ size d}
      (h : shares p = shares' p) : SameVector p ⟨encoding, size, shares⟩ ⟨encoding, size, shares'⟩

/-- **Tables that look the same to `p`.** -/
inductive SameTable (p : Fin N) : Table N ρ d → Table N ρ d → Prop
  | intro {names : List String} {h : names.Nodup} {bShare : Fin names.length → Bool} {rows : ℕ}
      {columns columns' : Fin names.length → EncodedColumn N ρ d}
      (hcolumns : ∀ j, SameVector p (columns j).contents (columns' j).contents) :
      SameTable p ⟨names, h, columns, bShare, rows⟩ ⟨names, h, columns', bShare, rows⟩

namespace SameVector

theorem of_eq {e e' : Encoding} {s s' : Fin N → EVector ρ n d} (he : e = e') (h : s p = s' p) :
    SameVector p ⟨e, n, s⟩ ⟨e', n, s'⟩ :=
  he ▸ .intro h

variable {v v' : EncodedVector N ρ d} (hv : SameVector p v v')
include hv

theorem encoding : v.encoding = v'.encoding := by
  cases hv
  rfl

theorem size : v.size = v'.size := by
  cases hv
  rfl

theorem symm : SameVector p v' v := by
  obtain ⟨hshares⟩ := hv
  exact .intro hshares.symm

theorem resize {m : ℕ} (h : v.size = m) (h' : v'.size = m) :
    Table.resize h (v.shares p) = Table.resize h' (v'.shares p) := by
  obtain ⟨hshares⟩ := hv
  exact congrArg (Table.resize h) hshares

end SameVector

namespace SameTable

variable {names : List String} {h : names.Nodup} {bShare : Fin names.length → Bool} {rows : ℕ}
variable {columns columns' : Fin names.length → EncodedColumn N ρ d}
variable (hcolumns : ∀ j, SameVector p (columns j).contents (columns' j).contents)
include hcolumns

theorem encoding (j : Fin names.length) : (columns j).encoding = (columns' j).encoding :=
  (columns j).encoding_eq.trans ((hcolumns j).encoding.trans (columns' j).encoding_eq.symm)

theorem column (j : Fin names.length) : Table.column ⟨names, h, columns, bShare, rows⟩ j
    = Table.column ⟨names, h, columns', bShare, rows⟩ j := by
  simp only [Table.column, encoding hcolumns j]

/-- The methods see the same of both tables. -/
theorem view : Table.view ⟨names, h, columns, bShare, rows⟩
    = Table.view ⟨names, h, columns', bShare, rows⟩ := by
  simp only [Table.view, column hcolumns, Table.mapOrder]

theorem sizes : (∀ j, (columns j).contents.size = rows) ↔ ∀ j, (columns' j).contents.size = rows :=
  forall_congr' fun j => by rw [(hcolumns j).size]

theorem memory (hsize : ∀ j, (columns j).contents.size = rows)
    (hsize' : ∀ j, (columns' j).contents.size = rows) :
    Table.memory ⟨names, h, columns, bShare, rows⟩ hsize p
      = Table.memory ⟨names, h, columns', bShare, rows⟩ hsize' p := by
  ext c : 1
  simp only [Table.memory]
  split
  · exact (hcolumns _).resize _ _
  · rfl

theorem store {M M' : Fin N → Memory ρ rows d} (hM : M p = M' p) :
    SameTable p (Table.store ⟨names, h, columns, bShare, rows⟩ M)
      (Table.store ⟨names, h, columns', bShare, rows⟩ M') :=
  .intro fun j => .of_eq (hcolumns j).encoding (by rw [column hcolumns j, hM])

theorem assign {v v' : EncodedVector N ρ d} (hv : SameVector p v v') (j : Fin names.length) :
    SameTable p (Table.assign ⟨names, h, columns, bShare, rows⟩ j v)
      (Table.assign ⟨names, h, columns', bShare, rows⟩ j v') := by
  refine .intro fun k => ?_
  by_cases hk : k = j
  · subst hk
    simp only [Function.update_self]
    exact hv
  · simpa only [Function.update_of_ne hk] using hcolumns k

end SameTable

theorem sameTable_ofShares (schema : List String) (h : schema.Nodup)
    {x x' : Fin N → Fin schema.length → EVector ρ n d} (hx : x p = x' p) :
    SameTable p (Table.ofShares schema h x) (Table.ofShares schema h x') :=
  .intro fun j => .intro (congrFun hx j)

/-- The tables of a program. -/
abbrev SameTables (p : Fin N) : List (Table N ρ d) → List (Table N ρ d) → Prop :=
  List.Forall₂ (SameTable p)

/-! ## Methods -/

/-- **The calls without `b2a_bit`**: a sort moves no arithmetic column along. -/
def Method.Masked (t : EncodedTable) : Method N ρ d → Prop
  | sort keys _ => t.dataA keys t.names = []
  | sortColumns keys _ toBeSortedColumns => t.dataA keys toBeSortedColumns = []
  | convertB2aBit _ _ | tumblingWindow _ _ _ => False
  | convertA2b _ _ | distinct _ _ => True
  | oddEvenAggregation keys _ _ aggregationType _ doSorting =>
      aggregationType ≠ .sum ∧ (doSorting = true → t.dataA keys t.names = [])
  | gapSessionWindow keys _ timeB _ _ _ doSorting
  | thresholdSessionWindow keys _ timeB _ _ doSorting =>
      doSorting = true → t.dataA (sortingAttrs keys timeB) t.names = []

variable {mode : SendMode} {tapes : (J → ℕ → W) → Fin N → G} {secret : J → Prop}

/-- The parties fail in the same way, or they run code that looks the same to `p`. -/
def Conceals (mode : SendMode) (tapes : (J → ℕ → W) → Fin N → G) (p : Fin N) (secret : J → Prop)
    {α : Type} (f f' : Fin N → Except Halt (PartyM N d G α)) : Prop :=
  (∃ e, (∀ i, f i = .error e) ∧ ∀ i, f' i = .error e) ∨
    ∃ m m', (∀ i, f i = .ok (m i)) ∧ (∀ i, f' i = .ok (m' i)) ∧
      HidesAt mode tapes p secret m m'

namespace Conceals

variable {α β : Type} {f f' : Fin N → Except Halt (PartyM N d G α)}

theorem ok {m m' : Fin N → PartyM N d G α} (hm : HidesAt mode tapes p secret m m') :
    Conceals mode tapes p secret (fun i => .ok (m i)) fun i => .ok (m' i) :=
  .inr ⟨m, m', fun _ => rfl, fun _ => rfl, hm⟩

/-- What is looked up is public. -/
theorem lookup {o : Except Halt β} {k k' : Fin N → β → Except Halt (PartyM N d G α)}
    (hk : ∀ b, o = .ok b → Conceals mode tapes p secret (fun i => k i b) fun i => k' i b) :
    Conceals mode tapes p secret (fun i => o >>= k i) fun i => o >>= k' i := by
  cases o with
  | error e => exact .inl ⟨e, fun _ => rfl, fun _ => rfl⟩
  | ok b => exact hk b rfl

theorem bind (hf : Conceals mode tapes p secret f f')
    {k k' : Fin N → PartyM N d G α → Except Halt (PartyM N d G α)}
    (hk : ∀ m m', HidesAt mode tapes p secret m m' →
      Conceals mode tapes p secret (fun i => k i (m i)) fun i => k' i (m' i)) :
    Conceals mode tapes p secret (fun i => f i >>= k i) fun i => f' i >>= k' i := by
  rcases hf with ⟨e, he, he'⟩ | ⟨m, m', hm, hm', h⟩
  · simp only [he, he']
    exact .inl ⟨e, fun _ => rfl, fun _ => rfl⟩
  · simp only [hm, hm']
    exact hk m m' h

end Conceals

section Calls

variable {P : Fin N → Protocol N ρ d G} {M M' : Fin N → Memory ρ n d}
variable (hP : Protocol.Hides P mode tapes p secret) (hM : M p = M' p) (t : EncodedTable)

include hM

theorem conceals_sortFirst (doSorting : Bool)
    {f f' : Fin N → Except Halt (PartyM N d G (Memory ρ n d))}
    (hf : doSorting = true → Conceals mode tapes p secret f f') :
    Conceals mode tapes p secret (fun i => sortFirst doSorting (f i) (M i))
      fun i => sortFirst doSorting (f' i) (M' i) := by
  cases doSorting
  exacts [.ok (.pure hM), hf rfl]

include hP

theorem conceals_sortColumns {keys : List String} (desc : List Bool)
    {toBeSortedColumns : List String} (hA : t.dataA keys toBeSortedColumns = []) :
    Conceals mode tapes p secret
      (fun i => asserted (t.sortColumns (P i) keys desc toBeSortedColumns (M i)))
      fun i => asserted (t.sortColumns (P i) keys desc toBeSortedColumns (M' i)) := by
  simp only [sortColumns, asserted_bind, hA]
  exact .lookup fun _ _ => .lookup fun keysVec _ => .ok (hides_bitonicSort hP keysVec _ desc hM)

theorem conceals_sortAsserted {keys : List String} (desc : List Bool)
    {toBeSortedColumns : List String} (hA : t.dataA keys toBeSortedColumns = []) :
    Conceals mode tapes p secret
      (fun i => t.sortAsserted (P i) keys desc toBeSortedColumns (M i))
      fun i => t.sortAsserted (P i) keys desc toBeSortedColumns (M' i) :=
  (conceals_sortColumns hP hM t desc hA).bind fun _ _ hm => .lookup fun _ _ => .ok hm

variable [NeZero N]

omit hM in
/-- The aggregation of boolean columns after the sorting. -/
theorem conceals_aggregation {func : Fin N → AggregationFunction N ρ n d G}
    (hfunc : HidesRounds mode tapes p secret func) (keysVec : List ℕ) (data res : List String)
    (reverse : Bool) {m m' : Fin N → PartyM N d G (Memory ρ n d)}
    (hm : HidesAt mode tapes p secret m m') :
    Conceals mode tapes p secret
      (fun i => do
        asserted (guard (data.length = res.length ∧ data ≠ []))
        let dataVec ← asserted (data.mapM (t.shared .bSharedVector))
        let resVec ← asserted (res.mapM (t.shared .bSharedVector))
        return m i >>= Operators.oddEvenAggregation (P i) .bSharedVector keysVec dataVec resVec
          (func i) reverse none)
      fun i => do
        asserted (guard (data.length = res.length ∧ data ≠ []))
        let dataVec ← asserted (data.mapM (t.shared .bSharedVector))
        let resVec ← asserted (res.mapM (t.shared .bSharedVector))
        return m' i >>= Operators.oddEvenAggregation (P i) .bSharedVector keysVec dataVec resVec
          (func i) reverse none :=
  .lookup fun _ hguard => .lookup fun dataVec hdata => .lookup fun resVec hres => .ok <|
    hm.bind fun _ _ hM => hides_oddEvenAggregation hP keysVec dataVec resVec hfunc reverse none none
      rfl hM <| length_pos_of_mapM (asserted_eq_ok.mp hguard) (asserted_eq_ok.mp hdata)
        (asserted_eq_ok.mp hres)

/-- **A method without `b2a_bit` looks the same** from memories that do. -/
theorem conceals_call (method : Method N ρ d) (h : method.Masked t) :
    Conceals mode tapes p secret (fun i => method.call (P i) i t (M i))
      fun i => method.call (P i) i t (M' i) := by
  cases method with
  | sort keys desc => exact conceals_sortAsserted hP hM t desc h
  | sortColumns keys desc cols => exact conceals_sortAsserted hP hM t desc h
  | convertA2b inputA outputB =>
    refine .lookup fun a _ => .lookup fun o _ => .ok ?_
    refine (hP.a2b ?_).bind fun z z' hz => .pure (by rw [hM, hz])
    rw [hM]
  | convertB2aBit => exact h.elim
  | oddEvenAggregation keys data res aggregationType reverse doSorting =>
    refine (conceals_sortFirst hM doSorting fun hs =>
      conceals_sortAsserted hP hM t _ (h.2 hs)).bind fun m m' hm => .lookup fun keysVec _ => ?_
    cases aggregationType with
    | sum => exact absurd rfl h.1
    | max => exact conceals_aggregation hP t (hides_maxAggregationWith hP false) keysVec _ _ _ hm
    | min => exact conceals_aggregation hP t (hides_maxAggregationWith hP true) keysVec _ _ _ hm
    | count | extra => exact .inl ⟨_, fun _ => rfl, fun _ => rfl⟩
  | distinct keys res =>
    exact .lookup fun keysVec _ => .lookup fun r _ => .lookup fun _ _ =>
      .ok (hides_distinct hP keysVec r hM)
  | tumblingWindow => exact h.elim
  | gapSessionWindow keys timeA timeB windowId gap pastEnd doSorting =>
    refine .lookup fun _ _ => ?_
    simp only [asserted_gapSessionWindow]
    refine (conceals_sortFirst hM doSorting fun hs => conceals_sortColumns hP hM t _ (h hs)).bind
      fun m m' hm => .lookup fun keysVec _ => .lookup fun a _ => .lookup fun b _ =>
        .lookup fun w _ => .ok (hm.bind fun M M' hM => ?_)
    exact hides_gapSessionWindow hP _ _ _ _ _ rfl hM
  | thresholdSessionWindow keys functionRes timeB windowId threshold doSorting =>
    refine .lookup fun _ _ => ?_
    refine (conceals_sortFirst hM doSorting fun hs => conceals_sortColumns hP hM t _ (h hs)).bind
      fun m m' hm => .lookup fun keysVec _ => .lookup fun f _ => .lookup fun b _ =>
        .lookup fun w _ => .ok (hm.bind fun M M' hM => ?_)
    exact hides_thresholdSessionWindow hP _ _ _ _ _ hM

end Calls

/-! ## Expressions -/

/-- Columns of one encoding and size that look the same to `p`. -/
inductive SamePending (mode : SendMode) (tapes : (J → ℕ → W) → Fin N → G) (p : Fin N)
    (secret : J → Prop) : Pending N ρ d G → Pending N ρ d G → Prop
  | intro {encoding : Encoding} {size : ℕ} {m m' : Fin N → PartyM N d G (EVector ρ size d)}
      (h : HidesAt mode tapes p secret m m') :
      SamePending mode tapes p secret ⟨encoding, size, m⟩ ⟨encoding, size, m'⟩

section Expressions

variable {P : Fin N → Protocol N ρ d G} {ts ts' : List (Table N ρ d)}

theorem SameVector.pending {v v' : EncodedVector N ρ d} (hv : SameVector p v v') {e e' : Encoding}
    (he : e = e') : SamePending (G := G) mode tapes p secret
      ⟨e, v.size, fun i => return v.shares i⟩ ⟨e', v'.size, fun i => return v'.shares i⟩ := by
  obtain ⟨hshares⟩ := hv
  exact he ▸ .intro (.pure hshares)

theorem hides_unary (op : UnaryOp) {x x' : Fin N → EVector ρ n d} (hx : x p = x' p) :
    HidesAt mode tapes p secret (fun i => op.run (P i) (x i)) fun i => op.run (P i) (x' i) := by
  cases op <;> exact .pure (by rw [hx])

variable (hP : Protocol.Hides P mode tapes p secret)
include hP

theorem hides_binary (op : BinaryOp) {x x' y y' : Fin N → EVector ρ n d} (hx : x p = x' p)
    (hy : y p = y' p) : HidesAt mode tapes p secret (fun i => op.run (P i) (x i) (y i))
      fun i => op.run (P i) (x' i) (y' i) := by
  cases op
  exacts [.pure (by rw [hx, hy]), .pure (by rw [hx, hy]), hP.multiplyA hx hy, hP.andB hx hy,
    .pure (by rw [hx, hy]), hP.or hx hy, hP.eq hx hy, hP.ne hx hy, hP.gt hx hy, hP.gt hy hx,
    hP.ge hx hy, hP.le hx hy]

/-- **An expression looks the same** on tables that do. -/
theorem sameEval (hts : SameTables p ts ts') {x : ColumnExpr} {u : Pending N ρ d G}
    (hu : x.eval P ts = some u) :
    ∃ u', x.eval P ts' = some u' ∧ SamePending mode tapes p secret u u' := by
  induction x generalizing u with
  | column table name =>
    obtain ⟨t, j, ht, hj, rfl⟩ := ColumnExpr.eval_column hu
    obtain ⟨t', ht', hsame⟩ := exists_related hts ht
    cases hsame with
    | @intro names h bShare rows columns columns' hcolumns =>
      have heval : (ColumnExpr.column table name).eval P ts'
          = some ⟨(columns' j).encoding, (columns' j).contents.size, fun i =>
            return (columns' j).contents.shares i⟩ := by
        have hj' : Table.find ⟨names, h, columns', bShare, rows⟩ name = some j := hj
        simp only [ColumnExpr.eval, ht', hj', Option.bind_eq_bind, Option.bind_some,
          Option.pure_def]
      exact ⟨_, heval, (hcolumns j).pending (SameTable.encoding hcolumns j)⟩
  | allocate size eType =>
    obtain rfl := Option.some.inj hu
    exact ⟨_, rfl, .intro (.pure rfl)⟩
  | unary op x ih =>
    obtain ⟨v, hv, rfl⟩ := ColumnExpr.eval_unary hu
    obtain ⟨v', hv', hsame⟩ := ih hv
    have henc := ColumnExpr.encoding_of_unary hu hv
    cases hsame with
    | @intro _ size m m' h =>
      have heval : (ColumnExpr.unary op x).eval P ts'
          = some ⟨op.encoding, size, fun i => m' i >>= fun x => op.run (P i) x⟩ := by
        simp only [ColumnExpr.eval, hv', Option.bind_eq_bind, Option.bind_some, guard]
        rw [if_pos henc]
        rfl
      exact ⟨_, heval, .intro (h.bind fun x x' hx => hides_unary op hx)⟩
  | binary op x y ihx ihy =>
    obtain ⟨v, w, hvw, hv, hw, rfl⟩ := ColumnExpr.eval_binary hu
    obtain ⟨v', hv', hsame⟩ := ihx hv
    obtain ⟨w', hw', hsame'⟩ := ihy hw
    obtain ⟨henc, henc'⟩ := ColumnExpr.encoding_of_binary hu hv hw
    cases hsame with
    | @intro _ size m m' hm =>
      cases hsame' with
      | @intro _ _ k k' hk =>
        have heval : (ColumnExpr.binary op x y).eval P ts' = some ⟨op.encoding, size, fun i => do
            let x ← m' i
            let y ← k' i
            op.run (P i) x (Table.resize hvw y)⟩ := by
          simp only [ColumnExpr.eval, hv', hw', Option.bind_eq_bind, Option.bind_some, guard]
          rw [if_pos ⟨henc, henc.trans henc'.symm⟩]
          exact dif_pos hvw
        exact ⟨_, heval, .intro (hm.bind fun x x' hx => hk.bind fun y y' hy =>
          hides_binary hP op hx (congrArg (Table.resize hvw) hy))⟩

end Expressions

/-! ## Statements -/

/-- Statements that look the same to `p`: another party may share other data. -/
inductive SameStatement (p : Fin N) : Statement N ρ d → Statement N ρ d → Prop
  | refl (st : Statement N ρ d) : SameStatement p st st
  | secretShare {schema : List String} {rows : ℕ}
      {columns columns' : Fin schema.length → Vec rows d} {partyId : Fin N}
      (h : partyId = p → columns = columns') :
      SameStatement p (.secretShare schema rows columns partyId)
        (.secretShare schema rows columns' partyId)

/-- **The statements without `b2a_bit`**, on the tables there. -/
def Statement.Masked (ts : List (Table N ρ d)) : Statement N ρ d → Prop
  | call table method => ∀ t, ts[table]? = some t → method.Masked t.view
  | _ => True

/-- Code that looks the same to `p`, and leaves tables that do. -/
inductive SameCode (mode : SendMode) (tapes : (J → ℕ → W) → Fin N → G) (p : Fin N)
    (secret : J → Prop) : Code N ρ d G → Code N ρ d G → Prop
  | intro {α : Type} {m m' : Fin N → PartyM N d G α}
      {finish finish' : (Fin N → α) → List (Table N ρ d)} (h : HidesAt mode tapes p secret m m')
      (hfinish : ∀ a a', a p = a' p → SameTables p (finish a) (finish' a')) :
      SameCode mode tapes p secret ⟨α, m, finish⟩ ⟨α, m', finish'⟩

section Statements

variable {P : Fin N → Protocol N ρ d G} (hP : Protocol.Hides P mode tapes p secret)
variable {ts ts' : List (Table N ρ d)} {st st' : Statement N ρ d} {c : Code N ρ d G}

include hP

theorem hides_secretShareTable {schema : List String}
    {columns columns' : Fin schema.length → Vec n d} {q : Fin N} (h : q = p → columns = columns') :
    HidesAt mode tapes p secret (fun i => Table.secretShare (P i) schema columns q)
      fun i => Table.secretShare (P i) schema columns' q := by
  refine Hides.foldlM rfl fun j _ cols cols' hcols => ?_
  split
  · exact (hP.secretShareB fun hq => by rw [h hq]).bind fun v v' hv => .pure (by rw [hcols, hv])
  · exact (hP.secretShareA fun hq => by rw [h hq]).bind fun v v' hv => .pure (by rw [hcols, hv])

variable [NeZero N]

/-- A method on two tables: their sizes decide alike whether it is defined. -/
theorem conceals_run {names : List String} {h : names.Nodup} {bShare : Fin names.length → Bool}
    {rows : ℕ} {columns columns' : Fin names.length → EncodedColumn N ρ d}
    (hcolumns : ∀ j, SameVector p (columns j).contents (columns' j).contents)
    {method : Method N ρ d} (hmask : method.Masked (Table.view ⟨names, h, columns, bShare, rows⟩)) :
    Conceals (α := Memory ρ rows d) mode tapes p secret
      (fun i => method.run (P i) i ⟨names, h, columns, bShare, rows⟩)
      fun i => method.run (P i) i ⟨names, h, columns', bShare, rows⟩ := by
  have hsizes : (∀ j, (columns j).contents.size = rows) ↔ ∀ j, (columns' j).contents.size = rows :=
    SameTable.sizes hcolumns
  by_cases hsize : ∀ j, (columns j).contents.size = rows
  · have hsize' := hsizes.mp hsize
    simp only [Method.run, dif_pos hsize, dif_pos hsize', ← SameTable.view hcolumns]
    exact conceals_call hP (SameTable.memory hcolumns hsize hsize') _ method hmask
  · have hsize' := fun h => hsize (hsizes.mpr h)
    simp only [Method.run, dif_neg hsize, dif_neg hsize']
    exact .inl ⟨_, fun _ => rfl, fun _ => rfl⟩

/-- **A statement runs the same** on tables that look the same. -/
theorem sameRuns (hts : SameTables p ts ts') (hst : SameStatement p st st') (hmask : st.Masked ts)
    (hc : st.Runs P ts c) : ∃ c', st'.Runs P ts' c' ∧ SameCode mode tapes p secret c c' := by
  cases hc with
  | create h =>
    cases hst
    exact ⟨_, .create h, .intro (.pure rfl) fun _ _ _ =>
      List.rel_append hts (.cons (sameTable_ofShares _ h rfl) .nil)⟩
  | @secretShare schema rows columns q h hne =>
    have hshare : ∀ columns' : Fin schema.length → Vec rows d, (q = p → columns = columns') →
        ∃ c', (Statement.secretShare schema rows columns' q).Runs P ts' c' ∧
          SameCode mode tapes p secret ⟨Fin schema.length → EVector ρ rows d,
            fun i => Table.secretShare (P i) schema columns q,
            fun x => ts ++ [Table.ofShares schema h x]⟩ c' := fun columns' hcolumns =>
      ⟨_, .secretShare h hne, .intro (hides_secretShareTable hP hcolumns) fun _ _ hx =>
        List.rel_append hts (.cons (sameTable_ofShares _ h hx) .nil)⟩
    cases hst with
    | refl => exact hshare columns fun _ => rfl
    | secretShare hcolumns => exact hshare _ hcolumns
  | @assign table name x t j v ht hj hx hv =>
    cases hst
    obtain ⟨t', ht', hsame⟩ := exists_related hts ht
    obtain ⟨v', hv', hpending⟩ := sameEval hP hts hv
    cases hsame with
    | @intro names h bShare rows columns columns' hcolumns =>
      cases hpending with
      | intro hhides =>
        have hj' : Table.find ⟨names, h, columns', bShare, rows⟩ name = some j := hj
        exact ⟨_, .assign ht' hj' hx hv', .intro hhides fun z z' hz =>
          related_set hts (SameTable.assign hcolumns (.intro hz) j) table⟩
  | @call table method t m ht hm =>
    cases hst
    obtain ⟨t', ht', hsame⟩ := exists_related hts ht
    cases hsame with
    | intro hcolumns =>
      rcases conceals_run hP hcolumns (hmask _ ht) with ⟨e, he, -⟩ | ⟨m₁, m', hm₁, hm', hhides⟩
      · exact absurd ((hm 0).symm.trans (he 0)) (by simp)
      obtain rfl : m₁ = m := by
        ext i : 1
        exact Except.ok.inj ((hm₁ i).symm.trans (hm i))
      exact ⟨_, .call ht' hm', .intro hhides fun M M' hM =>
        related_set hts (SameTable.store hcolumns hM) table⟩

end Statements

/-! ## Programs -/

section Symmetry

variable {ts ts' : List (Table N ρ d)} {st st' : Statement N ρ d}

theorem SameTable.symm {t t' : Table N ρ d} (h : SameTable p t t') : SameTable p t' t := by
  obtain ⟨hcolumns⟩ := h
  exact .intro fun j => (hcolumns j).symm

theorem sameTables_symm (hts : SameTables p ts ts') : SameTables p ts' ts :=
  hts.flip.imp fun _ _ h => h.symm

theorem SameStatement.symm (h : SameStatement p st st') : SameStatement p st' st := by
  cases h with
  | refl => exact .refl _
  | secretShare h => exact .secretShare fun hq => (h hq).symm

/-- Being without `b2a_bit` is public. -/
theorem SameStatement.masked (hst : SameStatement p st st') (hts : SameTables p ts ts')
    (hmask : st.Masked ts) : st'.Masked ts' := by
  cases hst with
  | secretShare => trivial
  | refl =>
    cases st with
    | call table method =>
      intro t' ht'
      obtain ⟨t, ht, hsame⟩ := exists_related (sameTables_symm hts) ht'
      obtain ⟨hcolumns⟩ := hsame
      exact SameTable.view hcolumns ▸ hmask _ ht
    | _ => trivial

end Symmetry

section Programs

variable [NeZero N] {P : Fin N → Protocol N ρ d G} {ts ts' : List (Table N ρ d)}
variable {prog prog' : List (Statement N ρ d)}

/-- **A program without `b2a_bit`**, whatever the shares after its statements. -/
def StaysMasked (P : Fin N → Protocol N ρ d G) : List (Statement N ρ d) → List (Table N ρ d) → Prop
  | [], _ => True
  | st :: prog, ts => st.Masked ts ∧ ∀ c, st.Runs P ts c → ∀ a, StaysMasked P prog (c.finish a)

/-- The programs end at the same statement, with tables that look the same. -/
structure SameEnding (p : Fin N) (e e' : Ending N ρ d G) : Prop where
  left : List.Forall₂ (SameStatement p) e.left e'.left
  tables : SameTables p e.tables e'.tables

/-- **The run lemma**: programs that differ in the data of other parties look the same. -/
theorem indistinguishable_program (hP : Protocol.Hides P mode tapes p secret)
    (hprog : List.Forall₂ (SameStatement p) prog prog') (hts : SameTables p ts ts')
    (hmask : StaysMasked P prog ts) :
    Indistinguishable Channel.dest tapes p secret (Performs P mode prog ts)
      (Performs P mode prog' ts') (SameEnding p) := by
  induction hprog generalizing ts ts' with
  | nil =>
    exact ⟨.refl _, fun _ _ _ => rfl, fun K => ⟨_, _, _, _, .done, .done, ⟨.nil, hts⟩,
      fun _ _ => rfl⟩⟩
  | @cons st st' prog prog' hst hprog ih =>
    by_cases hc : ∃ c, st.Runs P ts c
    · obtain ⟨c, hc⟩ := hc
      obtain ⟨c', hc', hsame⟩ := sameRuns hP hts hst hmask.1 hc
      cases hsame with
      | intro hhides hfinish =>
        refine (hhides _ (fun a => Performs P mode prog _) (fun a => Performs P mode prog' _) _
          fun a a' ha => ih (hfinish a a' ha) (hmask.2 _ hc a)).mono ?_ ?_
        · rintro g e h ⟨a, g', h₁, h₂, hy, hr, rfl⟩
          exact .step hc hy hr
        · rintro g e h ⟨a, g', h₁, h₂, hy, hr, rfl⟩
          exact .step hc' hy hr
    · have hc' : ¬∃ c, st'.Runs P ts' c := by
        rintro ⟨c', hc'⟩
        obtain ⟨c, hc'', -⟩ := sameRuns hP (sameTables_symm hts) hst.symm
          (hst.masked hts hmask.1) hc'
        exact hc ⟨c, hc''⟩
      exact ⟨.refl _, fun _ _ _ => rfl, fun K => ⟨_, _, _, _, .halt fun c h => hc ⟨c, h⟩,
        .halt fun c h => hc' ⟨c, h⟩, ⟨.cons hst hprog, hts⟩, fun _ _ => rfl⟩⟩

end Programs

end Tva.Relational
