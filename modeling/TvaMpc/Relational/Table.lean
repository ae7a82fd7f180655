import TvaMpc.Machinery.Exits
import TvaMpc.Machinery.Transition
import TvaMpc.Relational.EncodedTable
import Mathlib.Data.List.FinRange
import Mathlib.Data.List.Sort

/-!
# Relational/Table — tables with their columns, as the parties hold them

What a party knows of a table without its shares is public: the names, the number of rows, and three
records of the encoding of a column.  `bShare` is made from the name, and the column has its own and
that of its contents.  An assignment replaces the column and leaves `bShare` alone.

A program makes tables, assigns expressions to their columns and calls their methods (`Step`).
-/

namespace Tva.Relational

open Machinery Operators EncodedTable

variable {N ρ n m : ℕ} {d : DataType} {G : Type}

/-! ## Columns -/

/-- Vector encoding types. -/
inductive Encoding where
  | aShared
  | bShared
  deriving DecidableEq

/-- A shared vector: its class and its size are public. -/
structure EncodedVector (N ρ : ℕ) (d : DataType) where
  encoding : Encoding
  size : ℕ
  shares : Fin N → EVector ρ size d

/-- **The plaintext under the encoding**: the components are added up, or combined by `^`. -/
def EncodedVector.plaintext [NeZero ρ] (v : EncodedVector N ρ d) : Vec v.size d :=
  match v.encoding with
  | .aShared => ∑ i, v.shares i 0
  | .bShared => (List.finRange N).foldr (fun i w => v.shares i 0 ^^^ w) 0

/-- A column.  It takes its encoding from its contents, when it is made and when it is assigned. -/
structure EncodedColumn (N ρ : ℕ) (d : DataType) where
  encoding : Encoding
  contents : EncodedVector N ρ d
  encoding_eq : encoding = contents.encoding

/-- `SharedColumn(_shares)`; `operator=` leaves the same. -/
def sharedColumn (v : EncodedVector N ρ d) : EncodedColumn N ρ d := ⟨v.encoding, v, rfl⟩

/-! ## Tables -/

/-- A table.  The columns are in the order of the user. -/
structure Table (N ρ : ℕ) (d : DataType) where
  names : List String
  names_nodup : names.Nodup
  columns : Fin names.length → EncodedColumn N ρ d
  bShare : Fin names.length → Bool
  rows : ℕ

/-- `isBShared`: names of boolean columns are within square brackets. -/
def isBShared (name : String) : Bool := decide ('[' ∈ name.toList)

namespace Table

/-- The columns with the encodings of their names. -/
def ofShares (schema : List String) (h : schema.Nodup)
    (x : Fin N → Fin schema.length → EVector ρ n d) : Table N ρ d where
  names := schema
  names_nodup := h
  columns j := sharedColumn
    ⟨if isBShared (schema.get j) then .bShared else .aShared, n, fun i => x i j⟩
  bShare j := isBShared (schema.get j)
  rows := n

/-- `EncodedTable(_tableName, _columns, _rows)`: columns of zeros. -/
def create (schema : List String) (h : schema.Nodup) (rows : ℕ) : Table N ρ d :=
  ofShares (n := rows) schema h fun _ _ _ _ => 0

/-- `secret_share`, of columns of one size. -/
def secretShare (P : Protocol N ρ d G) (schema : List String)
    (columns : Fin schema.length → Vec n d) (partyId : Fin N) :
    PartyM N d G (Fin schema.length → EVector ρ n d) :=
  (List.finRange schema.length).foldlM (fun cols j => do
    let v ← if isBShared (schema.get j) then P.secretShareB (columns j) partyId
      else P.secretShareA (columns j) partyId
    return Function.update cols j v) fun _ _ _ => 0

variable (t : Table N ρ d)

/-- `schema.at`. -/
def find (name : String) : Option (Fin t.names.length) :=
  (List.finRange t.names.length).find? fun j => t.names.get j = name

/-- The vector of a column, numbered. -/
def column (j : Fin t.names.length) : Column :=
  match (t.columns j).encoding with
  | .aShared => .a j
  | .bShared => .b j

/-- The places of the columns in the order of the map. -/
def mapOrder : List (Fin t.names.length) :=
  (List.finRange t.names.length).mergeSort fun j k => decide (t.names.get j ≤ t.names.get k)

theorem find_eq_some_iff {t : Table N ρ d} {name : String} {j : Fin t.names.length} :
    t.find name = some j ↔ t.names.get j = name := by
  have hname : ∀ {k}, t.find name = some k → t.names.get k = name := fun h => by
    simpa only [decide_eq_true_eq] using List.find?_some (p := fun k => t.names.get k = name) h
  refine ⟨hname, fun h => ?_⟩
  obtain ⟨k, hk⟩ : ∃ k, t.find name = some k := Option.isSome_iff_exists.mp
    (List.find?_isSome.mpr ⟨j, List.mem_finRange j, decide_eq_true h⟩)
  rw [hk, List.nodup_iff_injective_get.mp t.names_nodup ((hname hk).trans h.symm)]

theorem column_injective : Function.Injective t.column := by
  intro j k h
  rw [column, column] at h
  cases hj : (t.columns j).encoding <;> cases hk : (t.columns k).encoding <;>
    simp_all [Fin.ext_iff]

theorem nodup_mapOrder : t.mapOrder.Nodup :=
  (List.mergeSort_perm _ _).nodup_iff.mpr (List.nodup_finRange _)

/-- What the methods see of the table. -/
def view : EncodedTable where
  schema := t.mapOrder.map fun j => (t.names.get j, t.column j)
  names_nodup := by
    rw [List.map_map]
    exact t.nodup_mapOrder.map (List.nodup_iff_injective_get.mp t.names_nodup)
  columns_nodup := by
    rw [List.map_map]
    exact t.nodup_mapOrder.map t.column_injective

/-- The vector with another name for its size. -/
def resize (h : m = n) (x : EVector ρ m d) : EVector ρ n d := fun k j => x k (j.cast h.symm)

/-- The place of a vector among the columns. -/
def place : Column → ℕ
  | .a j => j
  | .b j => j

/-- The vectors of party `i`, where all have the size of the table. -/
def memory (h : ∀ j, (t.columns j).contents.size = t.rows) (i : Fin N) : Memory ρ t.rows d :=
  fun c =>
    if hj : place c < t.names.length then
      resize (h ⟨place c, hj⟩) ((t.columns ⟨place c, hj⟩).contents.shares i)
    else fun _ _ => 0

/-- The table after a method has changed the vectors in place. -/
def store (M : Fin N → Memory ρ t.rows d) : Table N ρ d :=
  { t with columns := fun j =>
      sharedColumn ⟨(t.columns j).contents.encoding, t.rows, fun i => M i (t.column j)⟩ }

/-- `operator[](name) = other`: the column takes the encoding and the contents. -/
def assign (j : Fin t.names.length) (v : EncodedVector N ρ d) : Table N ρ d :=
  { t with columns := Function.update t.columns j (sharedColumn v) }

/-! ### Opening -/

/-- Opening the vector of a column.  `bShare` decides on a cast only, and `open` is virtual. -/
def openColumn (P : Protocol N ρ d G) (i : Fin N) (j : Fin t.names.length) :
    PartyM N d G (Vec (t.columns j).contents.size d) :=
  match (t.columns j).contents.encoding with
  | .aShared => P.openSharesA ((t.columns j).contents.shares i)
  | .bShared => P.openSharesB ((t.columns j).contents.shares i)

/-- **`open`.** -/
def openTable (P : Protocol N ρ d G) (i : Fin N) : PartyM N d G (List (List (Word d))) :=
  (List.finRange t.names.length).foldlM (fun res j => do
    let v ← t.openColumn P i j
    return res ++ [List.ofFn v]) []

/-- The plaintexts of the columns, under the encodings of their contents. -/
def plaintexts [NeZero ρ] : List (List (Word d)) :=
  (List.finRange t.names.length).map fun j => List.ofFn (t.columns j).contents.plaintext

end Table

/-! ## Expressions -/

/-- A column that the parties compute. -/
structure Pending (N ρ : ℕ) (d : DataType) (G : Type) where
  encoding : Encoding
  size : ℕ
  program : Fin N → PartyM N d G (EVector ρ size d)

/-- The unary operators of columns: `-`, `~` and `!`. -/
inductive UnaryOp where
  | neg
  | complement
  | not

/-- The encoding that the operator asserts, and gives its result. -/
def UnaryOp.encoding : UnaryOp → Encoding
  | neg => .aShared
  | complement => .bShared
  | not => .bShared

def UnaryOp.run (P : Protocol N ρ d G) (op : UnaryOp) (x : EVector ρ n d) :
    PartyM N d G (EVector ρ n d) :=
  match op with
  | neg => return P.negA x
  | complement => return P.notB x
  | not => return P.notB1 x

/-- The binary operators of columns. -/
inductive BinaryOp where
  | add
  | sub
  | mul
  | and
  | xor
  | or
  | eq
  | ne
  | gt
  | lt
  | ge
  | le

/-- The encoding that the operator asserts of both operands, and gives its result. -/
def BinaryOp.encoding : BinaryOp → Encoding
  | add | sub | mul => .aShared
  | and | xor | or | eq | ne | gt | lt | ge | le => .bShared

def BinaryOp.run (P : Protocol N ρ d G) (op : BinaryOp) (x y : EVector ρ n d) :
    PartyM N d G (EVector ρ n d) :=
  match op with
  | add => return P.addA x y
  | sub => return P.subA x y
  | mul => P.multiplyA x y
  | and => P.andB x y
  | xor => return P.xorB x y
  | or => P.or x y
  | eq => P.eq x y
  | ne => P.ne x y
  | gt => P.gt x y
  | lt => P.lt x y
  | ge => P.ge x y
  | le => P.le x y

/-- Column expressions: columns of the tables, which are numbered, new columns, and operators. -/
inductive ColumnExpr where
  | column (table : ℕ) (name : String)
  | allocate (size : ℕ) (eType : Encoding)
  | unary (op : UnaryOp) (x : ColumnExpr)
  | binary (op : BinaryOp) (x y : ColumnExpr)

namespace ColumnExpr

/-- Only a column that nobody else has can be assigned; for a column of a table there is no
`operator=`. -/
def IsTemporary : ColumnExpr → Prop
  | column _ _ => False
  | _ => True

/-- The value of an expression; `none` is a missing name or a failed assertion.  A new column,
`SharedColumn(_size, eType)`, has zeros. -/
def eval (P : Fin N → Protocol N ρ d G) (ts : List (Table N ρ d)) :
    ColumnExpr → Option (Pending N ρ d G)
  | column table name => do
      let t ← ts[table]?
      let j ← t.find name
      return ⟨(t.columns j).encoding, (t.columns j).contents.size, fun i =>
        return (t.columns j).contents.shares i⟩
  | allocate size eType => some ⟨eType, size, fun _ => return fun _ _ => 0⟩
  | unary op x => do
      let v ← x.eval P ts
      guard (v.encoding = op.encoding)
      return ⟨op.encoding, v.size, fun i => v.program i >>= fun x => op.run (P i) x⟩
  | binary op x y => do
      let v ← x.eval P ts
      let w ← y.eval P ts
      guard (v.encoding = op.encoding ∧ v.encoding = w.encoding)
      if h : w.size = v.size then
        return ⟨op.encoding, v.size, fun i => do
          let x ← v.program i
          let y ← w.program i
          op.run (P i) x (Table.resize h y)⟩
      else none

end ColumnExpr

/-! ## Programs -/

/-- A call of a method.  `pastEnd` is what a window reads behind a vector of one element. -/
inductive Method (N ρ : ℕ) (d : DataType) where
  | sort (keys : List String) (desc : List Bool)
  | sortColumns (keys : List String) (desc : List Bool) (toBeSortedColumns : List String)
  | convertA2b (inputA outputB : String)
  | convertB2aBit (inputB outputA : String)
  | oddEvenAggregation (keys data res : List String) (aggregationType : AggregationType)
      (reverse doSorting : Bool)
  | distinct (keys : List String) (res : String)
  | tumblingWindow (timeA : String) (windowSize : Word d) (res : String)
  | gapSessionWindow (keys : List String) (timeA timeB windowId : String) (gap : Word d)
      (pastEnd : Fin N → Fin ρ → Word d) (doSorting : Bool)
  | thresholdSessionWindow (keys : List String) (functionRes timeB windowId : String)
      (threshold : Word d) (doSorting : Bool)

/-- What party `i` does on its vectors. -/
def Method.call [NeZero N] (P : Protocol N ρ d G) (i : Fin N) (t : EncodedTable)
    (M : Memory ρ n d) : Method N ρ d → Except Halt (PartyM N d G (Memory ρ n d))
  | sort keys desc => t.sortAsserted P keys desc t.names M
  | sortColumns keys desc toBeSortedColumns => t.sortAsserted P keys desc toBeSortedColumns M
  | convertA2b inputA outputB => t.convertA2b P inputA outputB M
  | convertB2aBit inputB outputA => t.convertB2aBit P inputB outputA M
  | oddEvenAggregation keys data res aggregationType reverse doSorting =>
      t.oddEvenAggregation P keys data res aggregationType reverse doSorting M
  | distinct keys res => t.distinct P keys res M
  | tumblingWindow timeA windowSize res => t.tumblingWindow P timeA windowSize res M
  | gapSessionWindow keys timeA timeB windowId gap pastEnd doSorting =>
      t.gapSessionWindowAsserted P keys timeA timeB windowId gap (pastEnd i) doSorting M
  | thresholdSessionWindow keys functionRes timeB windowId threshold doSorting =>
      t.thresholdSessionWindow P keys functionRes timeB windowId threshold doSorting M

/-- The call on a table; the operators take it for granted that all columns have its size. -/
def Method.run [NeZero N] (P : Protocol N ρ d G) (i : Fin N) (t : Table N ρ d)
    (method : Method N ρ d) : Except Halt (PartyM N d G (Memory ρ t.rows d)) :=
  if h : ∀ j, (t.columns j).contents.size = t.rows then method.call P i t.view (t.memory h i)
  else .error .undefined

/-- The statements of a program about its tables. -/
inductive Statement (N ρ : ℕ) (d : DataType) where
  | create (schema : List String) (rows : ℕ)
  | secretShare (schema : List String) (rows : ℕ) (columns : Fin schema.length → Vec rows d)
      (partyId : Fin N)
  | assign (table : ℕ) (name : String) (x : ColumnExpr)
  | call (table : ℕ) (method : Method N ρ d)

/-- The code of the parties, and the tables after it. -/
structure Code (N ρ : ℕ) (d : DataType) (G : Type) where
  α : Type
  program : Fin N → PartyM N d G α
  finish : (Fin N → α) → List (Table N ρ d)

/-- **What the parties run for a statement**, if they go on: two columns of one name stop the
program, and a table from shared columns needs one. -/
inductive Statement.Runs [NeZero N] (P : Fin N → Protocol N ρ d G) (ts : List (Table N ρ d)) :
    Statement N ρ d → Code N ρ d G → Prop
  | create {schema : List String} {rows : ℕ} (h : schema.Nodup) :
      Runs P ts (.create schema rows)
        ⟨Unit, fun _ => return (), fun _ => ts ++ [Table.create schema h rows]⟩
  | secretShare {schema : List String} {rows : ℕ} {columns : Fin schema.length → Vec rows d}
      {partyId : Fin N} (h : schema.Nodup) (hne : schema ≠ []) :
      Runs P ts (.secretShare schema rows columns partyId)
        ⟨Fin schema.length → EVector ρ rows d,
          fun i => Table.secretShare (P i) schema columns partyId,
          fun x => ts ++ [Table.ofShares schema h x]⟩
  | assign {table : ℕ} {name : String} {x : ColumnExpr} {t : Table N ρ d}
      {j : Fin t.names.length} {v : Pending N ρ d G} (ht : ts[table]? = some t)
      (hj : t.find name = some j) (hx : x.IsTemporary) (hv : x.eval P ts = some v) :
      Runs P ts (.assign table name x) ⟨EVector ρ v.size d, v.program,
        fun z => ts.set table (t.assign j ⟨v.encoding, v.size, z⟩)⟩
  | call {table : ℕ} {method : Method N ρ d} {t : Table N ρ d}
      {m : Fin N → PartyM N d G (Memory ρ t.rows d)} (ht : ts[table]? = some t)
      (hm : ∀ i, method.run (P i) i t = .ok (m i)) :
      Runs P ts (.call table method) ⟨Memory ρ t.rows d, m, fun M => ts.set table (t.store M)⟩

/-- **The steps of the parties**, with their generators and their tables, if the program does not
stop.  After `none` anything may happen: a method has cast to the wrong class, or the code of a
party has written outside of a vector. -/
inductive Step [NeZero N] (P : Fin N → Protocol N ρ d G) (mode : SendMode) (g : Fin N → G)
    (ts : List (Table N ρ d)) :
    Statement N ρ d → (Fin N → G) → Option (List (Table N ρ d)) → Prop
  | create {schema : List String} {rows : ℕ} (h : schema.Nodup) :
      Step P mode g ts (.create schema rows) g (some (ts ++ [Table.create schema h rows]))
  | secretShare {schema : List String} {rows : ℕ} {columns : Fin schema.length → Vec rows d}
      {partyId : Fin N} {g' : Fin N → G} {x : Fin N → Fin schema.length → EVector ρ rows d}
      {sent : Channel N → List (List (Word d))} (h : schema.Nodup) (hne : schema ≠ [])
      (hy : Yields mode (fun i => Table.secretShare (P i) schema columns partyId) g x g' sent) :
      Step P mode g ts (.secretShare schema rows columns partyId) g'
        (some (ts ++ [Table.ofShares schema h x]))
  | assign {table : ℕ} {name : String} {x : ColumnExpr} {t : Table N ρ d}
      {j : Fin t.names.length} {v : Pending N ρ d G} {g' : Fin N → G}
      {z : Fin N → EVector ρ v.size d} {sent : Channel N → List (List (Word d))}
      (ht : ts[table]? = some t) (hj : t.find name = some j) (hx : x.IsTemporary)
      (hv : x.eval P ts = some v) (hy : Yields mode v.program g z g' sent) :
      Step P mode g ts (.assign table name x) g'
        (some (ts.set table (t.assign j ⟨v.encoding, v.size, z⟩)))
  | call {table : ℕ} {method : Method N ρ d} {t : Table N ρ d}
      {m : Fin N → PartyM N d G (Memory ρ t.rows d)} {M : Fin N → Memory ρ t.rows d}
      {g' : Fin N → G} {sent : Channel N → List (List (Word d))}
      (ht : ts[table]? = some t) (hm : ∀ i, method.run (P i) i t = .ok (m i))
      (hy : Yields mode m g M g' sent) :
      Step P mode g ts (.call table method) g' (some (ts.set table (t.store M)))
  | undefined {table : ℕ} {method : Method N ρ d} {t : Table N ρ d} {i : Fin N}
      (ht : ts[table]? = some t) (hm : method.run (P i) i t = .error .undefined) :
      Step P mode g ts (.call table method) g none
  | ruined {st : Statement N ρ d} {c : Code N ρ d G} (hc : st.Runs P ts c)
      (he : ExitsWith mode (fun i => (c.program i).run (g i)) .undefined) :
      Step P mode g ts st g none

/-- **The runs of a program** from generators `g`, as far as its statements meet a condition. -/
def program [NeZero N] (P : Fin N → Protocol N ρ d G) (mode : SendMode)
    (Meets : List (Table N ρ d) → Statement N ρ d → Prop) (g : Fin N → G) :
    System ((Fin N → G) × Option (List (Table N ρ d))) (Statement N ρ d) where
  init := (g, some [])
  Step s e s' := ∃ ts st, s.2 = some ts ∧ e = some st ∧ Meets ts st ∧
    Step P mode s.1 ts st s'.1 s'.2

end Tva.Relational
