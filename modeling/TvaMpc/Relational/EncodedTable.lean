import TvaMpc.Operators.Distinct
import TvaMpc.Operators.Sorting
import TvaMpc.Operators.Streaming

/-!
# Relational/EncodedTable — operators on named columns

A table maps names to shared vectors.  Its methods look the columns up, and `none` stands for a
missing name or a failed assertion.  Methods that cast a vector without looking at its class say
which of the two goes wrong (`Halt`).
-/

namespace Tva.Relational

open Machinery Operators

/-- A table: the columns by their names, in the order of the map.  No vector has two names. -/
structure EncodedTable where
  schema : List (String × Column)
  names_nodup : (schema.map Prod.fst).Nodup
  columns_nodup : (schema.map Prod.snd).Nodup

namespace EncodedTable

variable (t : EncodedTable)

/-- The names in the schema. -/
def names : List String := t.schema.map Prod.fst

/-- The shared vectors of the table. -/
def columns : List Column := t.schema.map Prod.snd

/-- `schema.at`. -/
def schemaAt (name : String) : Option Column := (t.schema.find? (·.1 = name)).map Prod.snd

/-- A column that is asserted to be B-shared. -/
def bShared (name : String) : Option ℕ :=
  match t.schemaAt name with
  | some (.b i) => some i
  | _ => none

/-- A column that is asserted to be A-shared. -/
def aShared (name : String) : Option ℕ :=
  match t.schemaAt name with
  | some (.a i) => some i
  | _ => none

/-- The columns that a sort moves along with its keys. -/
def remaining (keys toBeSortedColumns : List String) : List Column :=
  (t.schema.filter fun c => c.1 ∉ keys ∧ c.1 ∈ toBeSortedColumns).map Prod.snd

/-- `data_a`. -/
def dataA (keys toBeSortedColumns : List String) : List ℕ :=
  (t.remaining keys toBeSortedColumns).filterMap fun
    | .a i => some i
    | .b _ => none

/-- `data_b`. -/
def dataB (keys toBeSortedColumns : List String) : List ℕ :=
  (t.remaining keys toBeSortedColumns).filterMap fun
    | .a _ => none
    | .b i => some i

variable {N ρ n : ℕ} {d : DataType} {G : Type} (P : Protocol N ρ d G)

/-- `sort` with its three arguments; the table size must be a power of two. -/
def sortColumns (keys : List String) (desc : List Bool) (toBeSortedColumns : List String)
    (M : Memory ρ n d) : Option (PartyM N d G (Memory ρ n d)) := do
  guard (Nat.clog 2 n = Nat.log 2 n)
  let keysVec ← keys.mapM t.bShared
  return bitonicSort P keysVec (t.dataA keys toBeSortedColumns) (t.dataB keys toBeSortedColumns)
    desc M

/-- `sort` with its two arguments: all columns are sorted. -/
def sort (keys : List String) (desc : List Bool) (M : Memory ρ n d) :
    Option (PartyM N d G (Memory ρ n d)) :=
  t.sortColumns P keys desc t.names M

/-- The columns that the session windows sort by: `_time_b` comes first. -/
def sortingAttrs (keys : List String) (timeB : String) : List String :=
  timeB :: keys.filter (· ≠ timeB)

/-- `gap_session_window`. -/
def gapSessionWindow [NeZero N] (keys : List String) (timeA timeB windowId : String) (gap : Word d)
    (pastEnd : Fin ρ → Word d) (doSorting : Bool) (M : Memory ρ n d) :
    Option (PartyM N d G (Memory ρ n d)) := do
  let sorted ← if doSorting then
      t.sort P (sortingAttrs keys timeB) ((sortingAttrs keys timeB).map fun _ => false) M
    else some (return M)
  let keysVec ← keys.mapM t.bShared
  let timeA ← t.aShared timeA
  let timeB ← t.bShared timeB
  let windowId ← t.bShared windowId
  return sorted >>= Operators.gapSessionWindow P keysVec timeA timeB windowId gap pastEnd

/-! ## Methods that cast -/

/-- How a method fails: the program stops, at a missing name, a failed assertion or an `exit`; or it
goes on with a vector of another class than it casts to, which has no meaning. -/
inductive Halt where
  | stops
  | undefined
  deriving DecidableEq

/-- What is looked up or asserted. -/
def asserted {α : Type} : Option α → Except Halt α
  | some a => .ok a
  | none => .error .stops

/-- `(SVector *) (*this)[name].contents.get()`: a cast that does not look at the class. -/
def downcast (kind : SVector) (name : String) : Except Halt ℕ :=
  match kind, t.schemaAt name with
  | .aSharedVector, some (.a i) => .ok i
  | .bSharedVector, some (.b i) => .ok i
  | _, some _ => .error .undefined
  | _, none => .error .stops

/-- `convert_a2b`. -/
def convertA2b (inputA outputB : String) (M : Memory ρ n d) :
    Except Halt (PartyM N d G (Memory ρ n d)) := do
  let i ← t.downcast .aSharedVector inputA
  let o ← t.downcast .bSharedVector outputB
  return do
    let z ← P.a2b (M (.a i))
    return Function.update M (.b o) z

/-- `convert_b2a_bit`. -/
def convertB2aBit (inputB outputA : String) (M : Memory ρ n d) :
    Except Halt (PartyM N d G (Memory ρ n d)) := do
  let i ← t.downcast .bSharedVector inputB
  let o ← t.downcast .aSharedVector outputA
  return do
    let z ← P.b2aBit (M (.b i))
    return Function.update M (.a o) z

/-- `distinct`; without rows, the views of the keys have different sizes. -/
def distinct [NeZero N] (keys : List String) (res : String) (M : Memory ρ n d) :
    Except Halt (PartyM N d G (Memory ρ n d)) := do
  let keysVec ← asserted (keys.mapM t.bShared)
  let res ← t.downcast .bSharedVector res
  asserted (guard (keysVec ≠ [] ∧ 0 < n))
  return Operators.distinct P keysVec res M

/-! ## The other methods -/

/-- `sort` with the assertions of `bitonic_sort` and of `compare_rows`, which needs a direction for
every key once there is a round. -/
def sortAsserted (keys : List String) (desc : List Bool) (toBeSortedColumns : List String)
    (M : Memory ρ n d) : Except Halt (PartyM N d G (Memory ρ n d)) := do
  let sorted ← asserted (t.sortColumns P keys desc toBeSortedColumns M)
  asserted (guard (keys ≠ [] ∧ (1 < n → desc.length = keys.length)))
  return sorted

/-- `if (_do_sorting)`. -/
def sortFirst (doSorting : Bool) (sorted : Except Halt (PartyM N d G (Memory ρ n d)))
    (M : Memory ρ n d) : Except Halt (PartyM N d G (Memory ρ n d)) :=
  if doSorting then sorted else .ok (return M)

/-- Aggregation types. -/
inductive AggregationType where
  | sum
  | max
  | min
  | count
  | extra

/-- The kind of the vectors that a type aggregates, and its function; the other types exit. -/
def AggregationType.function : AggregationType →
    Option (SVector × AggregationFunction N ρ n d G)
  | .sum => some (.aSharedVector, sumAggregation P)
  | .max => some (.bSharedVector, maxAggregation P)
  | .min => some (.bSharedVector, minAggregation P)
  | .count => none
  | .extra => none

/-- A column that is asserted to be of the kind. -/
def shared (kind : SVector) (name : String) : Option ℕ :=
  match kind with
  | .aSharedVector => t.aShared name
  | .bSharedVector => t.bShared name

/-- `odd_even_aggregation`, with the assertion of the operator that there is data. -/
def oddEvenAggregation [NeZero N] (keys data res : List String) (aggregationType : AggregationType)
    (reverse doSorting : Bool) (M : Memory ρ n d) : Except Halt (PartyM N d G (Memory ρ n d)) := do
  let sorted ← sortFirst doSorting (t.sortAsserted P keys (keys.map fun _ => false) t.names M) M
  let keysVec ← asserted (keys.mapM t.bShared)
  let (kind, func) ← asserted (aggregationType.function P)
  asserted (guard (data.length = res.length ∧ data ≠ []))
  let dataVec ← asserted (data.mapM (t.shared kind))
  let resVec ← asserted (res.mapM (t.shared kind))
  return sorted >>= Operators.oddEvenAggregation P kind keysVec dataVec resVec func reverse none

/-- `tumbling_window`. -/
def tumblingWindow (timeA : String) (windowSize : Word d) (res : String) (M : Memory ρ n d) :
    Except Halt (PartyM N d G (Memory ρ n d)) := do
  let key ← asserted (t.aShared timeA)
  let res ← asserted (t.aShared res)
  return do
    let z ← P.div (M (.a key)) windowSize
    return Function.update M (.a res) z

/-- `gap_session_window`, on a table with rows. -/
def gapSessionWindowAsserted [NeZero N] (keys : List String) (timeA timeB windowId : String)
    (gap : Word d) (pastEnd : Fin ρ → Word d) (doSorting : Bool) (M : Memory ρ n d) :
    Except Halt (PartyM N d G (Memory ρ n d)) := do
  asserted (guard (0 < n))
  asserted (t.gapSessionWindow P keys timeA timeB windowId gap pastEnd doSorting M)

/-- `threshold_session_window`, on a table with rows. -/
def thresholdSessionWindow [NeZero N] (keys : List String) (functionRes timeB windowId : String)
    (threshold : Word d) (doSorting : Bool) (M : Memory ρ n d) :
    Except Halt (PartyM N d G (Memory ρ n d)) := do
  asserted (guard (0 < n))
  let sorted ← sortFirst doSorting (asserted (t.sort P (sortingAttrs keys timeB)
    ((sortingAttrs keys timeB).map fun _ => false) M)) M
  let keysVec ← asserted (keys.mapM t.bShared)
  let functionRes ← asserted (t.bShared functionRes)
  let timeB ← asserted (t.bShared timeB)
  let windowId ← asserted (t.bShared windowId)
  return sorted >>= Operators.thresholdSessionWindow P keysVec functionRes timeB windowId threshold

end EncodedTable

end Tva.Relational
