import TvaMpc.Operators.Distinct
import TvaMpc.Relational.TableShape

/-!
# Relational/Plaintext — what a program computes on tables in the clear

A table in the clear has a vector for each of its names, and every statement of a program has a
meaning on such tables.  Where the parties are free, so is the meaning: a sort may leave equal keys
in any order, the components may split a time in any two words that a tumbling window divides
(`tumblingWindow_means` says when it finds the window), and the mark of the first row of a threshold
window may be anything.

A statement is `Checked` by its names, its sizes, its divisor and the columns that are known to be
shared by bits, never by values.  Nothing is promised after a statement that is not.
-/

namespace Tva.Relational

open Machinery Operators EncodedTable

variable {N ρ n : ℕ} {d : DataType}

/-- A table in the clear.  The names in `bits` are those of the columns that are known to be shared
by bits. -/
structure PlainTable (d : DataType) where
  names : List String
  rows : ℕ
  value : String → Vec rows d
  bits : List String

/-- The encoding that a name says. -/
def nameEncoding (name : String) : Encoding := if isBShared name then .bShared else .aShared

/-! ## Expressions -/

def UnaryOp.apply : UnaryOp → Vec n d → Vec n d
  | neg, v => -v
  | complement, v => ~~~v
  | not, v => fun j => if v j = 0 then 1 else 0

/-- Whether the components are bits, if those of the operand are. -/
def UnaryOp.isBit : UnaryOp → Bool → Bool
  | not, p => p
  | neg, _ | complement, _ => false

/-- Comparisons are of signed elements, and give `1` and `0`. -/
def BinaryOp.apply : BinaryOp → Vec n d → Vec n d → Vec n d
  | add, u, v => u + v
  | sub, u, v => u - v
  | mul, u, v => u * v
  | and, u, v => u &&& v
  | xor, u, v => u ^^^ v
  | or, u, v => u ||| v
  | eq, u, v => fun j => if u j = v j then 1 else 0
  | ne, u, v => fun j => if u j ≠ v j then 1 else 0
  | gt, u, v => fun j => if (v j).toInt < (u j).toInt then 1 else 0
  | lt, u, v => fun j => if (u j).toInt < (v j).toInt then 1 else 0
  | ge, u, v => fun j => if (v j).toInt ≤ (u j).toInt then 1 else 0
  | le, u, v => fun j => if (u j).toInt ≤ (v j).toInt then 1 else 0

/-- Comparisons make bits, whatever their operands are. -/
def BinaryOp.isBit : BinaryOp → Bool → Bool → Bool
  | and, p, q | xor, p, q => p && q
  | eq, _, _ | ne, _, _ | gt, _, _ | lt, _, _ | ge, _, _ | le, _, _ => true
  | add, _, _ | sub, _, _ | mul, _, _ | or, _, _ => false

namespace ColumnExpr

/-- **The value of an expression**, of `n` elements. -/
inductive Means (ts : List (PlainTable d)) : ColumnExpr → (n : ℕ) → Vec n d → Prop
  | column {table : ℕ} {name : String} {t : PlainTable d} (ht : ts[table]? = some t)
      (hname : name ∈ t.names) : Means ts (.column table name) t.rows (t.value name)
  | allocate {size : ℕ} {eType : Encoding} : Means ts (.allocate size eType) size 0
  | unary {op : UnaryOp} {x : ColumnExpr} {n : ℕ} {v : Vec n d} (hx : Means ts x n v) :
      Means ts (.unary op x) n (op.apply v)
  | binary {op : BinaryOp} {x y : ColumnExpr} {n : ℕ} {u v : Vec n d} (hx : Means ts x n u)
      (hy : Means ts y n v) : Means ts (.binary op x y) n (op.apply u v)

variable (ts : List (PlainTable d))

/-- The expressions whose components are known to be bits. -/
def isBit : ColumnExpr → Bool
  | column table name => ts[table]?.any fun t => decide (name ∈ t.bits)
  | allocate _ _ => true
  | unary op x => op.isBit x.isBit
  | binary op x y => op.isBit x.isBit y.isBit

/-- `!` is for bits only. -/
def NotsBits : ColumnExpr → Prop
  | column _ _ => True
  | allocate _ _ => True
  | unary op x => x.NotsBits ∧ (op = .not → x.isBit ts = true)
  | binary _ x y => x.NotsBits ∧ y.NotsBits

/-- All columns have `rows` elements. -/
def HasRows (rows : ℕ) : ColumnExpr → Prop
  | column table _ => ∀ t, ts[table]? = some t → t.rows = rows
  | allocate size _ => size = rows
  | unary _ x => x.HasRows rows
  | binary _ x y => x.HasRows rows ∧ y.HasRows rows

end ColumnExpr

/-! ## Operators -/

section Operators

variable (v : String → Vec n d)

/-- Equal values in all keys. -/
def SameValues (keys : List String) (r s : Fin n) : Prop := ∀ key ∈ keys, v key r = v key s

instance (keys : List String) : DecidableRel (SameValues v keys) :=
  fun r s => inferInstanceAs (Decidable (∀ key ∈ keys, v key r = v key s))

/-- Rows of a group that are both selected. -/
def LinkedRows (keys : List String) (b : Fin n → Bool) (r s : Fin n) : Prop :=
  SameValues v keys r s ∧ b r = true ∧ b s = true

instance (keys : List String) (b : Fin n → Bool) : DecidableRel (LinkedRows v keys b) :=
  fun _ _ => inferInstanceAs (Decidable (_ ∧ _))

/-- **A sort**: the rows of the moved columns come in an order of the keys, each of which comes with
its direction. -/
def Sorts (keys : List (String × Bool)) (moved : String → Prop) (v' : String → Vec n d) : Prop :=
  ∃ σ : Equiv.Perm (Fin n), (Monotone fun j => row Prod.snd (fun key => v key.1) keys (σ j)) ∧
    ∀ name, (moved name → v' name = fun j => v name (σ j)) ∧ (¬ moved name → v' name = v name)

/-- `if (_do_sorting)`, by ascending keys. -/
def SortsFirst (doSorting : Bool) (keys : List String) (v' : String → Vec n d) : Prop :=
  if doSorting then Sorts v (keys.map (·, false)) (fun _ => True) v' else v' = v

/-- The scan over linked rows. -/
def scanRows (op : Word d → Word d → Word d) (reverse : Bool) (keys : List String)
    (b : Fin n → Bool) (x : Vec n d) : Vec n d :=
  scan op (partners reverse (Nat.log 2 n)) (LinkedRows v keys b) (Nat.log 2 n) x

/-- **An aggregation**: the second name of each pair gets the aggregates of the first one. -/
def Aggregates (t : Aggregation) (reverse : Bool) (keys : List String)
    (pairs : List (String × String)) (v' : String → Vec n d) : Prop :=
  (∀ p ∈ pairs, v' p.2 = scanRows v t.op reverse keys (fun _ => true) (v p.1)) ∧
    ∀ name, name ∉ pairs.map Prod.snd → v' name = v name

/-- The first row, and those that differ from the row before in all keys. -/
def changedRows (keys : List String) (j : Fin n) : Bool :=
  decide (∀ i : Fin n, (i : ℕ) + 1 = j → ∀ key ∈ keys, v key i ≠ v key j)

/-- The ids of a gap window: the latest time of a linked row after a gap. -/
def gapIds (keys : List String) (timeA timeB : String) (gap : Word d) : Vec n d :=
  scanRows v (extremum false) true keys (fun _ => true) fun j =>
    if gapStart (v timeA) gap j then v timeB j else -1

/-- The ids of a threshold window.  Of the mark of the first row nothing is known. -/
def thresholdIds (keys : List String) (functionRes timeB : String) (threshold initial : Word d) :
    Vec n d :=
  scanRows v (extremum false) true keys (fun j => threshold.slt (v functionRes j)) <|
    marks (thresholdMarks (fun j => threshold.slt (v functionRes j)) initial) (v timeB)

end Operators

/-! ## Methods -/

/-- The function of a type. -/
def EncodedTable.AggregationType.aggregation : AggregationType → Option Aggregation
  | .sum => some .sum
  | .max => some .max
  | .min => some .min
  | .count | .extra => none

/-- **What a method does with the values** of a table. -/
def Method.Means (v v' : String → Vec n d) : Method N ρ d → Prop
  | sort keys desc => Sorts v (keys.zip desc) (fun _ => True) v'
  | sortColumns keys desc toBeSortedColumns =>
      Sorts v (keys.zip desc) (fun name => name ∈ keys ∨ name ∈ toBeSortedColumns) v'
  | convertA2b inputA outputB => v' = Function.update v outputB (v inputA)
  | convertB2aBit inputB outputA => v' = Function.update v outputA (lowBit (v inputB))
  | oddEvenAggregation keys data res aggregationType reverse doSorting =>
      ∃ u t, SortsFirst v doSorting keys u ∧ aggregationType.aggregation = some t ∧
        Aggregates u t reverse keys (data.zip res) v'
  | distinct keys res => v' = Function.update v res (bits d (changedRows v keys))
  | tumblingWindow timeA windowSize res => ∃ l r : Vec n d, l + r = v timeA ∧
      v' = Function.update v res fun j => splitQuotient (N = 3) (l j) (r j) windowSize
  | gapSessionWindow keys timeA timeB windowId gap _ doSorting =>
      ∃ u, SortsFirst v doSorting (sortingAttrs keys timeB) u ∧
        v' = Function.update u windowId (gapIds u keys timeA timeB gap)
  | thresholdSessionWindow keys functionRes timeB windowId threshold doSorting =>
      ∃ u initial, SortsFirst v doSorting (sortingAttrs keys timeB) u ∧
        v' = Function.update u windowId (thresholdIds u keys functionRes timeB threshold initial)

/-- **A tumbling window has the quotient of the time**, where the words it is split in are not both
negative, and three parties move the first one safely. -/
theorem Method.tumblingWindow_means {v v' : String → Vec n d} {timeA res : String} {c : Word d}
    (h : (Method.tumblingWindow (N := N) (ρ := ρ) timeA c res).Means v v') (hc : 0 < c.toInt) :
    ∃ l r : Vec n d, l + r = v timeA ∧ ∀ j, 0 ≤ (v timeA j).toInt →
      (0 ≤ (l j).toInt ∨ 0 ≤ (r j).toInt) → (N = 3 → MovesSafely (l j) (r j) c) →
        v' res j = BitVec.ofInt d.bits ((v timeA j).toInt / c.toInt) := by
  obtain ⟨l, r, hsum, rfl⟩ := h
  refine ⟨l, r, hsum, fun j hv hsign hmoves => ?_⟩
  have hj : l j + r j = v timeA j := congrFun hsum j
  rw [Function.update_self, ← hj]
  exact splitQuotient_eq d.bits_pos hc (hj ▸ hv) hsign fun h => hmoves (of_decide_eq_true h)

/-- The keys that a call sorts by. -/
def Method.sortKeys : Method N ρ d → List String
  | sort keys _ | sortColumns keys _ _ => keys
  | convertA2b _ _ | convertB2aBit _ _ | distinct _ _ | tumblingWindow _ _ _ => []
  | oddEvenAggregation keys _ _ _ _ doSorting => if doSorting then keys else []
  | gapSessionWindow keys _ timeB _ _ _ doSorting
  | thresholdSessionWindow keys _ timeB _ _ doSorting =>
      if doSorting then sortingAttrs keys timeB else []

/-- The calls that a method is made for, on a table with `rows` rows.  The code asserts some of
it. -/
def Method.Checked (rows : ℕ) : Method N ρ d → Prop
  | sort keys desc | sortColumns keys desc _ =>
      keys.Nodup ∧ desc.length = keys.length ∧ ∃ k, rows = 2 ^ k
  | convertA2b inputA outputB => isBShared inputA = false ∧ isBShared outputB = true
  | convertB2aBit inputB outputA => isBShared inputB = true ∧ isBShared outputA = false
  | oddEvenAggregation keys data res _ _ _ => keys ≠ [] ∧ keys.Nodup ∧ res.Nodup ∧
      (∀ p ∈ data.zip res, p.1 = p.2 ∨ p.2 ∉ data ∧ p.2 ∉ keys) ∧ ∃ k, rows = 2 ^ k
  | distinct keys res => isBShared res = true ∧ res ∉ keys
  | tumblingWindow _ windowSize _ => SafeDivisor windowSize
  | gapSessionWindow keys _ timeB windowId _ _ _
  | thresholdSessionWindow keys _ timeB windowId _ _ =>
      keys ≠ [] ∧ keys.Nodup ∧ windowId ∉ keys ∧ windowId ≠ timeB ∧ ∃ k, rows = 2 ^ k

/-! ## Programs -/

namespace PlainTable

/-- The column gets a value, and is one of bits or not. -/
def assign (t : PlainTable d) (name : String) (v : Vec t.rows d) (isBit : Bool) : PlainTable d :=
  { t with
    value := Function.update t.value name v
    bits := if isBit then name :: t.bits else t.bits.filter (· ≠ name) }

/-- The vectors in the order of the names. -/
def plaintexts (t : PlainTable d) : List (List (Word d)) :=
  t.names.map fun name => List.ofFn (t.value name)

end PlainTable

/-- **The statements that are promised their meaning**: data is shared by a party from which sharing
works, an assignment keeps the encoding that the name says and the size. -/
def Statement.Checked (dataParty : Fin N → Prop) (ts : List (PlainTable d)) :
    Statement N ρ d → Prop
  | create _ _ => True
  | secretShare _ _ _ partyId => dataParty partyId
  | assign table name x => ∀ t, ts[table]? = some t →
      x.HasRows ts t.rows ∧ x.Gives (nameEncoding name) ∧ x.NotsBits ts
  | call table method => ∀ t, ts[table]? = some t → method.Checked t.rows

/-- The columns of the keys agree in `top`, each one in itself. -/
def ValuesWithin (top : Word d → Word d) (v : String → Vec n d) (keys : List String) : Prop :=
  ∀ key ∈ keys, ∀ r s, top (v key r) = top (v key s)

/-- **The statements that sort by keys which agree in `top`**, or do not sort, and whose products
have room for their masks. -/
def Statement.Within (top : Word d → Word d) (least : ℕ) (ts : List (PlainTable d)) :
    Statement N ρ d → Prop
  | create _ _ | secretShare _ _ _ _ => True
  | assign table _ x => x.multiplies = true → ∀ t, ts[table]? = some t → least ≤ t.rows
  | call table method => ∀ t, ts[table]? = some t →
      ValuesWithin top t.value method.sortKeys ∧ method.Room least t.rows

theorem Statement.within_const {c : Word d} {ts : List (PlainTable d)} (st : Statement N ρ d) :
    st.Within (fun _ => c) 0 ts := by
  cases st with
  | create | secretShare => trivial
  | assign => exact fun _ _ _ => Nat.zero_le _
  | call table method => exact fun t _ => ⟨fun _ _ _ _ => rfl, method.room_zero t.rows⟩

/-- **The meaning of a statement.**  After `none` anything may happen. -/
inductive PlainStep (dataParty : Fin N → Prop) (ts : List (PlainTable d)) :
    Statement N ρ d → Option (List (PlainTable d)) → Prop
  | create {schema : List String} {rows : ℕ} : PlainStep dataParty ts (.create schema rows)
      (some (ts ++ [⟨schema, rows, fun _ => 0, schema⟩]))
  | secretShare {schema : List String} {rows : ℕ} {columns : Fin schema.length → Vec rows d}
      {partyId : Fin N} {value : String → Vec rows d}
      (hvalue : ∀ j, value (schema.get j) = columns j) :
      PlainStep dataParty ts (.secretShare schema rows columns partyId)
        (some (ts ++ [⟨schema, rows, value, []⟩]))
  | assign {table : ℕ} {name : String} {x : ColumnExpr} {t : PlainTable d} {v : Vec t.rows d}
      (ht : ts[table]? = some t) (hx : x.Means ts t.rows v) :
      PlainStep dataParty ts (.assign table name x)
        (some (ts.set table (t.assign name v (x.isBit ts))))
  | call {table : ℕ} {method : Method N ρ d} {t : PlainTable d} {value : String → Vec t.rows d}
      (ht : ts[table]? = some t) (hmethod : method.Means t.value value) :
      PlainStep dataParty ts (.call table method)
        (some (ts.set table { t with value := value, bits := [] }))
  | unchecked {st : Statement N ρ d} (h : ¬ st.Checked dataParty ts) :
      PlainStep dataParty ts st none

/-- **The runs of a program in the clear.** -/
def plainProgram (N ρ : ℕ) (d : DataType) (dataParty : Fin N → Prop) :
    System (Option (List (PlainTable d))) (Statement N ρ d) where
  init := some []
  Step o e o' := ∃ st, e = some st ∧
    match o with
    | none => o' = none
    | some ts => PlainStep dataParty ts st o'

@[simp] theorem plainProgram_step {dataParty : Fin N → Prop} {ts : List (PlainTable d)}
    {st : Statement N ρ d} {o : Option (List (PlainTable d))} :
    (plainProgram N ρ d dataParty).Step (some ts) (some st) o ↔ PlainStep dataParty ts st o := by
  constructor
  · rintro ⟨st', hst, hstep⟩
    obtain rfl := Option.some.inj hst
    exact hstep
  · exact fun hstep => ⟨st, rfl, hstep⟩

/-- The runs whose statements are `Allowed`.  Nothing is promised after one that is not. -/
def guardedProgram (N ρ : ℕ) (d : DataType) (dataParty : Fin N → Prop)
    (Allowed : List (PlainTable d) → Statement N ρ d → Prop) :
    System (Option (List (PlainTable d))) (Statement N ρ d) where
  init := some []
  Step o e o' := ∃ st, e = some st ∧
    match o with
    | none => o' = none
    | some ts => Allowed ts st ∧ PlainStep dataParty ts st o' ∨ ¬Allowed ts st ∧ o' = none

/-- Where all statements are allowed, these are the runs. -/
theorem guardedProgram_eq {dataParty : Fin N → Prop}
    {Allowed : List (PlainTable d) → Statement N ρ d → Prop} (h : ∀ ts st, Allowed ts st) :
    guardedProgram N ρ d dataParty Allowed = plainProgram N ρ d dataParty := by
  rw [guardedProgram, plainProgram, System.mk.injEq]
  refine ⟨rfl, ?_⟩
  ext o e o'
  refine exists_congr fun st => and_congr_right fun _ => ?_
  cases o with
  | none => exact Iff.rfl
  | some ts => exact ⟨fun hs => hs.elim And.right fun hnot => absurd (h ts st) hnot.1,
      fun hs => .inl ⟨h ts st, hs⟩⟩

theorem guardedProgram_silent {dataParty : Fin N → Prop}
    {Allowed : List (PlainTable d) → Statement N ρ d → Prop} (o o' : Option (List (PlainTable d))) :
    ¬(guardedProgram N ρ d dataParty Allowed).Step o none o' := by
  rintro ⟨st, hst, -⟩
  cases hst

/-- If something is promised after the next statement, it is allowed and checked. -/
theorem allowed_of_after {dataParty : Fin N → Prop}
    {Allowed : List (PlainTable d) → Statement N ρ d → Prop} {st : Statement N ρ d}
    {o : Option (List (PlainTable d))}
    (h : (guardedProgram N ρ d dataParty Allowed).After (· ≠ none) [st] o) :
    ∃ ts, o = some ts ∧ Allowed ts st ∧ st.Checked dataParty ts := by
  cases o with
  | none => exact absurd rfl (h none ⟨st, rfl, rfl⟩)
  | some ts =>
    have hallowed : Allowed ts st := by
      by_contra hnot
      exact h none ⟨st, rfl, .inr ⟨hnot, rfl⟩⟩ rfl
    refine ⟨ts, rfl, hallowed, ?_⟩
    by_contra hnot
    exact h none ⟨st, rfl, .inl ⟨hallowed, .unchecked hnot⟩⟩ rfl

end Tva.Relational
