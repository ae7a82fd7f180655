import TvaMpc.Operators.Replicates
import TvaMpc.Protocols.NeverUndefined
import TvaMpc.Relational.EncodedTableCorrect
import TvaMpc.Relational.Table

/-!
# Relational/TableShape — tables keep their shape and their encodings

A table is `Intact` when its columns have its size, `bShare` says what the contents are, and the
copies of the components are equal; then `open` gives the plaintexts (`Intact.opensRight`).  Methods
change the vectors in place, so they keep a table intact as soon as they look at the classes of the
vectors they cast, and their products have `Room`.  An assignment replaces a column: it keeps the
table intact if the expression has the encoding that `bShare` records, and the size.
-/

namespace Tva.Relational

open Machinery Operators EncodedTable

variable {N ρ n least : ℕ} {d : DataType} {G : Type}

/-! ## What a table keeps -/

/-- **The shape of a table**: every column has `size()` elements, and `bShare` is set exactly for
the columns that hold B-shared vectors. -/
structure Table.Shaped (t : Table N ρ d) : Prop where
  size (j : Fin t.names.length) : (t.columns j).contents.size = t.rows
  bShare (j : Fin t.names.length) :
    t.bShare j = true ↔ (t.columns j).contents.encoding = .bShared

/-! ## Expressions -/

/-- All operators but those that each party applies to its own components. -/
def BinaryOp.multiplies : BinaryOp → Bool
  | add | sub | xor => false
  | mul | and | or | eq | ne | gt | lt | ge | le => true

namespace ColumnExpr

/-- The expression has a value of the encoding `e`, if it has one. -/
def Gives (e : Encoding) : ColumnExpr → Prop
  | column _ _ => False
  | allocate _ eType => eType = e
  | unary op _ => op.encoding = e
  | binary op _ _ => op.encoding = e

/-- All columns in the expression are those of tables with `rows` rows, or new ones of that size. -/
def SizedIn (ts : List (Table N ρ d)) (rows : ℕ) : ColumnExpr → Prop
  | column table _ => ∀ t, ts[table]? = some t → t.rows = rows
  | allocate size _ => size = rows
  | unary _ x => x.SizedIn ts rows
  | binary _ x y => x.SizedIn ts rows ∧ y.SizedIn ts rows

/-- The expression has a product in it. -/
def multiplies : ColumnExpr → Bool
  | column _ _ | allocate _ _ => false
  | unary _ x => x.multiplies
  | binary op x y => op.multiplies || x.multiplies || y.multiplies

variable {P : Fin N → Protocol N ρ d G} {ts : List (Table N ρ d)} {x y : ColumnExpr}
variable {u : Pending N ρ d G}

theorem eval_column {table : ℕ} {name : String} (h : (column table name).eval P ts = some u) :
    ∃ t j, ts[table]? = some t ∧ t.find name = some j ∧
      u = ⟨(t.columns j).encoding, (t.columns j).contents.size, fun i =>
        return (t.columns j).contents.shares i⟩ := by
  simp only [eval, Option.bind_eq_bind, Option.bind_eq_some_iff] at h
  obtain ⟨t, ht, j, hj, hu⟩ := h
  exact ⟨t, j, ht, hj, (Option.some.inj hu).symm⟩

theorem eval_unary {op : UnaryOp} (h : (unary op x).eval P ts = some u) :
    ∃ v, x.eval P ts = some v ∧
      u = ⟨op.encoding, v.size, fun i => v.program i >>= fun x => op.run (P i) x⟩ := by
  simp only [eval, Option.bind_eq_bind, Option.bind_eq_some_iff] at h
  obtain ⟨v, hv, -, -, hu⟩ := h
  exact ⟨v, hv, (Option.some.inj hu).symm⟩

theorem eval_binary {op : BinaryOp} (h : (binary op x y).eval P ts = some u) :
    ∃ v w, ∃ hsize : w.size = v.size, x.eval P ts = some v ∧ y.eval P ts = some w ∧
      u = ⟨op.encoding, v.size, fun i => do
        let x ← v.program i
        let y ← w.program i
        op.run (P i) x (Table.resize hsize y)⟩ := by
  simp only [eval, Option.bind_eq_bind, Option.bind_eq_some_iff] at h
  obtain ⟨v, hv, w, hw, -, -, hu⟩ := h
  split at hu
  · exact ⟨v, w, ‹_›, hv, hw, (Option.some.inj hu).symm⟩
  · cases hu

theorem eval_encoding_iff {e : Encoding} (h : x.eval P ts = some u) (hx : x.IsTemporary) :
    u.encoding = e ↔ x.Gives e := by
  cases x with
  | column => exact hx.elim
  | allocate =>
    obtain rfl := Option.some.inj h
    exact Iff.rfl
  | unary =>
    obtain ⟨v, -, rfl⟩ := eval_unary h
    exact Iff.rfl
  | binary =>
    obtain ⟨v, w, hsize, -, -, rfl⟩ := eval_binary h
    exact Iff.rfl

theorem eval_size_iff {rows : ℕ} (hts : ∀ t ∈ ts, t.Shaped) (h : x.eval P ts = some u) :
    u.size = rows ↔ x.SizedIn ts rows := by
  induction x generalizing u with
  | column =>
    obtain ⟨t, j, ht, -, rfl⟩ := eval_column h
    have hsize : (t.columns j).contents.size = t.rows := (hts t (List.mem_of_getElem? ht)).size j
    refine ⟨fun hu t' ht' => ?_, fun hx => hsize.trans (hx t ht)⟩
    obtain rfl := Option.some.inj (ht.symm.trans ht')
    exact hsize.symm.trans hu
  | allocate =>
    obtain rfl := Option.some.inj h
    exact Iff.rfl
  | unary op x ih =>
    obtain ⟨v, hv, rfl⟩ := eval_unary h
    exact ih (u := v) hv
  | binary op x y ihx ihy =>
    obtain ⟨v, w, hsize, hv, hw, rfl⟩ := eval_binary h
    have hv' : v.size = rows ↔ x.SizedIn ts rows := ihx hv
    have hw' : w.size = rows ↔ y.SizedIn ts rows := ihy hw
    exact ⟨fun hu => ⟨hv'.mp hu, hw'.mp (hsize.trans hu)⟩, fun hxy => hv'.mpr hxy.1⟩

theorem ownedBy_unary {i : Fin N} (Q : Protocol N ρ d G) (op : UnaryOp) (x : EVector ρ n d) :
    OwnedBy i (op.run Q x) := by
  cases op <;> exact .pure _

theorem ownedBy_binary {i : Fin N} {Q : Protocol N ρ d G} (hQ : Protocol.OwnedBy i Q)
    (op : BinaryOp) (x y : EVector ρ n d) : OwnedBy i (op.run Q x y) := by
  cases op
  exacts [.pure _, .pure _, hQ.multiplyA x y, hQ.andB x y, .pure _,
    (hQ.andB _ _).bind fun _ => .pure _, hQ.eq x y, hQ.ne x y, hQ.gt x y, hQ.gt y x,
    (hQ.gt y x).bind fun _ => .pure _, (hQ.gt x y).bind fun _ => .pure _]

theorem ownedBy_eval (hown : ∀ i, Protocol.OwnedBy i (P i)) (h : x.eval P ts = some u) (i : Fin N) :
    OwnedBy i (u.program i) := by
  induction x generalizing u with
  | column =>
    obtain ⟨t, j, -, -, rfl⟩ := eval_column h
    exact .pure _
  | allocate =>
    obtain rfl := Option.some.inj h
    exact .pure _
  | unary op x ih =>
    obtain ⟨v, hv, rfl⟩ := eval_unary h
    exact (ih hv).bind fun _ => ownedBy_unary _ op _
  | binary op x y ihx ihy =>
    obtain ⟨v, w, hsize, hv, hw, rfl⟩ := eval_binary h
    exact (ihx hv).bind fun _ => (ihy hw).bind fun _ => ownedBy_binary (hown i) op _ _

end ColumnExpr

/-! ## Opening -/

/-- Adding up in the boolean ring. -/
theorem sum_boolRing (x : Fin N → Vec n d) :
    @Finset.sum _ _ (@Pi.addCommMonoid _ _ fun _ => (boolRing d).toAddCommMonoid) .univ x
      = (List.finRange N).foldr (fun i w => x i ^^^ w) 0 := by
  rw [@Fin.sum_univ_def]
  change ((List.finRange N).map x).foldr (· ^^^ ·) 0 = _
  rw [List.foldr_map]

theorem Table.ownedBy_openTable {i : Fin N} {P : Protocol N ρ d G} (hP : Protocol.OwnedBy i P)
    (t : Table N ρ d) : OwnedBy i (t.openTable P i) := by
  refine Protocol.OwnedBy.foldlM (fun _ j => Party.Owned.bind ?_ fun _ => .pure _) _ _
  rw [openColumn]
  split
  exacts [hP.openSharesA _, hP.openSharesB _]

/-! ## Lookups -/

theorem asserted_eq_ok {α : Type} {o : Option α} {a : α} : asserted o = .ok a ↔ o = some a := by
  cases o with
  | none => exact iff_of_false nofun nofun
  | some b =>
    exact ⟨fun h => congrArg some (Except.ok.inj h), fun h => congrArg _ (Option.some.inj h)⟩

/-- An assertion after a lookup. -/
theorem asserted_bind {α β : Type} (o : Option α) (f : α → Option β) :
    asserted (o >>= f) = asserted o >>= fun a => asserted (f a) := by
  cases o <;> rfl

/-- What is asserted can be cast to. -/
theorem downcast_eq {t : EncodedTable} (kind : SVector) {name : String}
    (h : (t.shared kind name).isSome) : ∃ i, t.downcast kind name = .ok i := by
  cases kind <;> simp only [shared, aShared, bShared, downcast] at h ⊢ <;> split at h <;> simp_all

/-- Some data, and as many results. -/
theorem length_pos_of_mapM {α β : Type} {data res : List α} {f : α → Option β} {u : Unit}
    {dataVec resVec : List β}
    (hguard : (guard (data.length = res.length ∧ data ≠ []) : Option Unit) = some u)
    (hdataVec : data.mapM f = some dataVec) (hresVec : res.mapM f = some resVec) :
    dataVec.length > 0 ∧ resVec.length > 0 := by
  obtain ⟨hlength, hne⟩ := (Option.guard_eq_some' _).mp hguard
  have hdata := congrArg List.length (mapM_eq_some_iff.mp hdataVec)
  have hres := congrArg List.length (mapM_eq_some_iff.mp hresVec)
  have hpos := List.length_pos_iff.mpr hne
  simp only [List.length_map] at hdata hres
  omega

theorem asserted_gapSessionWindow [NeZero N] (t : EncodedTable) (Q : Protocol N ρ d G)
    (keys : List String) (timeA timeB windowId : String) (gap : Word d) (pastEnd : Fin ρ → Word d)
    (doSorting : Bool) (M : Memory ρ n d) :
    asserted (t.gapSessionWindow Q keys timeA timeB windowId gap pastEnd doSorting M) = (do
      let sorted ← sortFirst doSorting (asserted (t.sort Q (sortingAttrs keys timeB)
        ((sortingAttrs keys timeB).map fun _ => false) M)) M
      let keysVec ← asserted (keys.mapM t.bShared)
      let timeA ← asserted (t.aShared timeA)
      let timeB ← asserted (t.bShared timeB)
      let windowId ← asserted (t.bShared windowId)
      return sorted >>= Operators.gapSessionWindow Q keysVec timeA timeB windowId gap pastEnd) := by
  rw [EncodedTable.gapSessionWindow]
  cases doSorting <;>
    simp only [Bool.false_eq_true, if_true, if_false, asserted_bind, sortFirst] <;> rfl

/-! ## Replicated columns -/

variable [NeZero ρ]

/-- **`open` returns the plaintexts**, at every party and in every interleaving. -/
def Table.OpensRight (P : Fin N → Protocol N ρ d G) (mode : SendMode) (g : Fin N → G)
    (t : Table N ρ d) : Prop :=
  Finishes mode (fun i => (t.openTable (P i) i).run (g i)) fun out _ =>
    ∀ i, (out i).1 = t.plaintexts

/-- A shaped table whose columns are replicated. -/
structure Table.Intact (layout : Fin N → Fin ρ → Fin N) (t : Table N ρ d) : Prop
    extends t.Shaped where
  replicated (j : Fin t.names.length) : Replicated layout (t.columns j).contents.shares

variable {layout : Fin N → Fin ρ → Fin N}

theorem EncodedVector.sharesB_plaintext {v : EncodedVector N ρ d} (hv : v.encoding = .bShared)
    (h : Replicated layout v.shares) : SharesB layout v.shares v.plaintext := by
  rw [EncodedVector.plaintext, hv]
  exact (sum_boolRing fun i => v.shares i 0) ▸
    @Replicated.shares N ρ _ layout (Word d) (boolRing d) v.size v.shares h

theorem EncodedVector.sharesA_plaintext {v : EncodedVector N ρ d} (hv : v.encoding = .aShared)
    (h : Replicated layout v.shares) : SharesA layout v.shares v.plaintext := by
  rw [EncodedVector.plaintext, hv]
  exact h.shares

section Protocol

variable {P : Fin N → Protocol N ρ d G} {dataParty : Fin N → Prop} {Good : (Fin N → G) → Prop}
variable {mode : SendMode} {g : Fin N → G} {t : Table N ρ d}

theorem Table.Intact.ensures_openColumn
    (hP : Protocol.Replicates P layout least dataParty Good mode) (ht : t.Intact layout)
    (j : Fin t.names.length) :
    Ensures mode (fun i => t.openColumn (P i) i j) g fun a _ _ =>
      ∀ i, a i = (t.columns j).contents.plaintext := by
  simp only [Table.openColumn]
  cases he : (t.columns j).contents.encoding with
  | aShared => exact hP.openSharesA (EncodedVector.sharesA_plaintext he (ht.replicated j))
  | bShared => exact hP.openSharesB (EncodedVector.sharesB_plaintext he (ht.replicated j))

/-- **An intact table opens to its plaintexts.** -/
theorem Table.Intact.opensRight (hP : Protocol.Replicates P layout least dataParty Good mode)
    (hown : ∀ i, Protocol.OwnedBy i (P i)) (ht : t.Intact layout) : t.OpensRight P mode g := by
  have hopen : Ensures mode (fun i => t.openTable (P i) i) g fun a _ _ =>
      ∀ i, a i = t.plaintexts := by
    refine Ensures.foldlM (fun pre a _ => ∀ i, a i = pre.map fun j =>
      List.ofFn (t.columns j).contents.plaintext) _ (fun _ => rfl) fun pre j _ a g ha => ?_
    refine (ht.ensures_openColumn hP j).bind fun v g' _ hv => Ensures.pure fun i => ?_
    rw [ha, hv, List.map_append, List.map_singleton]
  exact hopen.finishes fun i => Table.ownedBy_openTable (hown i) t

end Protocol

/-! ## Methods -/

theorem Table.Intact.memory {t : Table N ρ d} (ht : t.Intact layout) :
    Memory.Replicated layout fun i => t.memory ht.size i := by
  intro c
  simp only [Table.memory]
  split
  · exact (ht.replicated _).map fun v (j : Fin t.rows) => v (j.cast (ht.size _).symm)
  · exact .const _

theorem Table.Intact.store {t : Table N ρ d} (ht : t.Intact layout)
    {M : Fin N → Memory ρ t.rows d} (hM : Memory.Replicated layout M) :
    (t.store M).Intact layout where
  size _ := rfl
  bShare := ht.bShare
  replicated j := hM (t.column j)

/-- **The methods that cast** find vectors of the classes they cast to. -/
def Method.Fits (t : EncodedTable) : Method N ρ d → Prop
  | convertA2b inputA outputB => (t.aShared inputA).isSome ∧ (t.bShared outputB).isSome
  | convertB2aBit inputB outputA => (t.bShared inputB).isSome ∧ (t.aShared outputA).isSome
  | distinct _ res => (t.bShared res).isSome
  | _ => True

/-- **The methods whose products have room** for their masks, on a table with `rows` rows. -/
def Method.Room (least rows : ℕ) : Method N ρ d → Prop
  | sort _ _ | sortColumns _ _ _ | oddEvenAggregation _ _ _ _ _ _ => RoomForRounds least rows
  | convertA2b _ _ | tumblingWindow _ _ _ => least ≤ rows
  | convertB2aBit _ _ => True
  | distinct _ _ => least ≤ rows - 1
  | gapSessionWindow _ _ _ _ _ _ _ | thresholdSessionWindow _ _ _ _ _ _ =>
      least ≤ rows - 1 ∧ RoomForRounds least rows

omit [NeZero ρ] in
theorem Method.room_zero (rows : ℕ) (method : Method N ρ d) : method.Room 0 rows := by
  cases method
  exacts [roomForRounds_zero rows, roomForRounds_zero rows, Nat.zero_le _, trivial,
    roomForRounds_zero rows, Nat.zero_le _, Nat.zero_le _, ⟨Nat.zero_le _, roomForRounds_zero rows⟩,
    ⟨Nat.zero_le _, roomForRounds_zero rows⟩]

/-- The parties stop, or they run code that keeps the copies equal. -/
def Settles (layout : Fin N → Fin ρ → Fin N) (mode : SendMode) (Good : (Fin N → G) → Prop)
    (f : Fin N → Except Halt (PartyM N d G (Memory ρ n d))) : Prop :=
  (∀ i, f i = .error .stops) ∨ ∃ m, (∀ i, f i = .ok (m i)) ∧
    Keeps mode Good (Memory.Replicated layout) m ∧ ∀ i, OwnedBy i (m i)

namespace Settles

variable {mode : SendMode} {Good : (Fin N → G) → Prop}
variable {f : Fin N → Except Halt (PartyM N d G (Memory ρ n d))}

theorem ok {m : Fin N → PartyM N d G (Memory ρ n d)}
    (hm : Keeps mode Good (Memory.Replicated layout) m) (hown : ∀ i, OwnedBy i (m i)) :
    Settles layout mode Good fun i => .ok (m i) :=
  .inr ⟨m, fun _ => rfl, hm, hown⟩

/-- What is looked up does not depend on the party. -/
theorem lookup {α : Type} {o : Option α}
    {k : Fin N → α → Except Halt (PartyM N d G (Memory ρ n d))}
    (hk : ∀ a, o = some a → Settles layout mode Good fun i => k i a) :
    Settles layout mode Good fun i => asserted o >>= k i := by
  cases o with
  | none => exact .inl fun _ => rfl
  | some a => exact hk a rfl

theorem bind (hf : Settles layout mode Good f)
    {k : Fin N → PartyM N d G (Memory ρ n d) → Except Halt (PartyM N d G (Memory ρ n d))}
    (hk : ∀ m, Keeps mode Good (Memory.Replicated layout) m → (∀ i, OwnedBy i (m i)) →
      Settles layout mode Good fun i => k i (m i)) :
    Settles layout mode Good fun i => f i >>= k i := by
  rcases hf with hstops | ⟨m, hm, hkeeps, hown⟩
  · simp only [hstops]
    exact .inl fun _ => rfl
  · simp only [hm]
    exact hk m hkeeps hown

/-- The sorting that a method may do first. -/
theorem sorted_bind {m : Fin N → PartyM N d G (Memory ρ n d)}
    {k : Fin N → Memory ρ n d → PartyM N d G (Memory ρ n d)}
    (hm : Keeps mode Good (Memory.Replicated layout) m) (hown : ∀ i, OwnedBy i (m i))
    (hk : ∀ M, Memory.Replicated layout M →
      Keeps mode Good (Memory.Replicated layout) fun i => k i (M i))
    (hkown : ∀ i M, OwnedBy i (k i M)) : Settles layout mode Good fun i => .ok (m i >>= k i) :=
  .ok (hm.bind hk) fun i => (hown i).bind (hkown i)

/-- Where the parties go on, they keep the copies equal. -/
theorem keeps [NeZero N] (hf : Settles layout mode Good f) {m : Fin N → PartyM N d G (Memory ρ n d)}
    (hm : ∀ i, f i = .ok (m i)) :
    Keeps mode Good (Memory.Replicated layout) m ∧ ∀ i, OwnedBy i (m i) := by
  rcases hf with hstops | ⟨m', hm', h⟩
  · exact absurd ((hm 0).symm.trans (hstops 0)) (by simp)
  · obtain rfl : m' = m := funext fun i => Except.ok.inj ((hm' i).symm.trans (hm i))
    exact h

theorem ne_undefined (hf : Settles layout mode Good f) (i : Fin N) : f i ≠ .error .undefined := by
  rcases hf with hstops | ⟨m, hm, -⟩
  · simp [hstops]
  · simp [hm]

end Settles

/-- The parties run code in which one traps, and none writes outside of a vector. -/
def TrapsInside (f : Fin N → Except Halt (PartyM N d G (Memory ρ n d))) : Prop :=
  ∃ m, (∀ i, f i = .ok (m i)) ∧ Trapped m ∧ ∀ i, NeverUndefined (m i)

section Calls

variable {P : Fin N → Protocol N ρ d G} {dataParty : Fin N → Prop} {Good : (Fin N → G) → Prop}
variable {mode : SendMode} {M : Fin N → Memory ρ n d}
variable (hP : Protocol.Replicates P layout least dataParty Good mode)
variable (hown : ∀ i, Protocol.OwnedBy i (P i))
variable (hM : Memory.Replicated layout M) (t : EncodedTable)

include hM

theorem settles_sortFirst (doSorting : Bool) {f : Fin N → Except Halt (PartyM N d G (Memory ρ n d))}
    (hf : Settles layout mode Good f) :
    Settles layout mode Good fun i => sortFirst doSorting (f i) (M i) := by
  cases doSorting
  exacts [.ok (.pure hM) fun _ => .pure _, hf]

include hP hown

theorem settles_sortColumns (hroom : RoomForRounds least n) (keys : List String)
    (desc : List Bool) (toBeSortedColumns : List String) : Settles layout mode Good fun i =>
      asserted (t.sortColumns (P i) keys desc toBeSortedColumns (M i)) := by
  simp only [sortColumns, asserted_bind]
  refine .lookup fun _ _ => .lookup fun keysVec _ => .ok ?_ fun i => ?_
  · exact keeps_bitonicSort hP keysVec _ _ desc hM hroom
  · exact ownedBy_bitonicSort (hown i) keysVec _ _ desc _

theorem settles_sortAsserted (hroom : RoomForRounds least n) (keys : List String)
    (desc : List Bool) (toBeSortedColumns : List String) : Settles layout mode Good fun i =>
      t.sortAsserted (P i) keys desc toBeSortedColumns (M i) :=
  (settles_sortColumns hP hown hM t hroom keys desc toBeSortedColumns).bind fun _ hm hmown =>
    .lookup fun _ _ => .ok hm hmown

theorem settles_convertA2b {inputA outputB : String}
    (h : (t.aShared inputA).isSome ∧ (t.bShared outputB).isSome) (hn : least ≤ n) :
    Settles layout mode Good fun i => t.convertA2b (P i) inputA outputB (M i) := by
  obtain ⟨a, ha⟩ := downcast_eq .aSharedVector h.1
  obtain ⟨o, ho⟩ := downcast_eq .bSharedVector h.2
  simp only [convertA2b, ha, ho]
  exact .ok ((hP.a2b (hM _) hn).bind fun _ hz => .pure (hM.update _ hz)) fun i =>
    ((hown i).a2b _).bind fun _ => .pure _

theorem settles_convertB2aBit {inputB outputA : String}
    (h : (t.bShared inputB).isSome ∧ (t.aShared outputA).isSome) :
    Settles layout mode Good fun i => t.convertB2aBit (P i) inputB outputA (M i) := by
  obtain ⟨b, hb⟩ := downcast_eq .bSharedVector h.1
  obtain ⟨o, ho⟩ := downcast_eq .aSharedVector h.2
  simp only [convertB2aBit, hb, ho]
  exact .ok ((hP.b2aBit (hM _)).bind fun _ hz => .pure (hM.update _ hz)) fun i =>
    ((hown i).b2aBit _).bind fun _ => .pure _

/-- A division that does not keep the copies equal has trapped. -/
theorem settles_tumblingWindow (hdef : ∀ i, Protocol.NeverUndefined least (P i)) (hn : least ≤ n)
    (timeA : String) (windowSize : Word d) (res : String) :
    Settles layout mode Good (fun i => t.tumblingWindow (P i) timeA windowSize res (M i)) ∨
      TrapsInside fun i => t.tumblingWindow (P i) timeA windowSize res (M i) := by
  simp only [EncodedTable.tumblingWindow]
  cases t.aShared timeA with
  | none => exact .inl (.inl fun _ => rfl)
  | some key =>
    cases t.aShared res with
    | none => exact .inl (.inl fun _ => rfl)
    | some r =>
      refine (hP.div (hM (.a key)) windowSize hn).imp (fun hdiv => ?_) fun htraps => ?_
      · exact .ok (hdiv.bind fun _ hz => .pure (hM.update _ hz)) fun i =>
          ((hown i).div _ _).bind fun _ => .pure _
      · exact ⟨_, fun _ => rfl, htraps.bind _, fun i => ((hdef i).div hn _ _).bind fun _ => .pure _⟩

variable [NeZero N] (hdata : dataParty 0)
include hdata

theorem settles_distinct (keys : List String) {res : String} (h : (t.bShared res).isSome)
    (hn : least ≤ n - 1) :
    Settles layout mode Good fun i => t.distinct (P i) keys res (M i) := by
  obtain ⟨r, hr⟩ := downcast_eq .bSharedVector h
  simp only [EncodedTable.distinct, hr]
  exact .lookup fun keysVec _ => .lookup fun _ _ => .ok (keeps_distinct hP hdata keysVec r hM hn)
    fun i => ownedBy_distinct (hown i) _ _ _

omit hM in
/-- The aggregation after the sorting, with a function that keeps the copies equal. -/
theorem settles_aggregation (hroom : RoomForRounds least n) (kind : SVector)
    {func : Fin N → AggregationFunction N ρ n d G}
    (hfunc : KeepsRounds layout least Good mode func)
    (hfuncown : ∀ i m dist bits cols reverse M, OwnedBy i (func i m dist bits cols reverse M))
    (keysVec : List ℕ) (data res : List String) (reverse : Bool)
    {m : Fin N → PartyM N d G (Memory ρ n d)} (hm : Keeps mode Good (Memory.Replicated layout) m)
    (hmown : ∀ i, OwnedBy i (m i)) : Settles layout mode Good fun i => do
      asserted (guard (data.length = res.length ∧ data ≠ []))
      let dataVec ← asserted (data.mapM (t.shared kind))
      let resVec ← asserted (res.mapM (t.shared kind))
      return m i >>=
        Operators.oddEvenAggregation (P i) kind keysVec dataVec resVec (func i) reverse none := by
  refine .lookup fun _ hguard => .lookup fun dataVec hdataVec => .lookup fun resVec hresVec => ?_
  have hvalues : dataVec.length > 0 ∧ resVec.length > 0 :=
    length_pos_of_mapM hguard hdataVec hresVec
  refine .sorted_bind hm hmown (fun _ hM => ?_) fun i _ =>
    ownedBy_oddEvenAggregation (hown i) kind _ _ _ (hfuncown i) reverse none _
  exact keeps_oddEvenAggregation hP hdata kind _ _ _ hfunc reverse (.inl fun _ => rfl) hM hvalues
    hroom

theorem settles_oddEvenAggregation (hroom : RoomForRounds least n) (keys data res : List String)
    (aggregationType : AggregationType) (reverse doSorting : Bool) :
    Settles layout mode Good fun i =>
      t.oddEvenAggregation (P i) keys data res aggregationType reverse doSorting (M i) := by
  refine (settles_sortFirst hM doSorting (settles_sortAsserted hP hown hM t hroom _ _ _)).bind
    fun m hm hmown => .lookup fun keysVec _ => ?_
  cases aggregationType with
  | sum =>
    exact settles_aggregation hP hown t hdata hroom .aSharedVector (keeps_sumAggregation hP)
      (fun i => ownedBy_sumAggregation (hown i)) keysVec data res reverse hm hmown
  | max =>
    exact settles_aggregation hP hown t hdata hroom .bSharedVector
      (keeps_maxAggregationWith hP false) (fun i => ownedBy_maxAggregationWith (hown i) false)
      keysVec data res reverse hm hmown
  | min =>
    exact settles_aggregation hP hown t hdata hroom .bSharedVector
      (keeps_maxAggregationWith hP true) (fun i => ownedBy_maxAggregationWith (hown i) true)
      keysVec data res reverse hm hmown
  | count => exact .inl fun _ => rfl
  | extra => exact .inl fun _ => rfl

theorem settles_thresholdSessionWindow (hn : least ≤ n - 1) (hroom : RoomForRounds least n)
    (keys : List String) (functionRes timeB windowId : String)
    (threshold : Word d) (doSorting : Bool) : Settles layout mode Good fun i =>
      t.thresholdSessionWindow (P i) keys functionRes timeB windowId threshold doSorting (M i) :=
  .lookup fun _ _ =>
    (settles_sortFirst hM doSorting (settles_sortColumns hP hown hM t hroom _ _ _)).bind
    fun _ hm hmown => .lookup fun _ _ => .lookup fun _ _ => .lookup fun _ _ => .lookup fun _ _ =>
      .sorted_bind hm hmown
        (fun _ hM => keeps_thresholdSessionWindow hP hdata _ _ _ _ _ hM hroom hn)
        fun i _ => ownedBy_thresholdSessionWindow (hown i) _ _ _ _ _ _

theorem settles_gapSessionWindowAsserted (hn : least ≤ n - 1) (hroom : RoomForRounds least n)
    (keys : List String) (timeA timeB windowId : String)
    (gap : Word d) (pastEnd : Fin N → Fin ρ → Word d) (doSorting : Bool) :
    Settles layout mode Good fun i =>
      t.gapSessionWindowAsserted (P i) keys timeA timeB windowId gap (pastEnd i) doSorting
        (M i) := by
  refine .lookup fun _ _ => ?_
  simp only [asserted_gapSessionWindow]
  exact (settles_sortFirst hM doSorting (settles_sortColumns hP hown hM t hroom _ _ _)).bind
    fun _ hm hmown => .lookup fun _ _ => .lookup fun _ _ => .lookup fun _ _ => .lookup fun _ _ =>
      .sorted_bind hm hmown
        (fun _ hM => keeps_gapSessionWindow hP hdata _ _ _ _ _ pastEnd hM hroom hn)
        fun i _ => ownedBy_gapSessionWindow (hown i) _ _ _ _ _ _ _

/-- **A method stops, keeps the copies equal or traps**, once it finds the classes that it casts to
and has room. -/
theorem settles_call (hdef : ∀ i, Protocol.NeverUndefined least (P i)) (method : Method N ρ d)
    (h : method.Fits t) (hroom : method.Room least n) :
    Settles layout mode Good (fun i => method.call (P i) i t (M i)) ∨
      TrapsInside fun i => method.call (P i) i t (M i) := by
  cases method with
  | sort keys desc => exact .inl (settles_sortAsserted hP hown hM t hroom keys desc _)
  | sortColumns keys desc cols =>
    exact .inl (settles_sortAsserted hP hown hM t hroom keys desc cols)
  | convertA2b => exact .inl (settles_convertA2b hP hown hM t h hroom)
  | convertB2aBit => exact .inl (settles_convertB2aBit hP hown hM t h)
  | oddEvenAggregation =>
    exact .inl (settles_oddEvenAggregation hP hown hM t hdata hroom _ _ _ _ _ _)
  | distinct keys => exact .inl (settles_distinct hP hown hM t hdata keys h hroom)
  | tumblingWindow => exact settles_tumblingWindow hP hown hM t hdef hroom _ _ _
  | gapSessionWindow =>
    exact .inl (settles_gapSessionWindowAsserted hP hown hM t hdata hroom.1 hroom.2 _ _ _ _ _ _ _)
  | thresholdSessionWindow =>
    exact .inl (settles_thresholdSessionWindow hP hown hM t hdata hroom.1 hroom.2 _ _ _ _ _ _)

end Calls

/-! ## Values of expressions -/

namespace ColumnExpr

variable {P : Fin N → Protocol N ρ d G} {dataParty : Fin N → Prop} {Good : (Fin N → G) → Prop}
variable {mode : SendMode} {ts : List (Table N ρ d)} {x : ColumnExpr} {u : Pending N ρ d G}

variable (hP : Protocol.Replicates P layout least dataParty Good mode)
include hP

theorem keeps_unary (op : UnaryOp) {x : Fin N → EVector ρ n d} (hx : Replicated layout x) :
    Keeps mode Good (Replicated layout) fun i => op.run (P i) (x i) := by
  cases op
  exacts [.pure (hP.negA hx), .pure (hP.notB hx), .pure (hP.notB1 hx)]

theorem keeps_binary (op : BinaryOp) {x y : Fin N → EVector ρ n d} (hx : Replicated layout x)
    (hy : Replicated layout y) (hn : op.multiplies = true → least ≤ n) :
    Keeps mode Good (Replicated layout) fun i => op.run (P i) (x i) (y i) := by
  cases op
  exacts [.pure (hP.addA hx hy), .pure (hP.subA hx hy), hP.multiplyA hx hy (hn rfl),
    hP.andB hx hy (hn rfl), .pure (hP.xorB hx hy), hP.or hx hy (hn rfl), hP.eq hx hy (hn rfl),
    hP.ne hx hy (hn rfl), hP.gt hx hy (hn rfl), hP.gt hy hx (hn rfl), hP.ge hx hy (hn rfl),
    hP.le hx hy (hn rfl)]

/-- **The value of an expression is replicated**, if the columns of the tables are and its products
have room. -/
theorem keeps_eval (hts : ∀ t ∈ ts, t.Intact layout) (h : x.eval P ts = some u)
    (hroom : x.multiplies = true → least ≤ u.size) :
    Keeps mode Good (Replicated layout) u.program := by
  induction x generalizing u with
  | column =>
    obtain ⟨t, j, ht, -, rfl⟩ := eval_column h
    exact .pure ((hts t (List.mem_of_getElem? ht)).replicated j)
  | allocate =>
    obtain rfl := Option.some.inj h
    exact .pure (.const _)
  | unary op x ih =>
    obtain ⟨v, hv, rfl⟩ := eval_unary h
    exact (ih hv hroom).bind fun _ hx => keeps_unary hP op hx
  | binary op x y ihx ihy =>
    obtain ⟨v, w, hsize, hv, hw, rfl⟩ := eval_binary h
    have hroom : op.multiplies = true ∨ x.multiplies = true ∨ y.multiplies = true →
        least ≤ v.size := fun h => hroom (by simpa [multiplies, or_assoc] using h)
    exact (ihx hv fun h => hroom (.inr (.inl h))).bind fun _ hx =>
      (ihy hw fun h => (hroom (.inr (.inr h))).trans_eq hsize.symm).bind fun _ hy =>
        keeps_binary hP op hx (hy.map fun z (j : Fin v.size) => z (j.cast hsize.symm))
          fun h => hroom (.inl h)

end ColumnExpr

end Tva.Relational
