import TvaMpc.Machinery.Loops
import TvaMpc.Relational.Plaintext

/-!
# Relational/Represents — what the tables of the parties hold

A table of the parties holds the values of a table in the clear: its columns are shared in the
encodings of their names (`Table.Holds`).  The methods see the columns numbered, so the values by
names become values by numbers (`Table.valuation`).

The value of an expression is computed on the shares as it is in the clear
(`ColumnExpr.ensures_eval`).
-/

namespace Tva.Relational

open Machinery Operators EncodedTable

variable {N ρ n least : ℕ} [NeZero ρ] {d : DataType} {G : Type} {layout : Fin N → Fin ρ → Fin N}

/-! ## Sharings -/

/-- A sharing in an encoding. -/
def Encoding.Shares (layout : Fin N → Fin ρ → Fin N) (e : Encoding) (x : Fin N → EVector ρ n d)
    (v : Vec n d) : Prop :=
  match e with
  | .aShared => SharesA layout x v
  | .bShared => SharesB layout x v

/-- Every component is a vector of bits. -/
def Singles (x : Fin N → EVector ρ n d) : Prop := ∀ i k, ∃ c : Fin n → Bool, x i k = bits d c

namespace Encoding.Shares

variable {e : Encoding} {x : Fin N → EVector ρ n d} {u v : Vec n d}

theorem replicated (hx : e.Shares layout x v) : Replicated layout x := by
  cases e
  exacts [Machinery.Shares.replicated hx, SharesB.isReplicated hx]

theorem unique (hu : e.Shares layout x u) (hv : e.Shares layout x v) : u = v := by
  cases e
  exacts [Machinery.Shares.unique hu hv, SharesB.unique hu hv]

theorem zero : e.Shares layout (fun _ _ => 0) (0 : Vec n d) := by
  cases e
  exacts [Machinery.Shares.zero, @Machinery.Shares.zero (Word d) (boolRing d) N ρ n _ layout]

end Encoding.Shares

omit [NeZero ρ] in
theorem Singles.zero : Singles fun (_ : Fin N) (_ : Fin ρ) => (0 : Vec n d) :=
  fun _ _ => ⟨fun _ => false, rfl⟩

/-- **Components that are bits share bits.** -/
theorem Singles.sharesBit {x : Fin N → EVector ρ n d} {v : Vec n d} (hs : Singles x)
    (hx : SharesB layout x v) : ∃ b, v = bits d b ∧ SharesBit layout x b := by
  have hmask : (fun i k => mask 1 (x i k)) = x := by
    ext i k : 2
    obtain ⟨c, hc⟩ := hs i k
    rw [hc]
    exact lowBit_bits c
  have hlow : mask 1 v = v := by
    have hmasked := hx.map (mask 1) (mask_xor 1)
    rw [hmask] at hmasked
    exact hmasked.unique hx
  have hv : v = bits d fun j => (v j).getLsbD 0 := hlow.symm.trans (mask_one v)
  exact ⟨_, hv, hv ▸ hx, hs⟩

/-! ## Tables -/

namespace Table

variable {t : Table N ρ d} {value : String → Vec t.rows d} {names : List String}

/-- **The columns share the values of their names**, and those in `names` by bits. -/
structure Holds (layout : Fin N → Fin ρ → Fin N) (t : Table N ρ d) (value : String → Vec t.rows d)
    (names : List String) : Prop where
  bShare (j : Fin t.names.length) : t.bShare j = isBShared (t.names.get j)
  column (j : Fin t.names.length) : ∃ x : Fin N → EVector ρ t.rows d,
    (t.columns j).contents = ⟨nameEncoding (t.names.get j), t.rows, x⟩ ∧
      (nameEncoding (t.names.get j)).Shares layout x (value (t.names.get j)) ∧
      (t.names.get j ∈ names → Singles x)

/-- The table holds what the table in the clear has. -/
def Represents (layout : Fin N → Fin ρ → Fin N) (t : Table N ρ d) (p : PlainTable d) : Prop :=
  ∃ value names, p = ⟨t.names, t.rows, value, names⟩ ∧ t.Holds layout value names

theorem Holds.encoding (ht : t.Holds layout value names) (j : Fin t.names.length) :
    (t.columns j).contents.encoding = nameEncoding (t.names.get j) := by
  obtain ⟨x, hx, -⟩ := ht.column j
  rw [hx]

theorem Holds.intact (ht : t.Holds layout value names) : t.Intact layout where
  size j := by
    obtain ⟨x, hx, -⟩ := ht.column j
    rw [hx]
  bShare j := by
    rw [ht.bShare, ht.encoding, nameEncoding]
    split <;> simp_all
  replicated j := by
    obtain ⟨x, hx, hshares, -⟩ := ht.column j
    rw [hx]
    exact hshares.replicated

/-- **The plaintexts are the values.** -/
theorem Holds.plaintext (ht : t.Holds layout value names) (j : Fin t.names.length) :
    List.ofFn (t.columns j).contents.plaintext = List.ofFn (value (t.names.get j)) := by
  obtain ⟨x, hx, hshares, -⟩ := ht.column j
  rw [hx]
  refine congrArg List.ofFn (Encoding.Shares.unique (e := nameEncoding (t.names.get j)) ?_ hshares)
  cases he : nameEncoding (t.names.get j) with
  | aShared => exact EncodedVector.sharesA_plaintext (v := ⟨_, _, x⟩) rfl hshares.replicated
  | bShared => exact EncodedVector.sharesB_plaintext (v := ⟨_, _, x⟩) rfl hshares.replicated

theorem Represents.plaintexts {p : PlainTable d} (hp : t.Represents layout p) :
    t.plaintexts = p.plaintexts := by
  obtain ⟨value, names, rfl, ht⟩ := hp
  simp only [Table.plaintexts, PlainTable.plaintexts, ht.plaintext]
  have hnames := congrArg (List.map fun name => List.ofFn (value name))
    (List.map_get_finRange t.names)
  rwa [List.map_map] at hnames

/-! ### Columns by their numbers -/

/-- The values by the numbers of the columns. -/
def valuation (t : Table N ρ d) (value : String → Vec n d) : Column → Vec n d := fun c =>
  if h : place c < t.names.length then value (t.names.get ⟨place c, h⟩) else 0

omit [NeZero ρ] in
theorem place_column (j : Fin t.names.length) : place (t.column j) = j := by
  rw [column]
  split <;> rfl

omit [NeZero ρ] in
theorem mem_schema {name : String} {c : Column} :
    (name, c) ∈ t.view.schema ↔ ∃ j, t.names.get j = name ∧ t.column j = c := by
  have hmem : ∀ j, j ∈ t.mapOrder := fun j =>
    (List.mergeSort_perm _ _).mem_iff.mpr (List.mem_finRange j)
  simp only [view, List.mem_map, hmem, true_and, Prod.mk.injEq]

omit [NeZero ρ] in
theorem mem_columns {c : Column} : c ∈ t.view.columns ↔ ∃ j, t.column j = c := by
  simp only [EncodedTable.mem_columns, mem_schema]
  exact ⟨fun ⟨_, j, _, hj⟩ => ⟨j, hj⟩, fun ⟨j, hj⟩ => ⟨_, j, rfl, hj⟩⟩

omit [NeZero ρ] in
theorem valuation_column (value : String → Vec n d) (j : Fin t.names.length) :
    t.valuation value (t.column j) = value (t.names.get j) := by
  have hj : place (t.column j) < t.names.length := (place_column j).symm ▸ j.isLt
  have hplace : (⟨place (t.column j), hj⟩ : Fin t.names.length) = j := Fin.ext (place_column j)
  rw [valuation, dif_pos hj, hplace]

omit [NeZero ρ] in
theorem valuation_name (value : String → Vec n d) {name : String} {c : Column}
    (h : (name, c) ∈ t.view.schema) : t.valuation value c = value name := by
  obtain ⟨j, rfl, rfl⟩ := mem_schema.mp h
  exact valuation_column value j

omit [NeZero ρ] in
/-- Another value of a name is another value of its column. -/
theorem valuation_update (value : String → Vec n d) {name : String} {c c' : Column}
    (h : (name, c) ∈ t.view.schema) (hc' : c' ∈ t.view.columns) (w : Vec n d) :
    t.valuation (Function.update value name w) c' = Function.update (t.valuation value) c w c' := by
  obtain ⟨name', h'⟩ := EncodedTable.mem_columns.mp hc'
  rw [valuation_name _ h']
  by_cases hname : name' = name
  · subst hname
    obtain rfl : c' = c := by
      have hsame := List.inj_on_of_nodup_map t.view.names_nodup h' h rfl
      exact congrArg Prod.snd hsame
    rw [Function.update_self, Function.update_self]
  · have hc : c' ≠ c := fun hc => hname (name_unique h' (hc ▸ h))
    rw [Function.update_of_ne hname, Function.update_of_ne hc, valuation_name _ h']

omit [NeZero ρ] in
theorem resize_shares {v : EncodedVector N ρ d} {e : Encoding} {x : Fin N → EVector ρ n d}
    (hv : v = ⟨e, n, x⟩) (h : v.size = n) (i : Fin N) : resize h (v.shares i) = x i := by
  subst hv
  rfl

/-- The class of a column is that of its sharings. -/
theorem sharesC_column_iff (ht : t.Holds layout value names) {j : Fin t.names.length}
    {x : Fin N → EVector ρ n d} {v : Vec n d} : SharesC layout (t.column j) x v ↔
      (nameEncoding (t.names.get j)).Shares layout x v := by
  rw [column, (t.columns j).encoding_eq, ht.encoding]
  cases nameEncoding (t.names.get j) <;> exact Iff.rfl

omit [NeZero ρ] in
theorem memory_column {j : Fin t.names.length} {e : Encoding} {x : Fin N → EVector ρ t.rows d}
    (hx : (t.columns j).contents = ⟨e, t.rows, x⟩)
    (h : ∀ j, (t.columns j).contents.size = t.rows) (i : Fin N) :
    t.memory h i (t.column j) = x i := by
  have hj : place (t.column j) < t.names.length := (place_column j).symm ▸ j.isLt
  have hplace : (⟨place (t.column j), hj⟩ : Fin t.names.length) = j := Fin.ext (place_column j)
  rw [Table.memory, dif_pos hj]
  exact resize_shares (by rw [hplace]; exact hx) _ i

/-- **What the methods see.** -/
theorem Holds.memory (ht : t.Holds layout value names) :
    Memory.Shares layout (· ∈ t.view.columns) (fun i => t.memory ht.intact.size i)
      (t.valuation value) := by
  intro c hc
  obtain ⟨j, rfl⟩ := mem_columns.mp hc
  obtain ⟨x, hx, hshares, -⟩ := ht.column j
  simp only [memory_column hx, valuation_column]
  exact (sharesC_column_iff ht).mpr hshares

/-- **The table after a method.** -/
theorem Holds.store (ht : t.Holds layout value names) {M : Fin N → Memory ρ t.rows d}
    {value' : String → Vec t.rows d}
    (hM : Memory.Shares layout (· ∈ t.view.columns) M (t.valuation value')) :
    (t.store M).Holds layout value' [] where
  bShare := ht.bShare
  column (j : Fin t.names.length) := by
    have hshares := hM (t.column j) (mem_columns.mpr ⟨j, rfl⟩)
    rw [valuation_column] at hshares
    refine ⟨fun i => M i (t.column j), ?_, (sharesC_column_iff ht).mp hshares, nofun⟩
    change (⟨(t.columns j).contents.encoding, _, _⟩ : EncodedVector N ρ d) = _
    rw [ht.encoding]
    rfl

/-- **The table after an assignment.** -/
theorem Holds.assign (ht : t.Holds layout value names) {j : Fin t.names.length}
    {x : Fin N → EVector ρ t.rows d} {v : Vec t.rows d}
    (hx : (nameEncoding (t.names.get j)).Shares layout x v) {isBit : Bool}
    (hbit : isBit = true → Singles x) :
    (t.assign j ⟨nameEncoding (t.names.get j), t.rows, x⟩).Holds layout
      (Function.update value (t.names.get j) v)
      (if isBit then t.names.get j :: names else names.filter (· ≠ t.names.get j)) := by
  have hcolumn : ∀ k, ∃ y : Fin N → EVector ρ t.rows d,
      (Function.update t.columns j (sharedColumn ⟨nameEncoding (t.names.get j), t.rows, x⟩)
        k).contents = ⟨nameEncoding (t.names.get k), t.rows, y⟩ ∧
      (nameEncoding (t.names.get k)).Shares layout y
        (Function.update value (t.names.get j) v (t.names.get k)) ∧
      (t.names.get k ∈ (if isBit then t.names.get j :: names
        else names.filter (· ≠ t.names.get j)) → Singles y) := by
    intro k
    by_cases hk : k = j
    · subst hk
      simp only [Function.update_self]
      refine ⟨x, rfl, hx, fun hmem => hbit ?_⟩
      by_contra hnot
      rw [if_neg hnot] at hmem
      exact of_decide_eq_true (List.mem_filter.mp hmem).2 rfl
    · have hname : t.names.get k ≠ t.names.get j := fun h =>
        hk (List.nodup_iff_injective_get.mp t.names_nodup h)
      simp only [Function.update_of_ne hk, Function.update_of_ne hname]
      obtain ⟨y, hy, hshares, hsingles⟩ := ht.column k
      refine ⟨y, hy, hshares, fun hmem => hsingles ?_⟩
      split at hmem
      · exact (List.mem_cons.mp hmem).resolve_left hname
      · exact (List.mem_filter.mp hmem).1
  exact ⟨ht.bShare, hcolumn⟩

/-- **A table of shared vectors.** -/
theorem holds_ofShares (schema : List String) (h : schema.Nodup)
    {x : Fin N → Fin schema.length → EVector ρ n d} {value : String → Vec n d}
    {names : List String}
    (hx : ∀ j, (nameEncoding (schema.get j)).Shares layout (fun i => x i j) (value (schema.get j)))
    (hsingles : ∀ j, schema.get j ∈ names → Singles fun i => x i j) :
    (ofShares schema h x).Holds layout value names where
  bShare _ := rfl
  column j := ⟨fun i => x i j, rfl, hx j, hsingles j⟩

end Table

/-! ## Expressions -/

section Expressions

variable {P : Fin N → Protocol N ρ d G} {dataParty : Fin N → Prop} {Good : (Fin N → G) → Prop}
variable {mode : SendMode} {g : Fin N → G} {x y : Fin N → EVector ρ n d} {u v : Vec n d}

omit [NeZero ρ] in
theorem UnaryOp.apply_not_bits (b : Fin n → Bool) :
    UnaryOp.not.apply (bits d b) = bits d fun j => !b j := by
  ext j : 1
  change (if bit d (b j) = 0 then 1 else 0) = bit d (!b j)
  have h0 : (0 : Word d) = bit d false := rfl
  rw [h0]
  cases b j with
  | false => exact if_pos rfl
  | true => exact if_neg fun h => Bool.noConfusion (bit_inj h)

/-- **A unary operator acts on the value.** -/
theorem UnaryOp.shares_run (hP : Protocol.KeepsBits P layout least dataParty Good mode)
    (op : UnaryOp) (hx : op.encoding.Shares layout x v) {p : Bool} (hsingles : p = true → Singles x)
    (hnot : op = .not → p = true) (hg : Good g) :
    Ensures mode (fun i => op.run (P i) (x i)) g fun z g' _ => op.encoding.Shares layout z
      (op.apply v) ∧ (op.isBit p = true → Singles z) ∧ Good g' := by
  cases op with
  | neg =>
    have hneg : SharesA layout (fun i => (P i).negA (x i)) (-v) := by
      simp only [hP.negA]
      exact Machinery.Shares.neg hx
    exact Ensures.pure ⟨hneg, fun h => absurd h Bool.false_ne_true, hg⟩
  | complement => exact Ensures.pure ⟨hP.notB hx, fun h => absurd h Bool.false_ne_true, hg⟩
  | not =>
    obtain ⟨b, rfl, hb⟩ := (hsingles (hnot rfl)).sharesBit hx
    have hres := hP.notB1 hb
    exact Ensures.pure ⟨UnaryOp.apply_not_bits b ▸ hres.shares, fun _ => hres.single, hg⟩

/-- **A binary operator acts on the values.** -/
theorem BinaryOp.ensures_run (hP : Protocol.KeepsBits P layout least dataParty Good mode)
    (op : BinaryOp) (hx : op.encoding.Shares layout x u) (hy : op.encoding.Shares layout y v)
    {p q : Bool} (hp : p = true → Singles x) (hq : q = true → Singles y) (hg : Good g)
    (hn : op.multiplies = true → least ≤ n) :
    Ensures mode (fun i => op.run (P i) (x i) (y i)) g fun z g' _ => op.encoding.Shares layout z
      (op.apply u v) ∧ (op.isBit p q = true → Singles z) ∧ Good g' := by
  have hbits : ∀ {m : Fin N → PartyM N d G (EVector ρ n d)} {b : Fin n → Bool} {w : Vec n d},
      bits d b = w → (Ensures mode m g fun z g' _ => SharesBit layout z b ∧ Good g') →
      Ensures mode m g fun z g' _ => SharesB layout z w ∧ (true = true → Singles z) ∧ Good g' := by
    rintro m b w rfl hm
    exact hm.mono fun z g' _ h => ⟨h.1.shares, fun _ => h.1.single, h.2⟩
  have hsame : ∀ j, (u j = v j) = ((u j).toInt = (v j).toInt) := fun j =>
    propext BitVec.toInt_inj.symm
  cases op with
  | add =>
    have hadd : SharesA layout (fun i => (P i).addA (x i) (y i)) (u + v) := by
      simp only [hP.addA]
      exact Machinery.Shares.add hx hy
    exact Ensures.pure ⟨hadd, fun h => absurd h Bool.false_ne_true, hg⟩
  | sub =>
    have hsub : SharesA layout (fun i => (P i).subA (x i) (y i)) (u - v) := by
      simp only [hP.subA]
      exact Machinery.Shares.sub hx hy
    exact Ensures.pure ⟨hsub, fun h => absurd h Bool.false_ne_true, hg⟩
  | mul => exact (hP.multiplyA hg hx hy (hn rfl)).mono fun _ _ _ h =>
      ⟨h.1, fun h => absurd h Bool.false_ne_true, h.2⟩
  | and =>
    by_cases hpq : (p && q) = true
    · obtain ⟨hp', hq'⟩ := Bool.and_eq_true_iff.mp hpq
      obtain ⟨a, rfl, ha⟩ := (hp hp').sharesBit hx
      obtain ⟨b, rfl, hb⟩ := (hq hq').sharesBit hy
      exact (hbits (bits_and a b) (hP.andK hg ha hb (hn rfl))).mono fun _ _ _ h =>
        ⟨h.1, fun _ => h.2.1 rfl, h.2.2⟩
    · exact (hP.andB hg hx hy (hn rfl)).mono fun _ _ _ h =>
        ⟨h.1, fun h' => absurd h' hpq, h.2⟩
  | xor =>
    have hxor : SharesB layout (fun i => (P i).xorB (x i) (y i)) (u ^^^ v) := by
      simp only [hP.xorB]
      exact SharesB.xor hx hy
    refine Ensures.pure ⟨hxor, fun hpq => ?_, hg⟩
    obtain ⟨hp', hq'⟩ := Bool.and_eq_true_iff.mp hpq
    obtain ⟨a, -, ha⟩ := (hp hp').sharesBit hx
    obtain ⟨b, -, hb⟩ := (hq hq').sharesBit hy
    simp only [hP.xorB]
    exact (ha.xor hb).single
  | or => exact (hP.ensures_or hg hx hy (hn rfl)).mono fun _ _ _ h =>
      ⟨h.1, fun h => absurd h Bool.false_ne_true, h.2⟩
  | eq => exact hbits (bits_decide _) (hP.ensures_eq hg hx hy (hn rfl))
  | ne =>
    refine hbits ?_ (hP.ensures_ne hg hx hy (hn rfl))
    simp only [← decide_not]
    exact bits_decide _
  | gt => exact hbits (bits_decide _) (hP.ensures_gt hg hx hy (hn rfl))
  | lt => exact hbits (bits_decide _) (hP.ensures_gt hg hy hx (hn rfl))
  | ge =>
    refine hbits ?_ (hP.ensures_ge hg hx hy (hn rfl))
    simp only [BitVec.slt, ← decide_not, not_lt]
    exact bits_decide _
  | le =>
    refine hbits ?_ (hP.ensures_le hg hx hy (hn rfl))
    simp only [BitVec.slt, ← decide_not, not_lt]
    exact bits_decide _

namespace ColumnExpr

variable {ts : List (Table N ρ d)} {ps : List (PlainTable d)} {e e' : ColumnExpr}
variable {r : Pending N ρ d G}

omit [NeZero ρ] in
theorem encoding_of_unary {op : UnaryOp} (h : (unary op e).eval P ts = some r)
    {r' : Pending N ρ d G} (he : e.eval P ts = some r') : r'.encoding = op.encoding := by
  simp only [eval, he, Option.bind_eq_bind, Option.bind_some, Option.bind_eq_some_iff] at h
  obtain ⟨_, hguard, -⟩ := h
  simpa [guard] using hguard

omit [NeZero ρ] in
theorem encoding_of_binary {op : BinaryOp} (h : (binary op e e').eval P ts = some r)
    {r₁ r₂ : Pending N ρ d G} (he : e.eval P ts = some r₁) (he' : e'.eval P ts = some r₂) :
    r₁.encoding = op.encoding ∧ r₂.encoding = op.encoding := by
  simp only [eval, he, he', Option.bind_eq_bind, Option.bind_some, Option.bind_eq_some_iff] at h
  obtain ⟨_, hguard, -⟩ := h
  have hboth : r₁.encoding = op.encoding ∧ r₁.encoding = r₂.encoding := by
    simpa [guard] using hguard
  exact ⟨hboth.1, hboth.2.symm.trans hboth.1⟩

omit [NeZero ρ] in
theorem pending_contents {w : EncodedVector N ρ d} {enc : Encoding} {x : Fin N → EVector ρ n d}
    (hw : w = ⟨enc, n, x⟩) : (⟨w.encoding, w.size, fun i => pure (w.shares i)⟩ : Pending N ρ d G)
      = ⟨enc, n, fun i => pure (x i)⟩ := by
  rw [hw]

/-- **The value of an expression on the tables of the parties is its value in the clear**, if its
products have room. -/
theorem ensures_eval (hP : Protocol.KeepsBits P layout least dataParty Good mode)
    (hts : List.Forall₂ (Table.Represents layout) ts ps) (h : e.eval P ts = some r)
    (hnots : e.NotsBits ps) (hroom : e.multiplies = true → least ≤ r.size) :
    ∃ v : Vec r.size d, e.Means ps r.size v ∧ ∀ g, Good g →
      Ensures mode r.program g fun z g' _ => r.encoding.Shares layout z v ∧
        (e.isBit ps = true → Singles z) ∧ Good g' := by
  induction e generalizing r with
  | column table name =>
    obtain ⟨t, j, ht, hj, hr⟩ := eval_column h
    obtain ⟨p, hp, value, names, rfl, hholds⟩ := exists_related hts ht
    obtain ⟨x, hx, hshares, hsingles⟩ := hholds.column j
    rw [(t.columns j).encoding_eq, pending_contents hx] at hr
    subst hr
    have hname : t.names.get j = name := Table.find_eq_some_iff.mp hj
    refine ⟨value (t.names.get j), ?_, fun g hg => Ensures.pure ⟨hshares, fun hbit => ?_, hg⟩⟩
    · exact hname ▸ .column hp (List.get_mem _ _)
    · refine hsingles ?_
      rw [isBit, hp] at hbit
      rw [hname]
      simpa using hbit
  | allocate size eType =>
    obtain rfl := Option.some.inj h
    exact ⟨0, .allocate, fun g hg => Ensures.pure ⟨Encoding.Shares.zero, fun _ => Singles.zero, hg⟩⟩
  | unary op e ih =>
    obtain ⟨r', hr', rfl⟩ := eval_unary h
    obtain ⟨v, hv, hens⟩ := ih hr' hnots.1 hroom
    refine ⟨op.apply v, .unary hv, fun g hg => (hens g hg).bind fun z g₁ _ hz => ?_⟩
    rw [encoding_of_unary h hr'] at hz
    exact (op.shares_run hP hz.1 hz.2.1 hnots.2 hz.2.2).mono fun _ _ _ h => h
  | binary op e e' ih ih' =>
    obtain ⟨r₁, r₂, hsize, hr₁, hr₂, rfl⟩ := eval_binary h
    obtain ⟨henc₁, henc₂⟩ := encoding_of_binary h hr₁ hr₂
    replace hroom : op.multiplies = true ∨ e.multiplies = true ∨ e'.multiplies = true →
        least ≤ r₁.size := fun h => hroom (by simpa [multiplies, or_assoc] using h)
    obtain ⟨u, hu, hens₁⟩ := ih hr₁ hnots.1 fun h => hroom (.inr (.inl h))
    obtain ⟨v, hv, hens₂⟩ := ih' hr₂ hnots.2 fun h => (hroom (.inr (.inr h))).trans_eq hsize.symm
    obtain ⟨enc₁, n, m₁⟩ := r₁
    obtain ⟨enc₂, n₂, m₂⟩ := r₂
    obtain rfl : n₂ = n := hsize
    obtain rfl : enc₁ = op.encoding := henc₁
    obtain rfl : enc₂ = op.encoding := henc₂
    refine ⟨op.apply u v, .binary hu hv, fun g hg => (hens₁ g hg).bind fun x g₁ _ hx =>
      (hens₂ g₁ hx.2.2).bind fun y g₂ _ hy => ?_⟩
    exact (op.ensures_run hP hx.1 hy.1 hx.2.1 hy.2.1 hy.2.2 fun h => hroom (.inl h)).mono
      fun _ _ _ h => h

end ColumnExpr

end Expressions

end Tva.Relational
