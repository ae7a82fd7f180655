import TvaMpc.Operators.Replicated3pcMaskedRows
import TvaMpc.Operators.SortingCorrect

/-!
# Operators/Replicated3pcComparisons — which masks the uses of a comparison bear

A negated comparison, an oblivious choice and a swap act on the components of a comparison as if
these were single bits.  They are right on all inputs exactly if the masks of `and_b` leave nothing
above the lowest bits of the components, or almost nothing (`comparisonsRight_iff`).
-/

namespace Tva.Replicated3pc

open Machinery Operators

variable {m n : ℕ} {d : DataType} {G : Type} [RandomGenerator G d] {mode : SendMode}
variable {Good : (Fin 3 → G) → Prop} {g : Fin 3 → G}

/-! ## Extended components -/

section Extend

variable {c M : Fin 3 → Vec m d} {b : Fin m → Bool}

omit [RandomGenerator G d]

/-- The upper parts of a sharing of bits cancel. -/
theorem upper_xor_of_shares (hc : SharesB layout (components c) (bits d b)) (j : Fin m) :
    upper (c 0 j) ^^^ upper (c 1 j) ^^^ upper (c 2 j) = 0#d.bits := by
  have h := congrFun (xor_eq hc) j
  change c 0 j ^^^ c 1 j ^^^ c 2 j = bit d (b j) at h
  rw [← upper_xor, ← upper_xor, h, upper_bit]

/-- The extended components. -/
def extended (c : Fin 3 → Vec m d) : Vec m d :=
    extendLsb (c 0) ^^^ extendLsb (c 1) ^^^ extendLsb (c 2)

theorem sharesB_extended (c : Fin 3 → Vec m d) :
    SharesB layout (fun i k => extendLsb (components c i k)) (extended c) :=
  sharesB_components fun i => extendLsb (c i)

/-- **They extend the bit** if the upper parts are their own negations. -/
theorem extended_eq (hc : SharesB layout (components c) (bits d b))
    (hup : ∀ i j, upper (c i j) = upper (M i j)) (hM : ∀ i j, -upper (M i j) = upper (M i j)) :
    extended c = fun j => if b j then BitVec.allOnes d.bits else 0 := by
  funext j
  have hr := upper_xor_of_shares hc j
  have h := (neg_extends_iff (r := fun i => c i j) d.bits_pos hr).mpr (fun i => by rw [hup, hM])
    (fun i => c i j) fun _ => rfl
  rw [getLsbD_xor_of_shares hc] at h
  exact h

/-- … and only then, where all components are possible. -/
theorem neg_upper_of_extended {j : Fin m}
    (hM : ∀ w : Fin 3 → Word d, (∀ i, upper (w i) = upper (M i j)) →
      ∃ (c : Fin 3 → Vec m d) (b : Fin m → Bool), (∀ i, c i j = w i) ∧
        SharesB layout (components c) (bits d b) ∧ extended c j = spreadBit d.bits (b j))
          (i : Fin 3) :
    -upper (M i j) = upper (M i j) := by
  have hr : upper (M 0 j) ^^^ upper (M 1 j) ^^^ upper (M 2 j) = 0#d.bits := by
    obtain ⟨c, b, hcj, hshares, -⟩ := hM (fun i => M i j) fun _ => rfl
    simpa only [hcj] using upper_xor_of_shares hshares j
  refine (neg_extends_iff (r := fun i => M i j) d.bits_pos hr).mp (fun w hw => ?_) i
  obtain ⟨c, b, hcj, hshares, hext⟩ := hM w hw
  rw [← getLsbD_xor_of_shares hshares] at hext
  change -c 0 j ^^^ -c 1 j ^^^ -c 2 j = _ at hext
  simpa only [hcj] using hext

end Extend

/-! ## Oblivious choice -/

variable (mode) in
/-- **`multiplex` by a comparison is right on all inputs exactly if the upper parts of its masks are
their own negations.** -/
theorem multiplex_iff (hz : ZeroSharing d Good) (hg : Good g) :
    (∀ (x y a b : Fin 3 → EVector 2 m d) (u v s t : Vec m d), SharesB layout x u →
      SharesB layout y v → SharesB layout a s → SharesB layout b t →
      Finishes mode (fun i => ((protocol d G i).gt (x i) (y i) >>= fun sel =>
          multiplexB (protocol d G i) sel (a i) (b i)).run (g i)) fun out _ =>
        SharesB layout (fun i => (out i).1) fun j => if (v j).slt (u j) then t j else s j) ↔
      ∀ i j, -upper (comparisonMask d m g i j) = upper (comparisonMask d m g i j) := by
  have hP : Protocol.Correct (protocol d G) layout 0 (fun _ => True) Good mode := correct hz
  constructor
  · intro h i j
    refine neg_upper_of_extended (fun w hw => ?_) i
    obtain ⟨cx, cy, hgt⟩ := exists_gt_components mode hz hg j hw
    let s : Vec m d := 0
    let t : Vec m d := fun _ => BitVec.allOnes d.bits
    have hs : SharesB layout (plain s) s := shares_plain (.b 0) s
    have ht : SharesB layout (plain t) t := shares_plain (.b 0) t
    have hchoose := hgt.bind
      (f := fun i sel => multiplexB (protocol d G i) sel (plain s i) (plain t i))
      (R := fun z _ _ => ∃ c, (∀ i, c i j = w i) ∧ SharesB layout (components c) (bits d fun j =>
        ((cy 0 ^^^ cy 1 ^^^ cy 2) j).slt ((cx 0 ^^^ cx 1 ^^^ cx 2) j)) ∧
        SharesB layout z ((~~~extended c &&& s) ^^^ (extended c &&& t))) ?_
    · obtain ⟨_, _, _, -, ⟨c, hcj, hshares, hz⟩, hright⟩ := hchoose.exists_of_finishes
        (h _ _ _ _ _ _ _ _ (sharesB_components cx) (sharesB_components cy) hs ht)
      refine ⟨c, _, hcj, hshares, ?_⟩
      have hj := congrFun (SharesB.unique hz hright) j
      change (~~~extended c j &&& 0#d.bits) ^^^ (extended c j &&& BitVec.allOnes d.bits) = _ at hj
      rwa [BitVec.and_zero, BitVec.zero_xor, BitVec.and_allOnes] at hj
    · rintro z g' _ ⟨c, rfl, hcj, hshares, hg'⟩
      exact (ensures_chooseB hP hg' (sharesB_extended c) hs ht (Nat.zero_le _)).mono
        fun z' _ _ hz' => ⟨c, hcj, hshares, hz'.1⟩
  · intro hM x y a b u v s t hx hy ha hb
    have hmul : Ensures mode (fun i => (protocol d G i).gt (x i) (y i) >>= fun sel =>
        multiplexB (protocol d G i) sel (a i) (b i)) g fun z _ _ =>
        SharesB layout z fun j => if (v j).slt (u j) then t j else s j := by
      have hgt := ensures_gt_masked mode hz hg (fun i => x i 0) fun i => y i 0
      rw [← eq_components hx, ← eq_components hy, xor_eq hx, xor_eq hy] at hgt
      refine hgt.bind fun z g' _ hc => ?_
      obtain ⟨c, rfl, hres, hshares, hg'⟩ := hc
      refine (ensures_chooseB hP hg' (sharesB_extended c) ha hb (Nat.zero_le _)).mono
        fun z' _ _ hz' => ?_
      rw [extended_eq hshares hres.upper hM, choose_extended] at hz'
      exact hz'.1
    exact hmul.finishes fun i => ((ownedBy_protocol i).gt _ _).bind fun _ =>
      ownedBy_multiplexB (ownedBy_protocol i) _ _ _

/-! ## Swap -/

section Swap

variable {left right : VectorData} {e : Fin m ⊕ Fin m ≃ Fin n} {V : Column → Vec n d}
variable {M : Fin 3 → Memory 2 n d} {keys : List (ℕ × Bool)}

/-- `swap(x, y, compare_rows(x, y, desc))`, where `x` and `y` are the `m` left and right rows of the
columns. -/
def compareAndSwap (P : Protocol 3 2 d G) (m : ℕ) (left right : VectorData) (columns : List ℕ)
    (desc : List Bool) (M : Memory 2 n d) : PartyM 3 d G (Memory 2 n d) :=
  let x : List Reference := columns.map fun c => ⟨.b c, left⟩
  let y : List Reference := columns.map fun c => ⟨.b c, right⟩
  compareRows P (x.map (M.read m)) (y.map (M.read m)) desc >>= fun bits => swapB P x y bits M

/-- Where the left row is greater. -/
def greater (e : Fin m ⊕ Fin m ≃ Fin n) (keys : List (ℕ × Bool)) (V : Column → Vec n d)
    (q : Fin m) : Bool :=
  decide (keyRow keys V (e (.inr q)) < keyRow keys V (e (.inl q)))

/-- **What it does to boolean columns**: all are blended by the extended components of a masked row
comparison. -/
theorem ensures_compareAndSwap (hz : ZeroSharing d Good) (hl : left.Shows fun q => e (.inl q))
    (hr : right.Shows fun q => e (.inr q)) (hnodup : (keys.map Prod.fst).Nodup)
    (hM : Memory.Shares layout (· ∈ (keys.map Prod.fst).map Column.b) M V)
    {Q : (Fin 3 → Vec m d) → Prop}
    (hrows : Ensures mode (fun i => compareRows (protocol d G i)
        (keys.map fun key => (M i).read m ⟨.b key.1, left⟩)
        (keys.map fun key => (M i).read m ⟨.b key.1, right⟩) (keys.map Prod.snd)) g
      fun z g' _ => ∃ c, z = components c ∧ Q c ∧ Good g') :
    Ensures mode (fun i => compareAndSwap (protocol d G i) m left right (keys.map Prod.fst)
        (keys.map Prod.snd) (M i)) g fun out _ _ => ∃ c, Q c ∧
      ∀ col ∈ keys.map Prod.fst,
        SharesB layout (fun i => out i (.b col)) (blend e (extended c) (V (.b col))) := by
  have hP : Protocol.Correct (protocol d G) layout 0 (fun _ => True) Good mode := correct hz
  have hmap : ∀ i (v : VectorData), ((keys.map Prod.fst).map
      fun c => (⟨.b c, v⟩ : Reference)).map ((M i).read m)
      = keys.map fun key => (M i).read m ⟨.b key.1, v⟩ :=
    fun i v => by simp only [List.map_map, Function.comp_def]
  simp only [compareAndSwap, hmap]
  refine hrows.bind fun z g' _ h => ?_
  obtain ⟨c, rfl, hc, hg'⟩ := h
  refine (ensures_swapB_blend hP hg' hM hnodup (fun c hc => List.mem_map_of_mem hc) hl hr
    (sharesB_extended c) (Nat.zero_le _)).mono fun out _ _ hout => ⟨c, hc, fun col hcol => ?_⟩
  have hmem : Column.b col ∈ (keys.map Prod.fst).map Column.b := List.mem_map_of_mem hcol
  have h := hout.1 (.b col) hmem
  simp only [if_pos hmem] at h
  exact h

omit [RandomGenerator G d] in
theorem choose_not (b y : Word d) : (~~~b &&& ~~~y) ^^^ (b &&& y) = ~~~y ^^^ b :=
  BitVec.eq_of_getLsbD_eq fun t ht => by
    simp only [BitVec.getLsbD_xor, BitVec.getLsbD_and, BitVec.getLsbD_not, ht, decide_true,
      Bool.true_and]
    cases b.getLsbD t <;> cases y.getLsbD t <;> rfl

omit [RandomGenerator G d] in
/-- Where the left row is the complement of the right one, the whole mask is seen. -/
theorem blend_complement {v : Vec n d} {b : Vec m d} {q : Fin m} {s : Fin m → Bool}
    (hv : v (e (.inl q)) = ~~~v (e (.inr q)))
    (h : blend e b v (e (.inl q)) = v (exchange e s (e (.inl q)))) : b q =
    spreadBit d.bits (s q) := by
  rw [blend, Equiv.symm_apply_apply, Sum.elim_inl, exchange_left, hv, choose_not] at h
  have hs : v (e (if s q then .inr q else .inl q))
      = ~~~v (e (.inr q)) ^^^ spreadBit d.bits (s q) := by
    cases s q with
    | true =>
      change v (e (.inr q)) = ~~~v (e (.inr q)) ^^^ BitVec.allOnes d.bits
      rw [BitVec.xor_allOnes, BitVec.not_not]
    | false => exact hv.trans BitVec.xor_zero.symm
  rw [hs] at h
  exact (BitVec.xor_right_inj _).mp h

theorem ownedBy_compareAndSwap (i : Fin 3) (columns : List ℕ) (desc : List Bool)
    (M : Memory 2 n d) :
    OwnedBy i (compareAndSwap (protocol d G i) m left right columns desc M) :=
  (ownedBy_compareRows (ownedBy_protocol i) _ _ _).bind fun _ =>
    ownedBy_swapB (ownedBy_protocol i) _ _ _ _

variable (mode) in
/-- The comparison of the rows of a table. -/
theorem ensures_rows_masked (hz : ZeroSharing d Good) (hg : Good g)
    (hl : left.Shows fun q => e (.inl q)) (hr : right.Shows fun q => e (.inr q)) (hkeys : keys ≠ [])
    (hM : Memory.Shares layout (· ∈ (keys.map Prod.fst).map Column.b) M V) :
    Ensures mode (fun i => compareRows (protocol d G i)
        (keys.map fun key => (M i).read m ⟨.b key.1, left⟩)
        (keys.map fun key => (M i).read m ⟨.b key.1, right⟩) (keys.map Prod.snd)) g
      fun z g' _ => ∃ c, z = components c ∧
        ((∀ i j, upper (c i j) = upper (rowsMask d m (keys.length - 1) g i j)) ∧
          SharesB layout (components c) (bits d (greater e keys V))) ∧ Good g' := by
  have hlive : ∀ key ∈ keys, Column.b key.1 ∈ (keys.map Prod.fst).map Column.b := fun key hk =>
    List.mem_map_of_mem (List.mem_map_of_mem hk)
  have hx := fun key hk => hM.read (hlive key hk) hl
  have hy := fun key hk => hM.read (hlive key hk) hr
  have hvalue := ensures_compareRows (X := fun key i => (M i).read m ⟨.b key.1, left⟩)
    (Y := fun key i => (M i).read m ⟨.b key.1, right⟩) Prod.snd (compares mode hz) hg hkeys
    hx hy (Nat.zero_le _)
  have hcomponents : Ensures mode (fun i => compareRows (protocol d G i)
      (keys.map fun key => (M i).read m ⟨.b key.1, left⟩)
      (keys.map fun key => (M i).read m ⟨.b key.1, right⟩) (keys.map Prod.snd)) g
      fun z _ _ => ∃ c, z = components c ∧
        ∀ i j, upper (c i j) = upper (rowsMask d m (keys.length - 1) g i j) := by
    have hmapx : ∀ i, (keys.map fun key => (M i).read m ⟨.b key.1, left⟩)
        = keys.map fun key => components (fun i => (M i).read m ⟨.b key.1, left⟩ 0) i :=
      fun i => List.map_congr_left fun key hk => congrFun (eq_components (hx key hk)) i
    have hmapy : ∀ i, (keys.map fun key => (M i).read m ⟨.b key.1, right⟩)
        = keys.map fun key => components (fun i => (M i).read m ⟨.b key.1, right⟩ 0) i :=
      fun i => List.map_congr_left fun key hk => congrFun (eq_components (hy key hk)) i
    simp only [hmapx, hmapy]
    obtain ⟨key, keys, rfl⟩ := List.exists_cons_of_ne_nil hkeys
    refine (ensures_compareRows_components key keys).mono fun z _ _ h => ?_
    obtain ⟨c, hz, hup, -⟩ := h
    exact ⟨c, hz, hup⟩
  refine (hvalue.and hcomponents fun i => ownedBy_compareRows (ownedBy_protocol i) _ _ _).mono
    fun z g' _ h => ?_
  obtain ⟨⟨hshares, hg'⟩, c, rfl, hup⟩ := h
  exact ⟨c, rfl, ⟨hup, hshares⟩, hg'⟩

/-- A table in which the left rows of column `t` have complements of the components `Y t` of the
right rows. -/
def complementTable (e : Fin m ⊕ Fin m ≃ Fin n) (Y : ℕ → Fin 3 → Vec m d) : Column → Fin 3 → Vec n d
  | .b t => fun i j => Sum.elim (fun q => ~~~Y t i q) (fun q => Y t i q) (e.symm j)
  | .a _ => fun _ => 0

section ComplementTable

variable {Y : ℕ → Fin 3 → Vec m d} {t : ℕ}

omit [RandomGenerator G d]

theorem complementTable_left (i : Fin 3) (q : Fin m) :
    complementTable e Y (.b t) i (e (.inl q)) = (~~~Y t i) q := by
  simp only [complementTable, Equiv.symm_apply_apply, Sum.elim_inl]
  rfl

theorem complementTable_right (i : Fin 3) (q : Fin m) :
    complementTable e Y (.b t) i (e (.inr q)) = Y t i q := by
  simp only [complementTable, Equiv.symm_apply_apply, Sum.elim_inr]

theorem read_complementTable_left (hl : left.Shows fun q => e (.inl q)) (i : Fin 3) :
    Memory.read (fun c => components (complementTable e Y c) i) m ⟨.b t, left⟩
      = components (fun i => ~~~Y t i) i := by
  funext κ q
  rw [Memory.read, hl.read]
  exact complementTable_left _ q

theorem read_complementTable_right (hr : right.Shows fun q => e (.inr q)) (i : Fin 3) :
    Memory.read (fun c => components (complementTable e Y c) i) m ⟨.b t, right⟩
      = components (Y t) i := by
  funext κ q
  rw [Memory.read, hr.read]
  exact complementTable_right _ q

theorem value_complementTable_left (q : Fin m) :
    value (complementTable e Y (.b t)) (e (.inl q)) = value (fun i => ~~~Y t i) q := by
  simp only [value, Vec.xor_apply, complementTable_left]

theorem value_complementTable_right (q : Fin m) :
    value (complementTable e Y (.b t)) (e (.inr q)) = value (Y t) q := by
  simp only [value, Vec.xor_apply, complementTable_right]

theorem value_not (c : Fin 3 → Vec m d) (q : Fin m) : value (fun i => ~~~c i) q = ~~~value c q := by
  change ~~~(c 0 q) ^^^ ~~~(c 1 q) ^^^ ~~~(c 2 q) = ~~~(c 0 q ^^^ c 1 q ^^^ c 2 q)
  rw [not_xor_not, BitVec.not_xor_right]

theorem greater_complementTable (keys : List (ℕ × Bool)) :
    greater e keys (fun c => value (complementTable e Y c)) = fun q => decide
      (row Prod.snd (fun key : ℕ × Bool => value (Y key.1)) keys q
        < row Prod.snd (fun key => value fun i => ~~~Y key.1 i) keys q) := by
  funext q
  simp only [greater, keyRow, row, value_complementTable_left, value_complementTable_right]
  rfl

end ComplementTable

variable (mode) in
/-- **`swap` by a comparison of rows is right on all tables of `k + 1` key columns exactly if the
upper parts of the masks are their own negations.** -/
theorem swap_iff (hz : ZeroSharing d Good) (hg : Good g) (hl : left.Shows fun q => e (.inl q))
    (hr : right.Shows fun q => e (.inr q)) (k : ℕ) :
    (∀ (keys : List (ℕ × Bool)) (M : Fin 3 → Memory 2 n d) (V : Column → Vec n d),
      keys.length = k + 1 → (keys.map Prod.fst).Nodup →
      Memory.Shares layout (· ∈ (keys.map Prod.fst).map Column.b) M V →
      Finishes mode (fun i => (compareAndSwap (protocol d G i) m left right (keys.map Prod.fst)
          (keys.map Prod.snd) (M i)).run (g i)) fun out _ => ∀ c ∈ keys.map Prod.fst,
        SharesB layout (fun i => (out i).1 (.b c))
          fun j => V (.b c) (exchange e (greater e keys V) j)) ↔
      ∀ i j, -upper (rowsMask d m k g i j) = upper (rowsMask d m k g i j) := by
  constructor
  · intro h i j
    refine neg_upper_of_extended (fun w hw => ?_) i
    obtain ⟨Y, hrows⟩ := exists_compareRows_components mode hz hg k j hw
    let M : Fin 3 → Memory 2 n d := fun p c => components (complementTable e Y c) p
    let V : Column → Vec n d := fun c => value (complementTable e Y c)
    have hM : Memory.Shares layout (· ∈ ((firstKeys k).map Prod.fst).map Column.b) M V :=
      fun c hc => by
      obtain ⟨t, -, rfl⟩ := List.mem_map.mp hc
      exact sharesB_components _
    have hnodup : ((firstKeys k).map Prod.fst).Nodup := by
      rw [firstKeys_fst]
      exact List.nodup_range
    rw [← greater_complementTable (e := e)] at hrows
    simp only [← read_complementTable_left hl, ← read_complementTable_right hr] at hrows
    have hswap := ensures_compareAndSwap hz hl hr hnodup hM (Q := fun c => (∀ i, c i j = w i) ∧
      SharesB layout (components c) (bits d (greater e (firstKeys k) V)))
      (hrows.mono fun z _ _ h => by
        obtain ⟨c, hz, hcj, hshares, hg'⟩ := h
        exact ⟨c, hz, ⟨hcj, hshares⟩, hg'⟩)
    obtain ⟨_, _, _, -, ⟨c, ⟨hcj, hshares⟩, hcols⟩, hright⟩ := hswap.exists_of_finishes
      (h _ M V (firstKeys_length k) hnodup hM)
    refine ⟨c, _, hcj, hshares, ?_⟩
    have hfirst : 0 ∈ (firstKeys k).map Prod.fst := List.mem_cons_self
    have hcol := SharesB.unique (hcols 0 hfirst) (hright 0 hfirst)
    refine blend_complement ?_ (congrFun hcol (e (.inl j)))
    exact (value_complementTable_left j).trans ((value_not _ _).trans
      (congrArg (~~~·) (value_complementTable_right j).symm))
  · intro hmask keys M V hlen hnodup hM
    have hkeys : keys ≠ [] := List.ne_nil_of_length_eq_add_one hlen
    have hrows := ensures_rows_masked mode hz hg hl hr hkeys hM
    rw [hlen, Nat.add_sub_cancel] at hrows
    have hswap : Ensures mode (fun i => compareAndSwap (protocol d G i) m left right
        (keys.map Prod.fst) (keys.map Prod.snd) (M i)) g fun out _ _ => ∀ c ∈ keys.map Prod.fst,
        SharesB layout (fun i => out i (.b c))
          fun j => V (.b c) (exchange e (greater e keys V) j) := by
      refine (ensures_compareAndSwap hz hl hr hnodup hM hrows).mono fun out _ _ hout => ?_
      obtain ⟨c, ⟨hup, hshares⟩, hcols⟩ := hout
      intro col hcol
      have hcol' := hcols col hcol
      rwa [extended_eq hshares hup hmask, blend_extended] at hcol'
    exact hswap.finishes fun i => ownedBy_compareAndSwap i _ _ _

end Swap

/-! ## All uses of a comparison -/

/-- **The uses of a comparison are right on all inputs** from the generators `g`: `operator>=` and
`operator<=`, the choice by `operator>`, and the swap of the left and right rows of a table, which
`e` places, by their comparison. -/
structure ComparisonsRight (d : DataType) [RandomGenerator G d] (mode : SendMode) (g : Fin 3 → G)
    (left right : VectorData) (e : Fin m ⊕ Fin m ≃ Fin n) : Prop where
  ge (x y : Fin 3 → EVector 2 m d) (u v : Vec m d) (hx : SharesB layout x u)
    (hy : SharesB layout y v) :
    Finishes mode (fun i => ((protocol d G i).ge (x i) (y i)).run (g i)) fun out _ =>
      SharesB layout (fun i => (out i).1) (bits d fun j => decide ((v j).toInt ≤ (u j).toInt))
  le (x y : Fin 3 → EVector 2 m d) (u v : Vec m d) (hx : SharesB layout x u)
    (hy : SharesB layout y v) :
    Finishes mode (fun i => ((protocol d G i).le (x i) (y i)).run (g i)) fun out _ =>
      SharesB layout (fun i => (out i).1) (bits d fun j => decide ((u j).toInt ≤ (v j).toInt))
  multiplex (x y a b : Fin 3 → EVector 2 m d) (u v s t : Vec m d) (hx : SharesB layout x u)
    (hy : SharesB layout y v) (ha : SharesB layout a s) (hb : SharesB layout b t) :
    Finishes mode (fun i => ((protocol d G i).gt (x i) (y i) >>= fun sel =>
        multiplexB (protocol d G i) sel (a i) (b i)).run (g i)) fun out _ =>
      SharesB layout (fun i => (out i).1) fun j => if (v j).toInt < (u j).toInt then t j else s j
  swap (columns : List ℕ) (desc : List Bool) (M : Fin 3 → Memory 2 n d) (V : Column → Vec n d)
    (hcolumns : columns ≠ []) (hdesc : desc.length = columns.length) (hnodup : columns.Nodup)
    (hM : Memory.Shares layout (· ∈ columns.map Column.b) M V) :
    Finishes mode (fun i => (compareAndSwap (protocol d G i) m left right columns desc (M i)).run
        (g i)) fun out _ => ∀ c ∈ columns, SharesB layout (fun i => (out i).1 (.b c))
      fun j => V (.b c) (exchange e (greater e (columns.zip desc) V) j)

/-- **The masks keep bits**: those of the last two products of a comparison leave nothing above the
lowest bits, and what reaches the result of a comparison of `k + 1` columns is, above the lowest
bits, its own negation. -/
structure BitMasks (d : DataType) [RandomGenerator G d] (n : ℕ) (g : Fin 3 → G) : Prop where
  comparison : ∀ i j, upper (comparisonMask d n g i j) = 0#d.bits
  rows : ∀ k i j, -upper (rowsMask d n k g i j) = upper (rowsMask d n k g i j)

section All

variable {left right : VectorData} {e : Fin m ⊕ Fin m ≃ Fin n}

omit [RandomGenerator G d] in
theorem not_slt (u v : Word d) : (!v.slt u) = decide (u.toInt ≤ v.toInt) := by
  rw [BitVec.slt, ← decide_not]
  exact decide_eq_decide.mpr not_lt

theorem good_afterAnds (hz : ZeroSharing d Good) (hg : Good g) (t : ℕ) :
    Good ((afterAnd d n)^[t] g) := by
  induction t with
  | zero => exact hg
  | succ t ih =>
    rw [Function.iterate_succ_apply']
    exact hz.afterB ih n

/-- Masks that are zero keep bits. -/
theorem bitMasks_of_zeroMasks (hz : ZeroMasks d Good) (hg : Good g) : BitMasks d n g := by
  have hmask : ∀ {g : Fin 3 → G}, Good g → ∀ i, andMask d n g i = 0 := fun hg i => hz.zeroB hg n i
  have hafter : ∀ {g : Fin 3 → G}, Good g → ∀ t, Good ((afterAnd d n)^[t] g) :=
    fun hg => good_afterAnds hz.toZeroSharing hg
  have hcomparison : ∀ {g : Fin 3 → G}, Good g → ∀ i j, comparisonMask d n g i j = 0#d.bits := by
    intro g hg i j
    rw [comparisonMask, hmask (hafter hg _), hmask (hafter hg _)]
    exact BitVec.xor_zero
  have hrows : ∀ (k : ℕ) {g : Fin 3 → G} {gt eq : Fin 3 → Vec n d}, Good g →
      (∀ i j, gt i j = 0#d.bits) → (∀ i j, eq i j = 0#d.bits) →
      ∀ i j, rowMask d n k gt eq g i j = 0#d.bits := by
    intro k
    induction k with
    | zero => exact fun _ hgt _ => hgt
    | succ k ih =>
      intro g gt eq hg hgt heq
      have hg' := hafter hg (levels d + 4)
      refine ih (hz.afterB (hz.afterB hg' n) n) (fun i j => ?_) fun i j => ?_
      · obtain rfl : eq = fun _ _ => 0#d.bits := funext fun i => funext fun j => heq i j
        rw [Vec.xor_apply, Vec.xor_apply, hgt, cross_zero, hmask hg']
        exact (BitVec.zero_xor).trans BitVec.zero_xor
      · exact congrFun (hmask (hz.afterB hg' n) i) j
  refine ⟨fun i j => by rw [hcomparison hg, upper_zero], fun k i j => ?_⟩
  have hrow : rowsMask d n k g i j = 0#d.bits :=
    hrows k (hafter hg _) (hcomparison hg) (fun _ _ => rfl) i j
  rw [hrow, upper_zero, BitVec.neg_zero]

/-- **Comparison results do not depend on the masks exactly if the masks keep bits.** -/
theorem comparisonsRight_iff (hz : ZeroSharing d Good) (hg : Good g)
    (hl : left.Shows fun q => e (.inl q)) (hr : right.Shows fun q => e (.inr q)) :
    ComparisonsRight d mode g left right e ↔ BitMasks d m g := by
  constructor
  · intro h
    refine ⟨(le_iff mode hz hg).mp fun x y u v hx hy => ?_, fun k =>
      (swap_iff mode hz hg hl hr k).mp fun keys M V hlen hnodup hM => ?_⟩
    · simp only [not_slt]
      exact h.le x y u v hx hy
    · have hzip : (keys.map Prod.fst).zip (keys.map Prod.snd) = keys := by
        rw [List.zip_map', List.map_id']
      have hswap := h.swap _ (keys.map Prod.snd) M V (fun hnil => ?_) (by simp) hnodup hM
      · rwa [hzip] at hswap
      · simp [List.map_eq_nil_iff.mp hnil] at hlen
  · intro h
    have hle := (le_iff mode hz hg).mpr h.comparison
    have hmul := (multiplex_iff mode hz hg).mpr fun i j => by
      rw [h.comparison, BitVec.neg_zero]
    refine ⟨fun x y u v hx hy => ?_, fun x y u v hx hy => ?_, fun x y a b u v s t hx hy ha hb => ?_,
      fun columns desc M V hcolumns hdesc hnodup hM => ?_⟩
    · -- `x >= y` runs like `y <= x`
      have hge := hle y x v u hy hx
      simp only [not_slt] at hge
      exact hge
    · simpa only [not_slt] using hle x y u v hx hy
    · simpa only [BitVec.slt_iff_toInt_lt] using hmul x y a b u v s t hx hy ha hb
    · have hfst : (columns.zip desc).map Prod.fst = columns := List.map_fst_zip hdesc.ge
      have hsnd : (columns.zip desc).map Prod.snd = desc := List.map_snd_zip hdesc.le
      obtain ⟨k, hk⟩ : ∃ k, (columns.zip desc).length = k + 1 := by
        refine Nat.exists_eq_succ_of_ne_zero fun h0 => hcolumns ?_
        rw [← hfst, List.length_eq_zero_iff.mp h0, List.map_nil]
      have hswap := (swap_iff mode hz hg hl hr k).mpr (h.rows k) (columns.zip desc) M V hk
      rw [hfst, hsnd] at hswap
      exact hswap hnodup hM

end All

/-- A table of two rows. -/
theorem comparisonsRight_two : ComparisonsRight .int8_t .rendezvous (zeroStreams .int8_t)
    (leftRows (1 * (2 * 1)) 1) (rightRows (1 * (2 * 1)) 1 1) (pairs 1 1 false) :=
  (comparisonsRight_iff zeroMasks_streams.toZeroSharing zeroStreams_zero
    (shows_leftRows one_pos false) (shows_rightRows one_pos one_pos false)).mpr
    (bitMasks_of_zeroMasks zeroMasks_streams zeroStreams_zero)

/-- Masks that cancel: all zero but those of the seventh product. -/
def strayMasks (i : Fin 3) : Streams .int8_t :=
  ⟨fun id t => if id = 5 ∧ t = 6 then ![2, 4, 6] i else 0, fun _ => 0⟩

/-- With these masks, `0 >= -1` opens to `0`. -/
theorem ge_wrong_of_strayMasks :
    (∀ t, (strayMasks 0).channel 5 t ^^^ (strayMasks 1).channel 5 t ^^^ (strayMasks 2).channel 5 t
      = 0) ∧
    ¬ Finishes .rendezvous (fun i => ((protocol .int8_t (Streams .int8_t) i).ge
        (components (fun _ => ![0]) i) (components (fun _ => ![-1]) i)).run (strayMasks i))
          fun out _ =>
      SharesB layout (fun i => (out i).1) (bits .int8_t fun j =>
        decide (((![-1] : Vec 1 .int8_t) j).toInt ≤ ((![0] : Vec 1 .int8_t) j).toInt)) := by
  refine ⟨fun t => ?_, fun h => ?_⟩
  · by_cases ht : t = 6
    · subst ht
      rfl
    · simp [strayMasks, ht]
  · have hmask : ∀ i j, comparisonMask .int8_t 1 strayMasks i j = ![2, 4, 6] i := by decide
    have hge : Ensures .rendezvous (fun i => (protocol .int8_t (Streams .int8_t) i).ge
        (components (fun _ => ![0]) i) (components (fun _ => ![-1]) i)) strayMasks fun z _ _ =>
        ∃ c : Fin 3 → Vec 1 .int8_t, z = components (fun i => logicalNot (c i)) ∧
          ∀ i, c i 0 = ![2, 4, 6] i := by
      refine (ensures_gt_components (fun _ => ![-1]) fun _ => ![0]).bind fun z _ _ hz =>
        Ensures.pure ?_
      obtain ⟨⟨c, rfl, hres⟩, -⟩ := hz
      refine ⟨c, funext fun i => notB1_components c i, fun i => ?_⟩
      rw [← hmask i 0]
      refine eq_of_upper ?_ (hres.upper i 0)
      rw [hres.low (by decide)]
      exact Bool.false_xor _
    obtain ⟨_, _, _, -, ⟨c, rfl, hc⟩, hright⟩ := hge.exists_of_finishes h
    have hbit := getLsbD_xor_of_shares (c := fun i => logicalNot (c i)) hright 0
    simp only [logicalNot, hc] at hbit
    exact absurd hbit (by decide)

end Tva.Replicated3pc
