import TvaMpc.Operators.Sorting
import Mathlib.Data.List.Lex

/-!
# Operators/RowComparison — rows are compared lexicographically

`signed` is the value that a key column contributes to the order: its element, negated for a
descending column.  `compare_rows` sets the bit of a row exactly if the left row is greater in the
lexicographic order of these values (`ensures_compareRows`).
-/

namespace Tva.Operators

open Machinery

variable {N ρ n m least : ℕ} {d : DataType} {G : Type}

/-- The value of an element in the order of a column. -/
def signed (desc : Bool) (u : Word d) : ℤ := if desc then -u.toInt else u.toInt

theorem signed_inj {desc : Bool} {u v : Word d} : signed desc u = signed desc v ↔ u = v := by
  cases desc with
  | false => exact BitVec.toInt_inj
  | true => exact neg_inj.trans BitVec.toInt_inj

theorem signed_lt_false {u v : Word d} : signed false u < signed false v ↔ u.slt v = true :=
  BitVec.slt_iff_toInt_lt.symm

theorem signed_lt_true {u v : Word d} : signed true u < signed true v ↔ v.slt u = true :=
  neg_lt_neg_iff.trans BitVec.slt_iff_toInt_lt.symm

/-- The last elements decide between rows that start equally. -/
theorem append_lt_append_iff {l l' : List ℤ} (h : l.length = l'.length) (a b : ℤ) :
    l ++ [a] < l' ++ [b] ↔ l < l' ∨ l = l' ∧ a < b := by
  induction l generalizing l' with
  | nil =>
    obtain rfl := List.length_eq_zero_iff.mp h.symm
    simp [List.cons_lt_cons_iff]
  | cons x l ih =>
    obtain ⟨y, l', rfl⟩ :=
      List.exists_cons_of_length_eq_add_one (h.symm.trans (List.length_cons ..))
    rw [List.cons_append, List.cons_append, List.cons_lt_cons_iff, List.cons_lt_cons_iff,
      ih (by simpa using h), List.cons.injEq]
    tauto

/-! ## The loop over the keys -/

section Loop

variable {κ : Type} (P : Protocol N ρ d G) (X Y : κ → EVector ρ n d) (desc : κ → Bool)

/-- What the loop does with one more key: `gt ^ (new_gt & eq)` and `eq & new_eq`. -/
def rowStep (eqGt : EVector ρ n d × EVector ρ n d) (k : κ) :
    PartyM N d G (EVector ρ n d × EVector ρ n d) := do
  let new ← compareKey P (X k) (Y k) (desc k)
  let z ← P.andB new.2 eqGt.1
  let gt := P.xorB eqGt.2 z
  let eq ← P.andB eqGt.1 new.1
  return (eq, gt)

theorem compareRows_cons (k : κ) (keys : List κ) :
    compareRows P ((k :: keys).map X) ((k :: keys).map Y) ((k :: keys).map desc)
      = compareKey P (X k) (Y k) (desc k) >>= fun first =>
        keys.foldlM (rowStep P X Y desc) first >>= fun res => return res.2 := by
  rw [compareRows, List.zip_map', List.zip_map', List.map_cons]
  simp only [List.foldlM_map]
  rfl

end Loop

variable [NeZero ρ] {layout : Fin N → Fin ρ → Fin N} {P : Fin N → Protocol N ρ d G}
variable {dataParty : Fin N → Prop} {Good : (Fin N → G) → Prop} {mode : SendMode}
variable {g : Fin N → G} {x y : Fin N → EVector ρ n d} {u v : Vec n d}
variable {K : (n : ℕ) → (Fin N → EVector ρ n d) → (Fin n → Bool) → Prop}

/-- **The fused comparison**, where the shifted prefix becomes `e` of it when the code sets its
highest digit. -/
theorem ensures_compare_value (hP : Protocol.KeepsKind P layout least dataParty Good mode K)
    (hg : Good g) (e : Word d → Word d)
    (hset : ∀ {z : Fin N → EVector ρ n d} {s : Vec n d}, SharesB layout z s →
      SharesB layout (fun i k => setBits ((1 : Word d) <<< (d.digits - 1)) (z i k)) fun j =>
        e (s j))
    (hx : SharesB layout x u) (hy : SharesB layout y v) (hn : least ≤ n) :
    Ensures mode (fun i => compare (P i) (x i) (y i)) g fun z g' _ =>
      (∃ s : Vec n d, (∀ j, SameBits (u j) (v j) (s j)) ∧
        SharesBit layout (fun i => (z i).1)
          (fun j => !parity d.digits (e (s j >>> 1) &&& ~~~s j).getLsbD) ∧
        K n (fun i => (z i).2) (fun j => (((u j).msb ^^ (v j).msb) && (v j).msb)
          ^^ (!((u j).msb ^^ (v j).msb)
            && parity d.digits (e (s j >>> 1) &&& ~~~s j &&& u j).getLsbD))) ∧ Good g' := by
  refine (hP.ensures_bitSame hg hx hy hn).bind fun same g₁ _ hsame => ?_
  obtain ⟨⟨s, hs, hagree⟩, hg₁⟩ := hsame
  have hshifted := hset (hs.map _ (bitRightShift_xor 1))
  refine (hP.andB hg₁ hshifted (hP.notB hs) hn).bind fun edge g₂ _ hedge => ?_
  refine (hP.andB hedge.2 hedge.1 hx hn).bind fun edge' g₃ _ hedge' => ?_
  have heq := hP.notB1 (hedge.1.mapBit bitXor_xor bitXor_eq)
  exact (hP.ensures_treatSigns_value hedge'.2 hx hy (hedge'.1.mapBit bitXor_xor bitXor_eq) hn).bind
    fun z g₄ _ hz => Ensures.pure ⟨⟨s, hagree, heq, hz.1⟩, hz.2⟩

theorem ensures_compare (hP : Protocol.Compares P layout least dataParty Good mode K) (hg : Good g)
    (hx : SharesB layout x u) (hy : SharesB layout y v) (hn : least ≤ n) :
    Ensures mode (fun i => compare (P i) (x i) (y i)) g fun z g' _ =>
      SharesBit layout (fun i => (z i).1) (fun j => decide (u j = v j)) ∧
        K n (fun i => (z i).2) (fun j => (v j).slt (u j)) ∧ Good g' := by
  refine (ensures_compare_value hP.toKeepsKind hg (· ||| (1 : Word d) <<< (d.digits - 1))
    (hP.setBits _) hx hy hn).mono fun z g' _ hz => ?_
  obtain ⟨⟨s, hagree, heq, hgt⟩, hg'⟩ := hz
  have heqBit : ∀ j, parity d.digits (edge (s j)).getLsbD = !decide (u j = v j) := fun j =>
    bit_inj ((bitXorWord_eq _).symm.trans (hagree j).eq)
  have hgtBit : ∀ j, (u j).msb = (v j).msb →
      parity d.digits (edge (s j) &&& u j).getLsbD = (v j).slt (u j) := fun j hsign =>
    bit_inj ((bitXorWord_eq _).symm.trans ((hagree j).edge_gt hsign))
  refine ⟨?_, ?_, hg'⟩
  · change SharesBit layout _ fun j => !parity d.digits (edge (s j)).getLsbD at heq
    simpa only [heqBit, Bool.not_not] using heq
  · have hvalue : ∀ j, _ = (v j).slt (u j) := fun j => slt_of_signs (hgtBit j)
    exact funext hvalue ▸ hgt

theorem ensures_compareKey (hP : Protocol.Compares P layout least dataParty Good mode K)
    (hg : Good g) (hx : SharesB layout x u) (hy : SharesB layout y v) (inverse : Bool)
    (hn : least ≤ n) :
    Ensures mode (fun i => compareKey (P i) (x i) (y i) inverse) g fun z g' _ =>
      SharesBit layout (fun i => (z i).1)
          (fun j => decide (signed inverse (u j) = signed inverse (v j))) ∧
        K n (fun i => (z i).2) (fun j => decide (signed inverse (v j) < signed inverse (u j))) ∧
        Good g' := by
  cases inverse with
  | false =>
    simp only [signed_inj, signed_lt_false, Bool.decide_eq_true]
    exact (ensures_compare hP hg hx hy hn).mono fun _ _ _ => id
  | true =>
    simp only [signed_inj, signed_lt_true, Bool.decide_eq_true, eq_comm (a := u _)]
    exact (ensures_compare hP hg hy hx hn).mono fun _ _ _ => id

variable {κ : Type} {X Y : κ → Fin N → EVector ρ n d} {U V : κ → Vec n d} {desc : κ → Bool}

/-- The key row `j`. -/
def row (desc : κ → Bool) (U : κ → Vec n d) (keys : List κ) (j : Fin n) : List ℤ :=
  keys.map fun k => signed (desc k) (U k j)

theorem row_append (keys : List κ) (k : κ) (j : Fin n) :
    row desc U (keys ++ [k]) j = row desc U keys j ++ [signed (desc k) (U k j)] := by
  rw [row, List.map_append]
  rfl

/-- One more key. -/
theorem row_step (keys : List κ) (k : κ) (j : Fin n) :
    decide (row desc U (keys ++ [k]) j = row desc V (keys ++ [k]) j)
        = (decide (row desc U keys j = row desc V keys j)
          && decide (signed (desc k) (U k j) = signed (desc k) (V k j))) ∧
      decide (row desc V (keys ++ [k]) j < row desc U (keys ++ [k]) j)
        = (decide (row desc V keys j < row desc U keys j)
          ^^ (decide (signed (desc k) (V k j) < signed (desc k) (U k j))
            && decide (row desc U keys j = row desc V keys j))) := by
  have hlen : (row desc U keys j).length = (row desc V keys j).length := by
    rw [row, row, List.length_map, List.length_map]
  rw [row_append, row_append, ← Bool.decide_and]
  refine ⟨decide_eq_decide.mpr ?_, ?_⟩
  · refine ⟨fun h => ?_, fun h => by rw [h.1, h.2]⟩
    obtain ⟨hinit, hlast⟩ := List.append_inj h hlen
    exact ⟨hinit, List.singleton_inj.mp hlast⟩
  · rw [Bool.eq_iff_iff, decide_eq_true_iff, append_lt_append_iff hlen.symm, ← Bool.decide_and]
    by_cases heq : row desc U keys j = row desc V keys j
    · simp [heq]
    · simp [heq, Ne.symm heq]

/-- **The loop over the keys**, whose comparisons are right where `Agree` holds. -/
theorem ensures_compareRows_where (desc : κ → Bool) (Agree : κ → Fin n → Prop)
    (hP : Protocol.KeepsKind P layout least dataParty Good mode K) (hg : Good g) {keys : List κ}
    (hkeys : keys ≠ [])
    (hcompare : ∀ k ∈ keys, ∀ {g}, Good g →
      Ensures mode (fun i => compareKey (P i) (X k i) (Y k i) (desc k)) g fun z g' _ =>
        (∃ a b, SharesBit layout (fun i => (z i).1) a ∧ K n (fun i => (z i).2) b ∧
          ∀ j, Agree k j → a j = decide (signed (desc k) (U k j) = signed (desc k) (V k j)) ∧
            b j = decide (signed (desc k) (V k j) < signed (desc k) (U k j))) ∧ Good g')
    (hn : least ≤ n) :
    Ensures mode (fun i => compareRows (P i) (keys.map fun k => X k i) (keys.map fun k => Y k i)
        (keys.map desc)) g fun z g' _ =>
      (∃ s, K n z s ∧ ∀ j, (∀ k ∈ keys, Agree k j) →
        s j = decide (row desc V keys j < row desc U keys j)) ∧ Good g' := by
  obtain ⟨k₀, keys, rfl⟩ := List.exists_cons_of_ne_nil hkeys
  simp only [compareRows_cons]
  refine (hcompare k₀ List.mem_cons_self hg).bind fun first g₁ _ h₁ => ?_
  obtain ⟨⟨a₀, b₀, ha₀, hb₀, hagree₀⟩, hg₁⟩ := h₁
  refine (Ensures.foldlM (fun pre z g => (∃ a b, K n (fun i => (z i).1) a ∧
      K n (fun i => (z i).2) b ∧ ∀ j, (∀ k ∈ k₀ :: pre, Agree k j) →
        a j = decide (row desc U (k₀ :: pre) j = row desc V (k₀ :: pre) j) ∧
        b j = decide (row desc V (k₀ :: pre) j < row desc U (k₀ :: pre) j)) ∧ Good g)
    keys ?_ ?_).bind fun z g' _ hz => Ensures.pure ?_
  · refine ⟨⟨a₀, b₀, hP.ofBit ha₀, hb₀, fun j hj => ?_⟩, hg₁⟩
    simpa [row, List.cons_lt_cons_iff] using hagree₀ j (hj k₀ List.mem_cons_self)
  · rintro pre k hpre z g' ⟨⟨a, b, ha, hb, hagree⟩, hg'⟩
    have hk : k ∈ k₀ :: keys := .tail _ (hpre.subset (by simp))
    refine (hcompare k hk hg').bind fun new g₂ _ hnew => ?_
    obtain ⟨⟨a', b', ha', hb', hagree'⟩, hg₂⟩ := hnew
    refine (hP.andK hg₂ hb' ha hn).bind fun z' g₃ _ hz' => ?_
    refine (hP.andK hz'.2 ha (hP.ofBit ha') hn).bind fun eq' g₄ _ heq' => Ensures.pure ?_
    simp only [← List.cons_append, row_step, hP.xorB]
    refine ⟨⟨_, _, heq'.1, hP.xor hb hz'.1, fun j hj => ?_⟩, heq'.2⟩
    obtain ⟨hpre, hk⟩ := List.forall_mem_append.mp hj
    obtain ⟨heq, hgt⟩ := hagree j hpre
    obtain ⟨heqk, hgtk⟩ := hagree' j (hk _ List.mem_cons_self)
    rw [heq, hgt, heqk, hgtk]
    exact ⟨rfl, rfl⟩
  · obtain ⟨⟨a, b, -, hb, hagree⟩, hg'⟩ := hz
    exact ⟨⟨b, hb, fun j hj => (hagree j hj).2⟩, hg'⟩

/-- **Rows are compared lexicographically.** -/
theorem ensures_compareRows (desc : κ → Bool)
    (hP : Protocol.Compares P layout least dataParty Good mode K) (hg : Good g)
    {keys : List κ} (hkeys : keys ≠ []) (hX : ∀ k ∈ keys, SharesB layout (X k) (U k))
    (hY : ∀ k ∈ keys, SharesB layout (Y k) (V k)) (hn : least ≤ n) :
    Ensures mode (fun i => compareRows (P i) (keys.map fun k => X k i) (keys.map fun k => Y k i)
        (keys.map desc)) g fun z g' _ =>
      K n z (fun j => decide (row desc V keys j < row desc U keys j)) ∧ Good g' := by
  have hrows := ensures_compareRows_where (U := U) (V := V) desc (fun _ _ => True) hP.toKeepsKind
    hg hkeys (fun k hk _ hg =>
      (ensures_compareKey hP hg (hX k hk) (hY k hk) (desc k) hn).mono fun z g' _ h =>
        ⟨⟨_, _, h.1, h.2.1, fun _ _ => ⟨rfl, rfl⟩⟩, h.2.2⟩) hn
  refine hrows.mono fun z g' _ h => ?_
  obtain ⟨⟨s, hs, hright⟩, hg'⟩ := h
  have hvalue : s = fun j => decide (row desc V keys j < row desc U keys j) :=
    funext fun j => hright j fun _ _ => trivial
  exact ⟨hvalue ▸ hs, hg'⟩

/-! ## Words that agree in their highest bits -/

/-- **The fused comparison gives bits, and the right ones where the words agree in `top`.** -/
structure ComparesWithin (top : Word d → Word d) (P : Fin N → Protocol N ρ d G)
    (layout : Fin N → Fin ρ → Fin N) (least : ℕ) (dataParty : Fin N → Prop)
    (Good : (Fin N → G) → Prop) (mode : SendMode) : Prop
    extends Protocol.KeepsKind P layout least dataParty Good mode fun _ => SharesBit layout where
  compare {n : ℕ} {x y : Fin N → EVector ρ n d} {u v : Vec n d} {g : Fin N → G} (hg : Good g)
    (hx : SharesB layout x u) (hy : SharesB layout y v) (hn : least ≤ n) :
    Ensures mode (fun i => Operators.compare (P i) (x i) (y i)) g fun z g' _ =>
      (∃ a b, SharesBit layout (fun i => (z i).1) a ∧ SharesBit layout (fun i => (z i).2) b ∧
        ∀ j, top (u j) = top (v j) → a j = decide (u j = v j) ∧ b j = (v j).slt (u j)) ∧ Good g'

/-- A protocol that sets bits compares all words. -/
theorem comparesWithin (hP : Protocol.CorrectBits P layout least dataParty Good mode) :
    ComparesWithin (fun _ => 0) P layout least dataParty Good mode where
  toKeepsKind := hP.keepsBits
  compare hg hx hy hn := (ensures_compare hP.compares hg hx hy hn).mono fun _ _ _ h =>
    ⟨⟨_, _, h.1, h.2.1, fun _ _ => ⟨rfl, rfl⟩⟩, h.2.2⟩

variable {top : Word d → Word d}

theorem ComparesWithin.compareKey (hP : ComparesWithin top P layout least dataParty Good mode)
    (hg : Good g) (hx : SharesB layout x u) (hy : SharesB layout y v) (inverse : Bool)
    (hn : least ≤ n) :
    Ensures mode (fun i => Operators.compareKey (P i) (x i) (y i) inverse) g fun z g' _ =>
      (∃ a b, SharesBit layout (fun i => (z i).1) a ∧ SharesBit layout (fun i => (z i).2) b ∧
        ∀ j, top (u j) = top (v j) →
          a j = decide (signed inverse (u j) = signed inverse (v j)) ∧
          b j = decide (signed inverse (v j) < signed inverse (u j))) ∧ Good g' := by
  cases inverse with
  | false =>
    simp only [signed_inj, signed_lt_false, Bool.decide_eq_true]
    exact hP.compare hg hx hy hn
  | true =>
    simp only [signed_inj, signed_lt_true, Bool.decide_eq_true, eq_comm (a := u _),
      eq_comm (a := top (u _))]
    exact hP.compare hg hy hx hn

/-- **Rows are compared by bits**, lexicographically where their keys agree in `top`. -/
theorem ComparesWithin.compareRows (hP : ComparesWithin top P layout least dataParty Good mode)
    (desc : κ → Bool) (hg : Good g) {keys : List κ} (hkeys : keys ≠ [])
    (hX : ∀ k ∈ keys, SharesB layout (X k) (U k)) (hY : ∀ k ∈ keys, SharesB layout (Y k) (V k))
    (hn : least ≤ n) :
    Ensures mode (fun i => Operators.compareRows (P i) (keys.map fun k => X k i)
        (keys.map fun k => Y k i) (keys.map desc)) g fun z g' _ =>
      (∃ s, SharesBit layout z s ∧ ∀ j, (∀ k ∈ keys, top (U k j) = top (V k j)) →
        s j = decide (row desc V keys j < row desc U keys j)) ∧ Good g' :=
  ensures_compareRows_where _ _ hP.toKeepsKind hg hkeys
    (fun k hk _ hg => hP.compareKey hg (hX k hk) (hY k hk) (desc k) hn) hn

end Tva.Operators
