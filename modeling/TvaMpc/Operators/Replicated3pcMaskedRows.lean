import TvaMpc.Operators.RowComparison
import TvaMpc.Protocols.Replicated3pcMasked

/-!
# Operators/Replicated3pcMaskedRows — what masks leave in the components of a row comparison

`compare_rows` combines the comparisons of the keys by further products.  What their masks leave in
the components of its result (`rowsMask`) does not depend on the rows that are compared
(`ensures_compareRows_components`), and the lowest bits can again be anything.
-/

namespace Tva.Replicated3pc

open Machinery Operators

variable {n : ℕ} {d : DataType} {G : Type} [RandomGenerator G d] {mode : SendMode}
variable {Good : (Fin 3 → G) → Prop} {g : Fin 3 → G}

/-- What `k` more keys leave, where the bits `gt` and `eq` so far are masked. -/
def rowMask (d : DataType) [RandomGenerator G d] (n : ℕ) :
    ℕ → (gt eq : Fin 3 → Vec n d) → (Fin 3 → G) → Fin 3 → Vec n d
  | 0, gt, _, _ => gt
  | k + 1, gt, eq, g =>
    let g' := (afterAnd d n)^[levels d + 4] g
    let newGt := fun i j => upper (comparisonMask d n g i j)
    rowMask d n k (fun i => gt i ^^^ (cross newGt eq i ^^^ andMask d n g' i))
      (andMask d n (afterAnd d n g')) (afterAnd d n (afterAnd d n g'))

/-- **What the masks leave in the components of a comparison of rows** with `k + 1` keys: the
equality bit of the first key is not masked. -/
def rowsMask (d : DataType) [RandomGenerator G d] (n k : ℕ) (g : Fin 3 → G) : Fin 3 → Vec n d :=
  rowMask d n k (comparisonMask d n g) (fun _ => 0) ((afterAnd d n)^[levels d + 4] g)

/-! ## One key -/

theorem ensures_compare_components (cx cy : Fin 3 → Vec n d) :
    Ensures mode (fun i => compare (protocol d G i) (components cx i) (components cy i)) g
      fun z g' _ => (∃ (q : Fin 3 → Fin n → Bool) (c : Fin 3 → Vec n d),
        z = (fun i => (components (fun i => bits d (q i)) i, components c i)) ∧
          Residue cx cy (comparisonMask d n g) c) ∧ g' = (afterAnd d n)^[levels d + 4] g := by
  refine (ensures_bitSame_components cx cy).bind fun z g₁ _ h₁ => ?_
  obtain ⟨⟨c, rfl⟩, rfl⟩ := h₁
  have hnot : ∀ i, (protocol d G i).notB (components c i) = components (fun i => ~~~c i) i :=
    fun i => notB_components c i
  simp only [hnot]
  refine (ensures_andB_components (fun i => setBits ((1 : Word d) <<< (d.digits - 1))
    (bitRightShift 1 (c i))) _).bind fun z g₂ _ h₂ => ?_
  obtain ⟨rfl, rfl⟩ := h₂
  refine (ensures_andB_components _ cx).bind fun z g₃ _ h₃ => ?_
  obtain ⟨rfl, rfl⟩ := h₃
  simp only [bitXor_components]
  refine (ensures_treatSigns_components cx cy _).bind fun z g₄ _ h₄ => Ensures.pure ?_
  obtain ⟨⟨c', rfl, hc'⟩, rfl⟩ := h₄
  simp only [← Function.iterate_succ_apply', ← Function.iterate_add_apply] at hc' ⊢
  have hnot1 : ∀ (b : Fin 3 → Fin n → Bool) i, (protocol d G i).notB1
      (components (fun i => bits d (b i)) i) = components (fun i => bits d fun j => !b i j) i :=
    fun b i => (notB1_components _ i).trans (by simp only [logicalNot_bits])
  simp only [hnot1]
  exact ⟨⟨_, c', rfl, hc'⟩, by rw [Nat.add_comm]⟩

/-- A descending key is compared the other way round. -/
theorem ensures_compareKey_components (cx cy : Fin 3 → Vec n d) (inverse : Bool) :
    Ensures mode (fun i =>
      compareKey (protocol d G i) (components cx i) (components cy i) inverse) g
      fun z g' _ => (∃ (q : Fin 3 → Fin n → Bool) (c : Fin 3 → Vec n d),
        z = (fun i => (components (fun i => bits d (q i)) i, components c i)) ∧
          (∀ i j, upper (c i j) = upper (comparisonMask d n g i j)) ∧
          (inverse = false → Residue cx cy (comparisonMask d n g) c)) ∧
        g' = (afterAnd d n)^[levels d + 4] g := by
  cases inverse with
  | false =>
    refine (ensures_compare_components cx cy).mono fun z g' _ h => ?_
    obtain ⟨⟨q, c, hz, hres⟩, hg'⟩ := h
    exact ⟨⟨q, c, hz, hres.upper, fun _ => hres⟩, hg'⟩
  | true =>
    refine (ensures_compare_components cy cx).mono fun z g' _ h => ?_
    obtain ⟨⟨q, c, hz, hres⟩, hg'⟩ := h
    exact ⟨⟨q, c, hz, hres.upper, nofun⟩, hg'⟩

/-! ## All keys -/

variable {κ : Type} {X Y : κ → Fin 3 → Vec n d} {desc : κ → Bool}

/-- The keys are chosen such that no lowest bit of a component of `new_gt` is set. -/
def Silent (X Y : κ → Fin 3 → Vec n d) (desc : κ → Bool) : List κ → (Fin 3 → G) → Prop
  | [], _ => True
  | k :: keys, g => desc k = false ∧ (∀ i j, (X k i j).msb = !(Y k i j).msb) ∧
      (∀ i j, (Y k (i - 1) j).msb = (comparisonMask d n g i j).getLsbD 0) ∧
      Silent X Y desc keys (afterAnd d n (afterAnd d n ((afterAnd d n)^[levels d + 4] g)))

theorem ensures_rowStep_components (k : κ) (cgt ceq : Fin 3 → Vec n d) :
    Ensures mode (fun i => rowStep (protocol d G i) (fun k => components (X k) i)
        (fun k => components (Y k) i) desc (components ceq i, components cgt i) k) g fun z g' _ =>
      ∃ (q : Fin 3 → Fin n → Bool) (c : Fin 3 → Vec n d),
        (∀ i j, upper (c i j) = upper (comparisonMask d n g i j)) ∧
        (desc k = false → Residue (X k) (Y k) (comparisonMask d n g) c) ∧
        (z = fun i => (components (fun i => cross ceq (fun i => bits d (q i)) i
            ^^^ andMask d n (afterAnd d n ((afterAnd d n)^[levels d + 4] g)) i) i,
          components (fun i => cgt i
            ^^^ (cross c ceq i ^^^ andMask d n ((afterAnd d n)^[levels d + 4] g) i)) i)) ∧
        g' = afterAnd d n (afterAnd d n ((afterAnd d n)^[levels d + 4] g)) := by
  refine (ensures_compareKey_components (X k) (Y k) (desc k)).bind fun z g₁ _ h₁ => ?_
  obtain ⟨⟨q, c, rfl, hup, hres⟩, rfl⟩ := h₁
  refine (ensures_andB_components c ceq).bind fun z g₂ _ h₂ => ?_
  obtain ⟨rfl, rfl⟩ := h₂
  refine (ensures_andB_components ceq _).bind fun z g₃ _ h₃ => Ensures.pure ?_
  obtain ⟨rfl, rfl⟩ := h₃
  refine ⟨q, c, hup, hres, funext fun i => ?_, rfl⟩
  exact congrArg (Prod.mk _) (xorB_components cgt _ i)

theorem ensures_rowSteps_components (keys : List κ) :
    ∀ {g : Fin 3 → G} {cgt ceq gt eq : Fin 3 → Vec n d},
      (∀ i j, upper (cgt i j) = upper (gt i j)) → (∀ i j, upper (ceq i j) = upper (eq i j)) →
      Ensures mode (fun i => keys.foldlM (rowStep (protocol d G i) (fun k => components (X k) i)
          (fun k => components (Y k) i) desc) (components ceq i, components cgt i)) g
        fun z _ _ => ∃ c, (fun i => (z i).2) = components c ∧
          (∀ i j, upper (c i j) = upper (rowMask d n keys.length gt eq g i j)) ∧
          (Silent X Y desc keys g → ∀ i j, ((c i j).getLsbD 0 ^^ (cgt i j).getLsbD 0)
            = ((rowMask d n keys.length gt eq g i j).getLsbD 0 ^^ (gt i j).getLsbD 0)) := by
  induction keys with
  | nil =>
    intro g cgt ceq gt eq hgt heq
    refine Ensures.pure ⟨cgt, rfl, hgt, fun _ i j => ?_⟩
    rw [List.length_nil, rowMask, Bool.xor_self, Bool.xor_self]
  | cons k keys ih =>
    intro g cgt ceq gt eq hgt heq
    simp only [List.foldlM_cons]
    refine (ensures_rowStep_components k cgt ceq).bind fun z g' _ h => ?_
    obtain ⟨q, c, hup, hres, rfl, rfl⟩ := h
    have hgt' : ∀ i j, upper ((cgt i ^^^ (cross c ceq i
        ^^^ andMask d n ((afterAnd d n)^[levels d + 4] g) i)) j)
        = upper ((gt i ^^^ (cross (fun i j => upper (comparisonMask d n g i j)) eq i
          ^^^ andMask d n ((afterAnd d n)^[levels d + 4] g) i)) j) := fun i j => by
      simp only [Vec.xor_apply, upper_xor, upper_cross, hgt, heq, hup, upper_upper]
    have heq' : ∀ i j, upper ((cross ceq (fun i => bits d (q i)) i
        ^^^ andMask d n (afterAnd d n ((afterAnd d n)^[levels d + 4] g)) i) j)
        = upper (andMask d n (afterAnd d n ((afterAnd d n)^[levels d + 4] g)) i j) := fun i j => by
      simp only [Vec.xor_apply, upper_xor, upper_cross, bits, upper_bit, cross_zero,
        BitVec.zero_xor]
    refine (ih hgt' heq').mono fun z g' _ h => ?_
    obtain ⟨c', hz, hup', hlow⟩ := h
    refine ⟨c', hz, hup', fun hsilent i j => ?_⟩
    obtain ⟨hdesc, hopposite, hsigns, hrest⟩ := hsilent
    -- the comparison contributes no lowest bit
    have hc : ∀ i, (c i j).getLsbD 0 = false := fun i => by
      rw [(hres hdesc).low hopposite, hsigns, Bool.xor_self]
    have hnewGt : (cross (fun i j => upper (comparisonMask d n g i j)) eq i j).getLsbD 0 =
      false := by
      refine getLsbD_cross (fun i => ?_) eq i
      rw [getLsbD_upper]
      rfl
    have h := hlow hrest i j
    simp only [Vec.xor_apply, BitVec.getLsbD_xor, getLsbD_cross hc, hnewGt, Bool.false_xor] at h
    rw [← Bool.xor_assoc, ← Bool.xor_assoc] at h
    exact Bool.xor_left_inj.mp h

theorem ensures_compareRows_components (k : κ) (keys : List κ) :
    Ensures mode (fun i =>
        compareRows (protocol d G i) ((k :: keys).map fun k => components (X k) i)
        ((k :: keys).map fun k => components (Y k) i) ((k :: keys).map desc)) g fun z _ _ =>
      ∃ c, z = components c ∧ (∀ i j, upper (c i j) = upper (rowsMask d n keys.length g i j)) ∧
        (desc k = false → (∀ i j, (X k i j).msb = !(Y k i j).msb) →
          Silent X Y desc keys ((afterAnd d n)^[levels d + 4] g) →
          ∀ i j, (c i j).getLsbD 0
            = ((Y k (i - 1) j).msb ^^ (rowsMask d n keys.length g i j).getLsbD 0)) := by
  simp only [compareRows_cons]
  refine (ensures_compareKey_components (X k) (Y k) (desc k)).bind fun z g₁ _ h₁ => ?_
  obtain ⟨⟨q, c, rfl, hup, hres⟩, rfl⟩ := h₁
  have hq : ∀ (i : Fin 3) j, upper (bits d (q i) j) = upper ((fun _ => 0 : Fin 3 → Vec n d) i j) :=
    fun i j => (upper_bit _).trans upper_zero.symm
  refine (ensures_rowSteps_components keys hup hq).bind fun z g' _ h => Ensures.pure ?_
  obtain ⟨c', hz, hup', hlow⟩ := h
  refine ⟨c', hz, hup', fun hdesc hopposite hsilent i j => ?_⟩
  have h := hlow hsilent i j
  rw [(hres hdesc).low hopposite, ← Bool.xor_assoc] at h
  have h' := Bool.xor_left_inj.mp h
  rw [rowsMask, ← h', Bool.xor_comm, Bool.xor_assoc, Bool.xor_self, Bool.xor_false]

/-! ## Components at will -/

/-- The generators before the key number `t`, from those before the second key. -/
def keyState (d : DataType) [RandomGenerator G d] (n : ℕ) (g : Fin 3 → G) : ℕ → Fin 3 → G
  | 0 => g
  | t + 1 => keyState d n (afterAnd d n (afterAnd d n ((afterAnd d n)^[levels d + 4] g))) t

/-- The second operand of a key by which the comparison has no lowest bits. -/
def silence (d : DataType) [RandomGenerator G d] (n : ℕ) (g : Fin 3 → G) (i : Fin 3) : Vec n d :=
  signsFor (comparisonMask d n g) (fun _ _ => 0) i

theorem silent_silence {Y : ℕ → Fin 3 → Vec n d} (k : ℕ) : ∀ (t : ℕ) (g : Fin 3 → G),
    (∀ s < k, Y (t + s) = silence d n (keyState d n g s)) →
    Silent (fun key i => ~~~Y key.1 i) (fun key : ℕ × Bool => Y key.1) Prod.snd
      ((List.range' t k).map fun t => (t, false)) g := by
  induction k with
  | zero => exact fun _ _ _ => trivial
  | succ k ih =>
    intro t g hY
    have h0 : Y t = silence d n g := hY 0 k.succ_pos
    refine ⟨rfl, fun i j => ?_, fun i j => ?_, ih _ _ fun s hs => ?_⟩
    · simp only [h0]
      exact msb_not_signsFor _ _ i j
    · simp only [h0, silence, signsFor, msb_signWord, sub_add_cancel]
      exact (congrArg (· ^^ _) BitVec.getLsbD_zero).trans (Bool.false_xor _)
    · rw [Nat.add_assoc, Nat.add_comm 1 s]
      exact hY (s + 1) (Nat.succ_lt_succ hs)

/-- The second operands of all keys by which the components become `z`. -/
def keysFor (d : DataType) [RandomGenerator G d] (n k : ℕ) (g : Fin 3 → G) (z : Fin 3 → Vec n d) :
    ℕ → Fin 3 → Vec n d
  | 0 => signsFor (rowsMask d n k g) z
  | t + 1 => silence d n (keyState d n ((afterAnd d n)^[levels d + 4] g) t)

/-- What three components share. -/
def value (c : Fin 3 → Vec n d) : Vec n d := c 0 ^^^ c 1 ^^^ c 2

variable (mode desc) in
/-- The components and the value of `compare_rows`. -/
theorem ensures_compareRows_masked (hz : ZeroSharing d Good) (hg : Good g) (k : κ) (keys : List κ) :
    Ensures mode (fun i =>
        compareRows (protocol d G i) ((k :: keys).map fun k => components (X k) i)
        ((k :: keys).map fun k => components (Y k) i) ((k :: keys).map desc)) g fun z g' _ =>
      ∃ c, z = components c ∧ (∀ i j, upper (c i j) = upper (rowsMask d n keys.length g i j)) ∧
        (desc k = false → (∀ i j, (X k i j).msb = !(Y k i j).msb) →
          Silent X Y desc keys ((afterAnd d n)^[levels d + 4] g) →
          ∀ i j, (c i j).getLsbD 0
            = ((Y k (i - 1) j).msb ^^ (rowsMask d n keys.length g i j).getLsbD 0)) ∧
        SharesB layout (components c) (bits d fun j => decide
          (row desc (fun k => value (Y k)) (k :: keys) j
            < row desc (fun k => value (X k)) (k :: keys) j)) ∧ Good g' := by
  have hvalue := ensures_compareRows (X := fun k => components (X k))
    (Y := fun k => components (Y k)) desc (compares mode hz) hg (List.cons_ne_nil k keys)
    (fun k _ => sharesB_components (X k)) (fun k _ => sharesB_components (Y k)) (Nat.zero_le _)
  refine (hvalue.and (ensures_compareRows_components k keys)
    fun i => ownedBy_compareRows (ownedBy_protocol i) _ _ _).mono fun z g' _ h => ?_
  obtain ⟨⟨hshares, hg'⟩, ⟨c, rfl, hup, hlow⟩⟩ := h
  exact ⟨c, rfl, hup, hlow, hshares, hg'⟩

/-- Ascending keys in the columns up to `k`. -/
def firstKeys (k : ℕ) : List (ℕ × Bool) := (0, false) :: (List.range' 1 k).map fun t => (t, false)

theorem firstKeys_fst (k : ℕ) : (firstKeys k).map Prod.fst = List.range (k + 1) := by
  rw [firstKeys, List.map_cons, List.map_map, List.range_eq_range', List.range'_succ]
  exact congrArg _ (List.map_id _)

theorem firstKeys_length (k : ℕ) : (firstKeys k).length = k + 1 := by
  rw [firstKeys, List.length_cons, List.length_map, List.length_range']

/-- **Every sharing that the masks leave open is attained**, at one place of the vector, by operands
whose components are complements. -/
theorem exists_compareRows_components (mode : SendMode) (hz : ZeroSharing d Good) (hg : Good g)
    (k : ℕ) (j : Fin n) {w : Fin 3 → Word d}
      (hw : ∀ i, upper (w i) = upper (rowsMask d n k g i j)) :
    ∃ Y : ℕ → Fin 3 → Vec n d,
      Ensures mode (fun i => compareRows (protocol d G i)
        ((firstKeys k).map fun key => components (fun i => ~~~Y key.1 i) i)
        ((firstKeys k).map fun key => components (Y key.1) i) ((firstKeys k).map Prod.snd)) g
        fun z g' _ => ∃ c, z = components c ∧ (∀ i, c i j = w i) ∧
          SharesB layout (components c) (bits d fun j => decide
            (row Prod.snd (fun key : ℕ × Bool => value (Y key.1)) (firstKeys k) j
              < row Prod.snd (fun key => value fun i => ~~~Y key.1 i) (firstKeys k) j)) ∧
                Good g' := by
  obtain ⟨z, hzj, hzup⟩ := exists_masked _ j hw
  obtain ⟨Y, hfirst, hrest⟩ : ∃ Y : ℕ → Fin 3 → Vec n d, Y 0 = signsFor (rowsMask d n k g) z ∧
      ∀ t, Y (1 + t) = silence d n (keyState d n ((afterAnd d n)^[levels d + 4] g) t) :=
    ⟨keysFor d n k g z, rfl, fun t => by rw [Nat.add_comm]; rfl⟩
  have hrows := ensures_compareRows_masked mode Prod.snd (X := fun key i => ~~~Y key.1 i)
    (Y := fun key : ℕ × Bool => Y key.1) hz hg (0, false)
    ((List.range' 1 k).map fun t => (t, false))
  refine ⟨Y, hrows.mono fun z' g' _ h => ?_⟩
  obtain ⟨c, rfl, hup, hlow, hshares, hg'⟩ := h
  have hlow' := hlow rfl (fun i j => by rw [hfirst]; exact msb_not_signsFor _ z i j)
    (silent_silence k 1 _ fun t _ => hrest t)
  rw [List.length_map, List.length_range'] at hup hlow'
  obtain rfl : c = z := by
    funext i j
    refine eq_of_upper ?_ ((hup i j).trans (hzup i j).symm)
    rw [hlow', hfirst, signsFor, msb_signWord, sub_add_cancel, Bool.xor_assoc, Bool.xor_self,
      Bool.xor_false]
  exact ⟨c, rfl, hzj, hshares, hg'⟩

end Tva.Replicated3pc
