import TvaMpc.Protocols.Hides
import TvaMpc.Protocols.Replicated3pcBits
import TvaMpc.Protocols.Replicated3pcPrivacy
import Mathlib.Logic.Equiv.Fin.Basic

/-!
# Protocols/Replicated3pcHiding — what the three parties do not tell each other

With ideal streams, one for each pair of parties and one of each party's own, the products hide the
components that a party does not have, and sharing hides the data of others.  `b2a_bit` does not:
its random bit is fixed to zero, so it opens its argument to every party (`b2aBit_reveals`).
-/

namespace Tva.Replicated3pc

open Machinery

variable {n : ℕ} {d : DataType} {mode : SendMode} {p q : Fin 3}

/-- The streams of the pairs of parties, and the parties' own. -/
abbrev Tape := Fin 3 ⊕ Fin 3

/-- What the parties draw from the tapes. -/
def idealKeys (K : Tape → ℕ → Word d) : Fin 3 → KeyPair d :=
  keyPairs (fun i => K (.inr i)) fun i => K (.inl i)

/-- The tapes that party `p` does not read: the stream of the two others, and their own ones. -/
def Unread (p : Fin 3) : Tape → Prop
  | .inl i => i = p + 1
  | .inr i => i ≠ p

/-- In a turn around the ring a party sees what its predecessor sends. -/
theorem sameView_exchangeLog {v v' : Fin 3 → Vec n d} (h : v (p - 1) = v' (p - 1)) :
    SameView Channel.dest p (exchangeLog v 1) (exchangeLog v' 1) := by
  intro c hc
  subst hc
  simp only [exchangeLog, roundLog]
  split
  · rename_i hch
    have hsrc : c.source = c.dest - 1 := by
      rw [← hch, partyIndex_one]
      exact (add_sub_cancel_right c.source 1).symm
    rw [hsrc, h]
  · rfl

/-! ## Products -/

section Gate

/-- A gate reads the streams of the pairs. -/
abbrev Paired (j : Tape) : Prop := j.isLeft = true

variable {id : ℕ} {cross : EVector 2 n d → EVector 2 n d → Vec n d → Vec n d}
variable {x x' y y' : Fin 3 → EVector 2 n d}

/-- The component of party `i`, from what is read. -/
def crossShare (id : ℕ) (cross : EVector 2 n d → EVector 2 n d → Vec n d → Vec n d)
    (x y : Fin 3 → EVector 2 n d) (κ : {j // Paired j} → Fin n → Word d) (i : Fin 3) : Vec n d :=
  cross (x i) (y i) (combine id (κ ⟨.inl i, rfl⟩) (κ ⟨.inl (i - 1), rfl⟩))

theorem yields_gate_ideal (x y : Fin 3 → EVector 2 n d) (K : Tape → ℕ → Word d) :
    Yields mode (fun i => gate id cross i (x i) (y i)) (idealKeys K)
      (fun i => ![crossShare id cross x y (headsOn Paired n K) i,
        crossShare id cross x y (headsOn Paired n K) (i - 1)])
      (idealKeys (tailsOn Paired n K))
      (exchangeLog (crossShare id cross x y (headsOn Paired n K)) 1) := by
  have hshare : gateShare id cross x y (idealKeys K)
      = crossShare id cross x y (headsOn Paired n K) := by
    ext i : 1
    rw [gateShare, idealKeys, mask_keyPairs]
    rfl
  have hafter : (fun i => afterNext d id n (idealKeys K i)) = idealKeys (tailsOn Paired n K) := by
    ext i : 1
    rw [idealKeys, afterNext_keyPairs]
    rfl
  rw [← hshare, ← hafter]
  exact yields_gate id cross x y

/-- **A gate hides its inputs**: moving the stream that `p` does not read makes up for the
components that it does not have. -/
theorem hides_gate (hcross : Hidden id cross) (hx : x p = x' p) (hy : y p = y' p) :
    HidesAt mode (idealKeys (d := d)) p (Unread p) (fun i => gate id cross i (x i) (y i))
      fun i => gate id cross i (x' i) (y' i) := by
  obtain ⟨τ, hτ⟩ := hcross (x (p - 1)) (y (p - 1)) (x' (p - 1)) (y' (p - 1))
  let far : {j // Paired j} := ⟨.inl (p + 1), rfl⟩
  have hne : ∀ p : Fin 3, p ≠ p + 1 ∧ p - 1 ≠ p + 1 ∧ p - 1 - 1 = p + 1 := by decide
  have hkeep : ∀ (κ : {j // Paired j} → Fin n → Word d) (i : Fin 3), i ≠ p + 1 →
      onTape far τ κ ⟨.inl i, rfl⟩ = κ ⟨.inl i, rfl⟩ := fun κ i hi =>
    moves_onTape τ κ _ fun h => hi (Sum.inl.inj (congrArg Subtype.val h))
  have hfar : (⟨.inl (p - 1 - 1), rfl⟩ : {j // Paired j}) = far :=
    Subtype.ext (congrArg Sum.inl (hne p).2.2)
  have hself : ∀ κ, crossShare id cross x y κ p = crossShare id cross x' y' (onTape far τ κ) p :=
    fun κ => by simp only [crossShare, hx, hy, hkeep κ p (hne p).1, hkeep κ (p - 1) (hne p).2.1]
  have hprev : ∀ κ, crossShare id cross x y κ (p - 1)
      = crossShare id cross x' y' (onTape far τ κ) (p - 1) := fun κ => by
    simp only [crossShare, hkeep κ (p - 1) (hne p).2.1, hfar, onTape_self]
    exact hτ _ _
  refine Hides.of_draw (onTape far τ) (fun κ j hj => moves_onTape τ κ j fun h => ?_)
    (fun κ i => ![crossShare id cross x y κ i, crossShare id cross x y κ (i - 1)])
    (fun κ i => ![crossShare id cross x' y' κ i, crossShare id cross x' y' κ (i - 1)])
    (fun κ => exchangeLog (crossShare id cross x y κ) 1)
    (fun κ => exchangeLog (crossShare id cross x' y' κ) 1)
    (yields_gate_ideal x y) (yields_gate_ideal x' y') (fun κ => ?_)
    fun κ => sameView_exchangeLog (hprev κ)
  · exact hj (h ▸ rfl)
  · exact congrArg₂ (fun a b => ![a, b]) (hself κ) (hprev κ)

end Gate

/-! ## Sharing -/

section Sharing

/-- A data party reads its own tape. -/
abbrev Dealer (q : Fin 3) (j : Tape) : Prop := j = .inr q

/-- The two vectors that it draws. -/
def drawn (q : Fin 3) (κ : {j // Dealer q j} → Fin (n + n) → Word d) : Vec n d × Vec n d :=
  (Fin.appendEquiv n n).symm (κ ⟨.inr q, rfl⟩)

/-- The shares that it deals. -/
def idealShares (rest : Vec n d → Vec n d → Vec n d → Vec n d) (data : Vec n d)
    (r : Vec n d × Vec n d) : Fin 3 → EVector 2 n d :=
  ![![r.1, rest data r.1 r.2], ![r.2, r.1], ![rest data r.1 r.2, r.2]]

theorem afterDraw_own (t : ℕ) (g : KeyPair d) : (afterDraw KeyPair.drawRandom)^[t] g
    = { g with own := fun k => g.own (k + t) } := by
  induction t with
  | zero => rfl
  | succ t ih =>
    rw [Function.iterate_succ_apply', ih]
    simp only [afterDraw, KeyPair.drawRandom]
    congr 1
    ext k : 1
    rw [Nat.add_right_comm, Nat.add_assoc]

theorem own_keyPair (n : ℕ) (g : KeyPair d) : own d n g = fun j : Fin n => g.own j := by
  ext j : 1
  refine (fillNums_apply ..).trans ?_
  rw [if_pos j.isLt, afterDraw_own]
  exact congrArg g.own (Nat.zero_add _)

theorem afterRandom_keyPair (n : ℕ) (g : KeyPair d) :
    afterRandom d n g = { g with own := fun k => g.own (k + n) } :=
  (fillNums_state _ _ _ _).trans (afterDraw_own n g)

theorem yields_secretShare_ideal (rest : Vec n d → Vec n d → Vec n d → Vec n d)
    (data : Fin 3 → Vec n d) (q : Fin 3) (K : Tape → ℕ → Word d) :
    Yields mode (fun i => secretShare (getShares rest) i (data i) q) (idealKeys K)
      (fun i => idealShares rest (data q) (drawn q (headsOn (Dealer q) (n + n) K)) (i - q))
      (idealKeys (tailsOn (Dealer q) (n + n) K))
      fun c => msgsOn c (dealt q (idealShares rest (data q)
        (drawn q (headsOn (Dealer q) (n + n) K)))) := by
  have hshares : freshShares rest (data q) (idealKeys K q)
      = idealShares rest (data q) (drawn q (headsOn (Dealer q) (n + n) K)) := by
    have hfirst : (drawn q (headsOn (Dealer q) (n + n) K)).1 
        = fun j : Fin n => K (.inr q) j := rfl
    have hsecond : (drawn q (headsOn (Dealer q) (n + n) K)).2 
        = fun j : Fin n => K (.inr q) (n + j) := rfl
    rw [freshShares, own_keyPair, afterRandom_keyPair, own_keyPair, idealShares, hfirst, hsecond]
    simp only [idealKeys, keyPairs, Nat.add_comm n]
  have hafter : afterDeal d n q (idealKeys K) = idealKeys (tailsOn (Dealer q) (n + n) K) := by
    have hpair : ∀ i, tailsOn (Dealer q) (n + n) K (.inl i) = K (.inl i) := fun i =>
      tailsOn_of_not_mem Sum.inl_ne_inr
    ext i : 1
    by_cases hi : i = q
    · have hown : tailsOn (Dealer q) (n + n) K (.inr i) = fun t => K (.inr i) (t + (n + n)) :=
        tailsOn_of_mem (B := Dealer q) (congrArg Sum.inr hi)
      subst hi
      simp only [afterDeal, Function.update_self, afterRandom_keyPair, idealKeys, keyPairs, hpair,
        hown, Nat.add_assoc]
    · have hkeep : tailsOn (Dealer q) (n + n) K (.inr i) = K (.inr i) :=
        tailsOn_of_not_mem (B := Dealer q) fun h => hi (Sum.inr.inj h)
      simp only [afterDeal, Function.update_of_ne hi, idealKeys, keyPairs, hpair, hkeep]
  rw [← hshares, ← hafter]
  exact yields_secretShare_fresh rest data q

/-- **The first random component hides the data.** -/
def Masks (rest : Vec n d → Vec n d → Vec n d → Vec n d) : Prop :=
  ∀ data data', ∃ σ : Equiv.Perm (Vec n d), ∀ a b, rest data a b = rest data' (σ a) b

/-- Replacing `c` by `c'` is undone by moving `a`. -/
theorem remask {A : Type} [AddCommGroup A] (a b c c' : A) :
    c - a - b = c' - (a + (c' - c)) - b := by abel

theorem masks_restA : Masks (n := n) (d := d) restA := fun data data' =>
  ⟨Equiv.addRight (data' - data), fun a b => remask a b data data'⟩

theorem masks_restB : Masks (n := n) (d := d) restB := fun data data' =>
  ⟨Equiv.addRight (G := Fin n → BoolWord d) (data' ^^^ data), fun a b =>
    remask (A := Fin n → BoolWord d) a b data data'⟩

/-- Move the first vector that the data party draws. -/
def moveFirst (q : Fin 3) (σ : Equiv.Perm (Vec n d)) :
    Equiv.Perm ({j // Dealer q j} → Fin (n + n) → Word d) :=
  onTape ⟨.inr q, rfl⟩ <| (Fin.appendEquiv n n).symm.trans <|
    (σ.prodCongr (.refl _)).trans (Fin.appendEquiv n n)

theorem drawn_moveFirst (σ : Equiv.Perm (Vec n d))
    (κ : {j // Dealer q j} → Fin (n + n) → Word d) :
    drawn q (moveFirst q σ κ) = (σ (drawn q κ).1, (drawn q κ).2) := by
  rw [drawn, moveFirst, onTape_self]
  exact (Fin.appendEquiv n n).symm_apply_apply _

theorem msgsOn_dealt (S : Fin 3 → EVector 2 n d) (c : Channel 3) : msgsOn c (dealt q S)
    = if c = chan q (q + 1) then [List.ofFn (S 1 0), List.ofFn (S 1 1)]
      else if c = chan q (q + 2) then [List.ofFn (S 2 0), List.ofFn (S 2 1)] else [] := by
  have hne : ∀ q : Fin 3, chan q (q + 1) ≠ chan q (q + 2) := by decide
  by_cases h₁ : c = chan q (q + 1)
  · simp [dealt, h₁, (hne q).symm]
  by_cases h₂ : c = chan q (q + 2)
  · simp [dealt, h₂, hne q, (hne q).symm]
  · simp [dealt, h₁, h₂, Ne.symm h₁, Ne.symm h₂]

/-- A party sees the shares that it gets. -/
theorem sameView_dealt {S S' : Fin 3 → EVector 2 n d} (h : p ≠ q → S (p - q) = S' (p - q)) :
    SameView Channel.dest p (fun c => msgsOn c (dealt q S)) fun c => msgsOn c (dealt q S') := by
  have hsub : ∀ q : Fin 3, q + 1 ≠ q ∧ q + 1 - q = 1 ∧ q + 2 ≠ q ∧ q + 2 - q = 2 := by decide
  obtain ⟨hne₁, hsub₁, hne₂, hsub₂⟩ := hsub q
  intro c hc
  simp only [msgsOn_dealt]
  by_cases h₁ : c = chan q (q + 1)
  · have hp : q + 1 = p := (congrArg Channel.dest h₁).symm.trans hc
    subst hp
    rw [if_pos h₁, if_pos h₁, ← hsub₁, h hne₁]
  by_cases h₂ : c = chan q (q + 2)
  · have hp : q + 2 = p := (congrArg Channel.dest h₂).symm.trans hc
    subst hp
    rw [if_neg h₁, if_neg h₁, if_pos h₂, if_pos h₂, ← hsub₂, h hne₂]
  · rw [if_neg h₁, if_neg h₁, if_neg h₂, if_neg h₂]

/-- **Sharing hides the data of others.** -/
theorem hides_secretShare {rest : Vec n d → Vec n d → Vec n d → Vec n d} (hrest : Masks rest)
    {data data' : Fin 3 → Vec n d} (h : q = p → data p = data' p) :
    HidesAt mode (idealKeys (d := d)) p (Unread p)
      (fun i => secretShare (getShares rest) i (data i) q)
      fun i => secretShare (getShares rest) i (data' i) q := by
  -- who gets both random vectors sees no data; for who gets the rest, the first makes up for it
  obtain ⟨σ, hσ, hshares⟩ : ∃ σ : Equiv.Perm ({j // Dealer q j} → Fin (n + n) → Word d),
      (∀ κ j, ¬Unread p j.1 → σ κ j = κ j) ∧ ∀ κ, idealShares rest (data q) (drawn q κ) (p - q)
        = idealShares rest (data' q) (drawn q (σ κ)) (p - q) := by
    have hcases : ∀ p q : Fin 3, q = p ∨ p - q = 1 ∨ q ≠ p ∧ p - q = 2 := by decide
    obtain hown | hnext | ⟨hne, hlast⟩ := hcases p q
    · refine ⟨.refl _, fun _ _ _ => rfl, fun κ => ?_⟩
      subst hown
      rw [h rfl, Equiv.refl_apply]
    · refine ⟨.refl _, fun _ _ _ => rfl, fun κ => ?_⟩
      rw [hnext]
      rfl
    · obtain ⟨σ, hσ⟩ := hrest (data q) (data' q)
      refine ⟨moveFirst q σ, fun κ j hj => ?_, fun κ => ?_⟩
      · exact absurd (show Unread p j.1 from j.2.symm ▸ hne) hj
      · rw [hlast, drawn_moveFirst]
        exact congrArg (fun v => ![v, (drawn q κ).2]) (hσ _ _)
  refine Hides.of_draw σ hσ (fun κ i => idealShares rest (data q) (drawn q κ) (i - q))
    (fun κ i => idealShares rest (data' q) (drawn q κ) (i - q))
    (fun κ c => msgsOn c (dealt q (idealShares rest (data q) (drawn q κ))))
    (fun κ c => msgsOn c (dealt q (idealShares rest (data' q) (drawn q κ))))
    (yields_secretShare_ideal rest data q) (yields_secretShare_ideal rest data' q) hshares
    fun κ => sameView_dealt fun _ => hshares κ

end Sharing

/-- **The primitives that send only what is masked hide it.** -/
theorem hides_protocol : Protocol.Hides (protocol d (KeyPair d)) mode idealKeys p (Unread p) where
  multiplyA := hides_gate hidden_multiplyA
  andB := hides_gate hidden_andB
  redistributeSharesB {n x x'} hx := by
    have h₁ : HidesAt mode (idealKeys (d := d)) p (Unread p)
        (fun i => secretShareB i (x i 0 + x i 1) 0) fun i => secretShareB i (x' i 0 + x' i 1) 0 :=
      hides_secretShare masks_restB fun _ => by rw [hx]
    have h₂ : HidesAt mode (idealKeys (d := d)) p (Unread p)
        (fun i => secretShareB i (x i 0) 1) fun i => secretShareB i (x' i 0) 1 :=
      hides_secretShare masks_restB fun _ => by rw [hx]
    exact h₁.bind fun b b' hb => h₂.bind fun c c' hc => .pure (congrArg₂ Prod.mk hb hc)
  secretShareA := hides_secretShare masks_restA
  secretShareB := hides_secretShare masks_restB

/-! ## Bits -/

section Bits

variable {G : Type} {g : Fin 3 → G}

/-- The numbers in a message. -/
def numbers (n : ℕ) (m : List (Word d)) : Vec n d := fun j => m.getD j 0

theorem numbers_ofFn (v : Vec n d) : numbers n (List.ofFn v) = v := by
  ext j : 1
  rw [numbers, List.getD_eq_getElem _ _ (by simp)]
  simp

/-- What a party gets in a turn around the ring. -/
theorem exchangeLog_prev (v : Fin 3 → Vec n d) (p : Fin 3) :
    exchangeLog v 1 (chan (p - 1) p) = [List.ofFn (v (p - 1))] := by
  have hnext : chan (p - 1) (partyIndex (p - 1) 1) = chan (p - 1) p := by
    rw [partyIndex_one, sub_add_cancel]
  exact if_pos hnext

/-- The bits, from a party's own component and the first two messages of its predecessor. -/
def readBit (own : EVector 2 n d) (received : List (List (Word d))) : Vec n d :=
  simpleBitDecompress 0 (simpleBitCompress (own 0) 0 1 0 1 ^^^
    numbers (compressedSize d n 0 1 0 1) (received.getD 0 []) ^^^
    numbers (compressedSize d n 0 1 0 1) (received.getD 1 [])) 0 1 0 1

theorem ensures_readBit (x : Fin 3 → EVector 2 n d) (v : Vec n d) (hx : SharesB layout x v) :
    Ensures mode (fun i => b2aBit i (x i)) g fun _ _ h =>
      ∀ p, readBit (x p) (h (chan (p - 1) p)) = lowBit v := by
  refine .of_yields ((yields_exchange (packed x)).bind <|
    (yields_openShares _ fun i => ![packed x i, packed x (i - 1)]).bind <|
    (yields_exchange fun i => simpleBitCompress (bitShare x i) 0 1 0 1).bind_pure) fun p => ?_
  have hxor : ∀ {m : ℕ} (u : Vec m d), u ^^^ 0 = u := fun u => by
    ext j : 1
    exact BitVec.xor_zero
  rw [← openedBit_eq hx p]
  simp only [exchangeLog_prev, readBit, openedBit, packed, hxor]
  simp [numbers_ofFn]

/-- **`b2a_bit` tells every party the bits**: in every interleaving they follow from its own
component and from what it has received. -/
theorem b2aBit_reveals (x : Fin 3 → EVector 2 n d) (v : Vec n d) (hx : SharesB layout x v) :
    Finishes mode (fun i => (b2aBit i (x i)).run (g i)) fun _ h =>
      ∀ p, readBit (x p) (h (chan (p - 1) p)) = lowBit v :=
  (ensures_readBit x v hx).finishes fun _ => (ownedBy_exchangeShares _ _ _ _).bind fun _ =>
    (ownedBy_openShares _ _).bind fun _ => (ownedBy_exchangeShares _ _ _ _).bind fun _ => .pure _

/-- A bit that is set. -/
def oneBit : Vec 1 .int8_t := ![1]

theorem b2aBit_reveals_oneBit :
    Finishes .rendezvous (fun i => (b2aBit i (plain oneBit i)).run (zeroStreams .int8_t i))
      fun _ h => ∀ p, readBit (plain oneBit p) (h (chan (p - 1) p)) = lowBit oneBit :=
  b2aBit_reveals (plain oneBit) oneBit (sharesB_plain oneBit)

end Bits

end Tva.Replicated3pc
