import TvaMpc.Machinery.Adversary
import TvaMpc.Protocols.Fantastic4pcCorrect

/-!
# Protocols/Fantastic4pcOpening — openings with one corrupted party

An opening fetches one component from one party and compares it with nothing, so a corrupted party
`p` decides what its successor opens.  `opening_safe_iff` says for which messages of `p` everybody
still opens the shared value.
-/

namespace Tva.Fantastic4pc

open Machinery

variable {n k : ℕ} {d : DataType} {G α : Type}

/-- **Every honest party aborts or ends with `good`**, in every run in which `p` sends `w` to its
successor and is honest or not in any other way. -/
def SafeOpening (m : Fin 4 → PartyM 4 d G α) (g : Fin 4 → G) (p : Fin 4) (w : Vec k d)
    (good : Fin 4 → α) : Prop :=
  ∀ s, Attacked Channel.source Channel.dest (fun i => (m i).run (g i)) p s →
    s.log (chan p (p + 1)) = [List.ofFn w] → ∀ i, i ≠ p →
      (∃ e, s.loc i = .run (.exit e)) ∨ ∃ g', s.loc i = .run (.ret (good i, g'))

/-- Fetch a vector from the predecessor, and compute. -/
abbrev fetch (f : Fin 4 → Vec k d → α) (v : Fin 4 → Vec k d) (i : Fin 4) : PartyM 4 d G α :=
  exchangeShares i (v i) 1 3 >>= fun r => pure (f i r)

theorem ownedBy_fetch (f : Fin 4 → Vec k d → α) (v : Fin 4 → Vec k d) (i : Fin 4) :
    OwnedBy (G := G) i (fetch f v i) :=
  (ownedBy_exchangeShares _ _ _ _).bind fun _ => .pure _

section Fetch

variable {f : Fin 4 → Vec k d → α} {v : Fin 4 → Vec k d} {g : Fin 4 → G} {p : Fin 4}
variable {s : Net (Fin 4) (Channel 4) (List (Word d)) Exit (α × G)} {w : Vec k d}

/-- An honest party sends its vector in any case. -/
theorem log_fetch
    (hs : Attacked Channel.source Channel.dest (fun i => (fetch f v i).run (g i)) p s) {i : Fin 4}
    (hi : i ≠ p) : s.log (chan i (i + 1)) = [List.ofFn (v i)] := by
  have hposts : ((fetch f v i).run (g i)).Posts [(chan i (i + 1), List.ofFn (v i))] := by
    rw [← partyIndex_one]
    exact posts_exchangeShares_bind fun r => .ret _ _
  obtain ⟨t, ht⟩ : ∃ t, (((fetch f v i).run (g i)).play s.log).2
      = (chan i (i + 1), List.ofFn (v i)) :: t := by
    rw [run_exchangeShares_bind, partyIndex_one]
    exact Proc.exists_play_comm _ _ _ _
  have hpre := hposts s.log
  rw [ht, List.cons_prefix_cons] at hpre
  obtain rfl := List.prefix_nil.mp hpre.2
  rw [(hs.play hi).2 _ rfl, ht, msgsOn_cons, if_pos rfl]
  rfl

/-- **Everybody gets what its predecessor sent.** -/
theorem loc_fetch
    (hs : Attacked Channel.source Channel.dest (fun i => (fetch f v i).run (g i)) p s)
    (hw : s.log (chan p (p + 1)) = [List.ofFn w]) {i : Fin 4} (hi : i ≠ p) :
    s.loc i = .run (.ret (f i (if i = p + 1 then w else v (i + 3)), g i)) := by
  have hin : s.log (chan (partyIndex i 3) i)
      = [List.ofFn (if i = p + 1 then w else v (i + 3))] := by
    rw [partyIndex_three]
    by_cases hip : i = p + 1
    · subst hip
      rw [if_pos rfl, add_one_three, hw]
    · have hne : i + 3 ≠ p := fun e => hip (by rw [← e, add_three_one])
      have h := log_fetch hs hne
      rw [add_three_one] at h
      rw [if_neg hip, h]
  have hend := (hs.play hi).1
  rw [play_exchangeShares_bind _ hin] at hend
  exact hend

/-- **What the attacker may send**: a vector that its successor computes the same from. -/
theorem safe_fetch_iff : SafeOpening (fetch f v) g p w (fun i => f i (v (i + 3))) ↔
    f (p + 1) w = f (p + 1) (v p) := by
  have hsucc : p + 1 ≠ p := (add_ne_self p).1
  constructor
  · intro h
    obtain ⟨s, hs, hlog⟩ := exists_attacked (m := fun i => (fetch f v i).run (g i)) (p := p)
      (fun i => ownedBy_fetch f v i (g i)) (l := [(chan p (p + 1), List.ofFn w)])
      (by simp [chan]) .truncated
    have hw : s.log (chan p (p + 1)) = [List.ofFn w] := by
      rw [hlog _ rfl, msgsOn_cons, if_pos rfl]
      rfl
    have hloc := loc_fetch hs hw hsucc
    rw [if_pos rfl] at hloc
    rcases h s hs hw _ hsucc with ⟨e, he⟩ | ⟨g', hg'⟩
    · cases he.symm.trans hloc
    · have heq := Proc.ret.inj (Local.run.inj (hloc.symm.trans hg'))
      have hfst : f (p + 1) w = f (p + 1) (v (p + 1 + 3)) := congrArg Prod.fst heq
      rwa [add_one_three] at hfst
  · intro h s hs hw i hi
    refine .inr ⟨g i, ?_⟩
    rw [loc_fetch hs hw hi]
    by_cases hip : i = p + 1
    · subst hip
      simp only [if_true, h, add_one_three]
    · rw [if_neg hip]

end Fetch

/-! ## The openings -/

section Openings

variable {g : Fin 4 → G} {p : Fin 4} {x : Fin 4 → EVector 3 n d} {v : Vec n d}

/-- **An opening is safe from no message but the right one**, over any ring. -/
theorem safe_openShares_iff {R : WordRing d} (hx : R.SharesIn x v) (w : Vec n d) :
    SafeOpening (fun i => openShares R.add i (x i)) g p w (fun _ => v) ↔ w = x p 0 := by
  have hopen : ∀ i, R.add (R.add (R.add (x i 0) (x i 1)) (x i 2)) (x (i + 3) 0) = v :=
    @open_eq n (Word d) R.ring x v hx
  have h : SafeOpening (fetch (fun i r => R.add (R.add (R.add (x i 0) (x i 1)) (x i 2)) r)
      fun i => x i 0) g p w _ ↔ _ := safe_fetch_iff
  simp only [hopen] at h
  exact h.trans WordRing.add_share_inj

/-- Unpacking is linear over `^`. -/
theorem unpacked_xor (a b : Vec (compressedSize d n 0 1 0 1) d) :
    unpacked n (a ^^^ b) = unpacked n a ^^^ unpacked n b := by
  refine funext fun j => BitVec.eq_of_getLsbD_eq fun t ht => ?_
  rw [Vec.xor_apply, BitVec.getLsbD_xor]
  simp only [unpacked, getLsbD_simpleBitDecompress _ _ _ ht]
  split
  · rw [Vec.read_xor, BitVec.getLsbD_xor]
  · simp

/-- What a party packs are its low bits. -/
theorem unpacked_packed (x : EVector 3 n d) (k : Fin 3) :
    unpacked n (packed x k) = lowBit (x k) := by
  have h0 : x k ^^^ 0 = x k := funext fun _ => BitVec.xor_zero
  rw [packed, simpleBitCompress_lowBit, h0]
  exact simpleBitDecompress_compress (x k)

/-- Party `1` holds no share of the opened bits. -/
theorem bitShares_eq_iff (i : Fin 4) {a b : Vec n d} (ha : lowBit a = a) (hb : lowBit b = b) :
    bitShares i a = bitShares i b ↔ i = 1 ∨ a = b := by
  rw [bitShares_eq, bitShares_eq, ha, hb]
  constructor
  · intro h
    have hcol := fun k : Fin 3 => congrFun h k
    fin_cases i
    exacts [.inr (hcol 0), .inl rfl, .inr (hcol 2), .inr (hcol 1)]
  · rintro (rfl | rfl) <;> rfl

theorem lowBit_unpacked (a : Vec (compressedSize d n 0 1 0 1) d) :
    lowBit (unpacked n a) = unpacked n a := by
  refine funext fun j => BitVec.eq_of_getLsbD_eq fun t ht => ?_
  rw [getLsbD_lowBit]
  simp only [unpacked, getLsbD_simpleBitDecompress _ _ _ ht,
    getLsbD_simpleBitDecompress _ _ _ d.bits_pos]
  rcases eq_or_ne t 0 with rfl | h0
  · simp
  · simp [h0]

/-- What `b2a_bit` does with the fetched component. -/
def fromFetched (x : Fin 4 → EVector 3 n d) (i : Fin 4) (r : Vec (compressedSize d n 0 1 0 1) d) :
    EVector 3 n d :=
  bitShares i (unpacked n (packed (x i) 0 ^^^ packed (x i) 1 ^^^ packed (x i) 2 ^^^ r))

theorem b2aBit_eq_fetch (x : Fin 4 → EVector 3 n d) :
    (fun i => b2aBit (G := G) i (x i)) = fetch (fromFetched x) fun i => packed (x i) 0 := by
  funext i
  simp only [b2aBit_eq, openSharesB, openShares, bind_assoc, pure_bind]
  rfl

/-- In the honest run the parties end with shares of the low bits. -/
theorem fromFetched_eq (hx : SharesB layout x v) (i : Fin 4) :
    fromFetched x i (packed (x (i + 3)) 0) = bitShares i (lowBit v) := by
  rw [fromFetched, packed_eq hx]
  exact congrArg (bitShares i) (simpleBitDecompress_compress v)

/-- **The conversion of bits is safe from the messages with the right bits**, and from party `0`,
whose successor does not use them. -/
theorem safe_b2aBit_iff (hx : SharesB layout x v) (w : Vec (compressedSize d n 0 1 0 1) d) :
    SafeOpening (fun i => b2aBit i (x i)) g p w (fun i => bitShares i (lowBit v)) ↔
      p = 0 ∨ unpacked n w = lowBit (x p 0) := by
  have h := safe_fetch_iff (f := fromFetched x) (v := fun i => packed (x i) 0) (g := g) (p := p)
    (w := w)
  rw [← b2aBit_eq_fetch] at h
  simp only [fromFetched_eq hx] at h
  have hsucc : ∀ p : Fin 4, p + 1 = 1 ↔ p = 0 := by decide
  rw [h, fromFetched, fromFetched, bitShares_eq_iff _ (lowBit_unpacked _) (lowBit_unpacked _),
    hsucc, unpacked_xor, unpacked_xor _ (packed (x p) 0), unpacked_packed]
  exact or_congr Iff.rfl (WordRing.add_share_inj (R := .bool))

variable {u : Vec n d}

/-- **Which messages of a corrupted party an opening is safe from**: `p` sends `w` to its successor
in the openings, and `w'` in the conversion of bits.  All honest parties abort or open the shared
value exactly if `w` is the component of `p`; they abort or end with the shares of the honest run
exactly if `w'` carries the bits of that component, or nobody uses them. -/
theorem opening_safe_iff (p : Fin 4) (g : Fin 4 → G) (hx : SharesA layout x u)
    (hx' : SharesB layout x v) (w : Vec n d) (w' : Vec (compressedSize d n 0 1 0 1) d) :
    (SafeOpening (fun i => openSharesA i (x i)) g p w (fun _ => u) ↔ w = x p 0) ∧
    (SafeOpening (fun i => openSharesB i (x i)) g p w (fun _ => v) ↔ w = x p 0) ∧
    (∃ h, Yields .buffered (fun i => b2aBit i (x i)) g (fun i => bitShares i (lowBit v)) g h) ∧
    (SafeOpening (fun i => b2aBit i (x i)) g p w' (fun i => bitShares i (lowBit v)) ↔
      p = 0 ∨ unpacked n w' = lowBit (x p 0)) := by
  refine ⟨safe_openShares_iff (R := .arith) hx w, safe_openShares_iff (R := .bool) hx' w,
    ⟨exchangeLog (fun i => packed (x i) 0) 1, ?_⟩, safe_b2aBit_iff hx' w'⟩
  have h : Yields .buffered (fun i => b2aBit i (x i)) g _ g _ := yields_b2aBit x
  simp only [packed_eq hx'] at h
  have hopened : unpacked n (simpleBitCompress v 0 1 0 1) = lowBit v :=
    simpleBitDecompress_compress v
  rwa [hopened] at h

end Openings

/-- A corrupted party that sends what it ought to. -/
theorem opening_safe_from_zero : SafeOpening (G := Unit)
    (fun i => openSharesA i (0 : EVector 3 1 .int8_t)) (fun _ => ()) 3
      (0 : Vec 1 .int8_t) fun _ => 0 :=
  (opening_safe_iff 3 (fun _ => ()) (WordRing.shares_zero .arith) (WordRing.shares_zero .bool) 0
    0).1.mpr rfl

/-- Zeros are shared, and party `3` sends a one: the honest parties do not all open zero. -/
theorem opening_unsafe_from_one :
    ¬ SafeOpening (G := Unit) (fun i => openSharesA i (0 : EVector 3 1 .int8_t)) (fun _ => ()) 3
      (1 : Vec 1 .int8_t) (fun _ => 0) ∧
    ¬ SafeOpening (G := Unit) (fun i => openSharesB i (0 : EVector 3 1 .int8_t)) (fun _ => ()) 3
      (1 : Vec 1 .int8_t) (fun _ => 0) ∧
    ¬ SafeOpening (G := Unit) (fun i => b2aBit i (0 : EVector 3 1 .int8_t)) (fun _ => ()) 3
      (fun _ => 1 : Vec (compressedSize .int8_t 1 0 1 0 1) .int8_t)
      (fun i => bitShares i (lowBit 0)) := by
  have hone : ¬ (1 : Vec 1 .int8_t) = 0 := by decide
  refine ⟨fun h => hone ?_, fun h => hone ?_, fun h => ?_⟩
  · exact (safe_openShares_iff (WordRing.shares_zero .arith) _).mp h
  · exact (safe_openShares_iff (WordRing.shares_zero .bool) _).mp h
  · exact absurd ((safe_b2aBit_iff (WordRing.shares_zero .bool) _).mp h) (by decide)

end Tva.Fantastic4pc
