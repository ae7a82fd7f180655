import TvaMpc.Protocols.Fantastic4pcCorrect

/-!
# Protocols/Fantastic4pcDealing — which party can deal

`secret_share` adds the number of the data party to addresses that are relative to it already.  From
party `0` the shares reach the three parties that wait for them.  From any other party `p` they go
to `2 p + 1`, `2 p + 2` and `2 p + 3`, so three of them go back to `p`, and nobody sends to `2 p`.
-/

namespace Tva.Fantastic4pc

open Machinery

variable {n : ℕ} {d : DataType} {G : Type} [RandomGenerator G d] {mode : SendMode}
variable {sub : Vec n d → Vec n d → Vec n d} {data : Fin 4 → Vec n d} {g : Fin 4 → G} {p : Fin 4}

/-- **Sharing and opening work** in every interleaving: the parties return the shares of `v`, with
no message left, and when they go on to open these, they open `v`. -/
structure Works (mode : SendMode) (share : Fin 4 → PartyM 4 d G (EVector 3 n d))
    (openShares : Fin 4 → EVector 3 n d → PartyM 4 d G (Vec n d)) (g : Fin 4 → G)
    (Holds : (Fin 4 → EVector 3 n d) → Vec n d → Prop) (v : Vec n d) : Prop where
  shares : Finishes mode (fun i => (share i).run (g i)) fun out _ => Holds (fun i => (out i).1) v
  opens : Finishes mode (fun i => (share i >>= openShares i).run (g i)) fun out _ =>
    ∀ i, (out i).1 = v

/-! ## From another party -/

/-- The party that is not sent anything. -/
abbrev starved (p : Fin 4) : Fin 4 := p + p

theorem starved_ne : ∀ p : Fin 4, p ≠ 0 → starved p ≠ p := by decide

/-- The addresses that the data party uses. -/
theorem partyIndex_dealer : ∀ p : Fin 4, partyIndex p ((p : ℕ) + 1 : ℕ) = starved p + 1 ∧
    partyIndex p ((p : ℕ) + 2 : ℕ) = starved p + 2 ∧
    partyIndex p ((p : ℕ) + 3 : ℕ) = starved p + 3 := by decide

/-- The address that the others wait at. -/
theorem partyIndex_receiver : ∀ j p : Fin 4, partyIndex j ((p : ℕ) - (j : ℕ) : ℤ) = p := by decide

/-- Where the data party sends. -/
theorem sends_dealer (q : Channel 4 → List (List (Word d))) :
    (((secretShare sub p (data p) p).run (g p)).play q).2.map Prod.fst
      = List.replicate 3 (chan p (starved p + 1)) ++ (List.replicate 3 (chan p (starved p + 2)) ++
        List.replicate 3 (chan p (starved p + 3))) := by
  obtain ⟨h₁, h₂, h₃⟩ := partyIndex_dealer p
  rw [← h₁, ← h₂, ← h₃, secretShare, if_pos rfl]
  rfl

/-- It sends nothing to the starved one. -/
theorem msgsOn_dealer (q : Channel 4 → List (List (Word d))) :
    msgsOn (chan p (starved p)) (((secretShare sub p (data p) p).run (g p)).play q).2 = [] := by
  refine msgsOn_eq_nil fun s hs hc => ?_
  have hmem := List.mem_map_of_mem (f := Prod.fst) hs
  rw [sends_dealer, hc] at hmem
  have hne := add_ne_self (starved p)
  simp [hne.1.symm, hne.2.1.symm, hne.2.2.symm] at hmem

/-- **Another data party than `0` starves a receiver**, under either send mode. -/
theorem starves_secretShare (hp : p ≠ 0)
    (Q : (Fin 4 → EVector 3 n d × G) → (Channel 4 → List (List (Word d))) → Prop) :
    ¬ Finishes mode (fun i => (secretShare sub i (data i) p).run (g i)) Q := by
  intro hf
  obtain ⟨a, h, hr, -⟩ := hf.runs
  obtain ⟨hret, hlog⟩ := hr.play fun i => ownedBy_secretShare sub (data i) p (g i)
  have hempty : h (chan p (starved p)) = [] := (hlog _).trans (msgsOn_dealer h)
  have hwait := hret (starved p)
  rw [secretShare, if_neg (starved_ne p hp), play_receiveShares_waits _
    (by rw [partyIndex_receiver]; exact hempty)] at hwait
  cases hwait

/-! ## From party `0` -/

variable {R : WordRing d}

/-- What party `0` deals is a sharing. -/
theorem ensures_dealt : Ensures mode (fun i => secretShare R.sub i (data i) 0) g
    fun x _ _ => R.SharesIn x (data 0) :=
  .of_yields (yields_secretShare _ data) (shares_freshComponents _ _)

/-- **Party `0` can deal**, under either send mode. -/
theorem works_zero : Works mode (fun i => secretShare R.sub i (data i) 0) (openShares R.add) g
    R.SharesIn (data 0) where
  shares := ensures_dealt.finishes fun i => ownedBy_secretShare _ _ _
  opens := by
    have h : Ensures mode (fun i => secretShare R.sub i (data i) 0 >>= openShares R.add i) g
        fun a _ _ => ∀ i, a i = data 0 :=
      ensures_dealt.bind fun x _ _ hx => ensures_openShares hx
    exact h.finishes fun i =>
      (ownedBy_secretShare _ _ _).bind fun _ => ownedBy_openShares _ _

/-- **Sharing works from party `0` only.** -/
theorem works_iff : Works mode (fun i => secretShare R.sub i (data i) p) (openShares R.add) g
    R.SharesIn (data p) ↔ p = 0 := by
  constructor
  · intro h
    by_contra hp
    exact starves_secretShare hp _ h.shares
  · rintro rfl
    exact works_zero

/-- **From which party vectors can be shared**: for every plaintext, all generators and both send
modes, all parties return, with no message left, hold a well-formed sharing and open the plaintext
from it, exactly if the data party is party `0`. -/
theorem secretShare_works_iff (mode : SendMode) (data : Fin 4 → Vec n d) (g : Fin 4 → G)
    (p : Fin 4) :
    (Works mode (fun i => secretShareA i (data i) p) openSharesA g (SharesA layout) (data p) ↔
      p = 0) ∧
    (Works mode (fun i => secretShareB i (data i) p) openSharesB g (SharesB layout) (data p) ↔
      p = 0) :=
  ⟨works_iff (R := .arith), works_iff (R := .bool)⟩

/-- Party `1` shares a zero: party `2` waits for good. -/
theorem secretShare_fails_from_one :
    ¬ Works .buffered (fun i => secretShareA i (0 : Vec 1 .int8_t) 1) openSharesA
      (fun _ => (⟨fun _ _ => 0, fun _ => 0⟩ : Streams .int8_t)) (SharesA layout) 0 ∧
    ¬ Works .buffered (fun i => secretShareB i (0 : Vec 1 .int8_t) 1) openSharesB
      (fun _ => (⟨fun _ _ => 0, fun _ => 0⟩ : Streams .int8_t)) (SharesB layout) 0 :=
  ⟨fun h => starves_secretShare (by decide) _ h.shares,
    fun h => starves_secretShare (by decide) _ h.shares⟩

end Tva.Fantastic4pc
