import TvaMpc.Machinery.Deadlock
import TvaMpc.Protocols.Fantastic4pcMasks

/-!
# Protocols/Fantastic4pcDeadlock — the products with blocking sends

In the second round of a product everybody sends before it receives: `0` to `3`, `1` to `2`, `2` to
`3` and `3` to `2`.  When a send waits for its receive, no party gets past it.
-/

namespace Tva.Fantastic4pc

open Machinery

variable {n : ℕ} {d : DataType} {G : Type} [RandomGenerator G d]
variable {mul add sub : Vec n d → Vec n d → Vec n d} {x y : Fin 4 → EVector 3 n d} {g : Fin 4 → G}

/-- The copies that party `i` compares in the first round agree. -/
def FirstAgrees (mul add sub : Vec n d → Vec n d → Vec n d) (x y : Fin 4 → EVector 3 n d)
    (g : Fin 4 → G) (i : Fin 4) : Prop :=
  masked mul add sub (x (i + 2)) (y (i + 2)) 0 1 (gateMasks d n (i + 2) (g (i + 2))).r11
    = masked mul add sub (x (i + 1)) (y (i + 1)) 1 2 (gateMasks d n (i + 1) (g (i + 1))).r12

/-- **A product with blocking sends jams in its second round**, if it gets there: in every
interleaving each party that does not exit after the first round waits in its send for good. -/
theorem jams_gate (hn : 3 ≤ n) :
    Jams .rendezvous (fun i => (gate mul add sub i (x i) (y i)).run (g i))
    (fun i => chan i (secondTo i)) (FirstAgrees mul add sub x y g) := by
  let w₁ (i : Fin 4) := masked mul add sub (x i) (y i) 0 1 (gateMasks d n i (g i)).r11
  let w₂ (i : Fin 4) := masked mul add sub (x i) (y i) 1 2 (gateMasks d n i (g i)).r12
  let out (i : Fin 4) (s13 : Vec n d) (s : Second (Vec n d)) : EVector 3 n d :=
    gateShares mul add i (x i) (y i) (w₁ i) (gateMasks d n i (g i)).r11 (w₂ i)
      (gateMasks d n i (g i)).r12 s13 (gateMasks d n i (g i)).r13 s
  let last (i : Fin 4) (s13 s13' : Vec n d) : PartyM 4 d G (EVector 3 n d) :=
    check i ((i + 2) % 4) ((i + 1) % 4) s13 s13' >>= fun _ =>
      gateSecond mul add sub i (x i) (y i) >>= fun s => return out i s13 s
  let second (i : Fin 4) (s13 : Vec n d) : PartyM 4 d G (EVector 3 n d) :=
    exchangeShares i (w₂ i) 3 1 >>= last i s13
  have hlast : ∀ i s13 s13', OwnedBy i (last i s13 s13') := fun i s13 s13' =>
    (ownedBy_check _ _ _ _ _).bind fun _ => (ownedBy_gateSecond _ _).bind fun _ => .pure _
  have hsecond : ∀ i s13, OwnedBy i (second i s13) := fun i s13 =>
    (ownedBy_exchangeShares _ _ _ _).bind (hlast i s13)
  have h₁ : Yields .rendezvous (fun i : Fin 4 => exchangeShares i (w₁ i) 2 2)
      (fun i => afterFirst d n (g i)) _ _ _ := yields_exchangeShares (by decide)
  have h₂ : Yields .rendezvous (fun i : Fin 4 => exchangeShares i (w₂ i) 3 1)
      (fun i => afterFirst d n (g i)) _ _ _ := yields_exchangeShares (by decide)
  simp only [partyIndex_two] at h₁
  simp only [partyIndex_one] at h₂
  simp only [run_gate hn]
  refine h₁.jams_bind (f := second) (fun i => (ownedBy_exchangeShares _ _ _ _).bind (hsecond i)) ?_
  refine h₂.jams_bind (f := fun i => last i (w₁ (i + 2))) (fun i => hsecond i _) ?_
  refine jams_of_sends (fun i hi => ?_) fun i hi => ?_
  · have hw : w₁ (i + 2) = w₂ (i + 1) := hi
    simp only [last, run_check_bind]
    rw [if_pos hw, run_gateSecond_bind hn]
    exact ⟨_, _, rfl⟩
  · have hw : w₁ (i + 2) ≠ w₂ (i + 1) := hi
    simp only [last, run_check_bind]
    rw [if_neg hw]
    exact ⟨_, rfl⟩

theorem not_deadlockFree_gate :
    ¬DeadlockFree .rendezvous fun i => (gate mul add sub i (x i) (y i)).run (g i) := by
  rcases lt_or_ge n 3 with hn | hn
  · intro hf
    obtain ⟨s, hs, ht⟩ := exists_terminal .rendezvous
      (Net.init fun i => (gate mul add sub i (x i) (y i)).run (g i))
    obtain ⟨a, ha⟩ := hf s hs ht 0
    have hexit := Star.exited hs (i := 0) (congrArg _ (run_gate_undefined hn 0 (x 0) (y 0) (g 0)))
    cases ha.symm.trans hexit
  · exact (jams_gate hn).not_deadlockFree

/-- **Neither product is free of deadlocks with blocking sends**, at any size and on any inputs. -/
theorem products_deadlock (x y : Fin 4 → EVector 3 n d) (g : Fin 4 → G) :
    ¬ DeadlockFree .rendezvous (fun i => (multiplyA i (x i) (y i)).run (g i)) ∧
      ¬ DeadlockFree .rendezvous (fun i => (andB i (x i) (y i)).run (g i)) :=
  ⟨not_deadlockFree_gate, not_deadlockFree_gate⟩

/-- A state in which all four parties wait in the send of the second round. -/
def AllSending {β : Type} (s : Net (Fin 4) (Channel 4) (List (Word d)) Exit β) : Prop :=
  ∀ i, ∃ k, s.loc i = .wait [chan i (secondTo i)] [] k

/-- Without accusations it is all four that a product leaves in their sends. -/
theorem exists_allSending (hn : 3 ≤ n) (h : ∀ i, FirstAgrees mul add sub x y g i) :
    ∃ s, Star .rendezvous (Net.init fun i => (gate mul add sub i (x i) (y i)).run (g i)) s ∧
      s.Terminal .rendezvous ∧ AllSending s := by
  obtain ⟨s, hs, ht⟩ := exists_terminal .rendezvous
    (Net.init fun i => (gate mul add sub i (x i) (y i)).run (g i))
  exact ⟨s, hs, ht, fun i => (jams_gate hn s hs ht i).1 (h i)⟩

/-- The products of three zeros, without masks, get stuck. -/
theorem zeros_get_stuck :
    (∃ s,
      Star .rendezvous (Net.init fun i => (multiplyA i (0 : EVector 3 3 .int8_t) 0).run zeros) s ∧
      s.Terminal .rendezvous ∧ AllSending s) ∧
    ∃ s, Star .rendezvous (Net.init fun i => (andB i (0 : EVector 3 3 .int8_t) 0).run zeros) s ∧
      s.Terminal .rendezvous ∧ AllSending s := by
  have hm : ∀ i j : Fin 4,
      (gateMasks .int8_t 3 i zeros).r11 = (gateMasks .int8_t 3 j zeros).r12 := by
    simp [gateMasks_streams]
  have hagree : ∀ (R : WordRing .int8_t) i,
      FirstAgrees R.mul R.add R.sub (fun _ => 0) (fun _ => 0) (fun _ => zeros) i := fun R i =>
    (WordRing.first_agree_iff R.shares_zero R.shares_zero i _ _).mpr (hm _ _)
  exact ⟨exists_allSending le_rfl (hagree .arith), exists_allSending le_rfl (hagree .bool)⟩

end Tva.Fantastic4pc
