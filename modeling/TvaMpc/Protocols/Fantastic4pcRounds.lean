import TvaMpc.Protocols.Fantastic4pc
import TvaMpc.Protocols.Program
import Mathlib.Tactic.FinCases

/-!
# Protocols/Fantastic4pcRounds — what a party of a product does, given what it is sent

A party of `multiply_a` or `and_b` draws up to three elements into each of its mask vectors.  In
vectors of fewer elements that is undefined (`run_gate_undefined`), before anything is sent.
Otherwise `play_gate` runs the party against an arbitrary inbox: the three messages it sends depend
on its own components and masks only, and it exits exactly where two copies differ.
-/

namespace Tva.Fantastic4pc

open Machinery Function

variable {n : ℕ} {d : DataType} {G : Type}

/-! ## Indices modulo four -/

@[simp] theorem add_one_one (i : Fin 4) : i + 1 + 1 = i + 2 := by decide +revert

@[simp] theorem add_one_two (i : Fin 4) : i + 1 + 2 = i + 3 := by decide +revert

@[simp] theorem add_one_three (i : Fin 4) : i + 1 + 3 = i := by decide +revert

@[simp] theorem add_two_one (i : Fin 4) : i + 2 + 1 = i + 3 := by decide +revert

@[simp] theorem add_two_two (i : Fin 4) : i + 2 + 2 = i := by decide +revert

@[simp] theorem add_two_three (i : Fin 4) : i + 2 + 3 = i + 1 := by decide +revert

@[simp] theorem add_three_one (i : Fin 4) : i + 3 + 1 = i := by decide +revert

@[simp] theorem add_three_two (i : Fin 4) : i + 3 + 2 = i + 1 := by decide +revert

@[simp] theorem add_three_three (i : Fin 4) : i + 3 + 3 = i + 2 := by decide +revert

theorem add_ne_self (i : Fin 4) : i + 1 ≠ i ∧ i + 2 ≠ i ∧ i + 3 ≠ i := by decide +revert

theorem partyIndex_one : ∀ i : Fin 4, partyIndex i 1 = i + 1 := by decide

theorem partyIndex_two : ∀ i : Fin 4, partyIndex i 2 = i + 2 := by decide

theorem partyIndex_three : ∀ i : Fin 4, partyIndex i 3 = i + 3 := by decide

section Check

variable {α : Type} {k : Fin 4} {g : G} {a b : ℕ} {v w : Vec n d}

theorem run_check_bind (f : Unit → PartyM 4 d G α) : (check k a b v w >>= f).run g
    = if v = w then (f ()).run g else .exit (.accuses k a b) := by
  rw [check]
  split <;> rfl

end Check

/-! ## Masks -/

/-- The masks of a party in a product: `r2` is the one of its message in the second round, so
`r_2_1` or `r_2_2`. -/
structure Masks (V : Type) where
  r11 : V
  r12 : V
  r13 : V
  r23 : V
  r2 : V

section Masks

variable [RandomGenerator G d]

/-- What a call of the generator yields, into `n` zeros, and its state afterwards. -/
def drawn (d : DataType) [RandomGenerator G d] (n id size : ℕ) (g : G) : Vec n d × G :=
  RandomGenerator.getMultipleNext (0 : Vec n d) id size g

/-- What a party draws in the second round: `r_2_3`, the mask of its message, and its generator
afterwards. -/
def secondMasks (d : DataType) [RandomGenerator G d] (n : ℕ) (k : Fin 4) (g : G) :
    Vec n d × Vec n d × G :=
  let e := if k = 1 then drawn d n n 2 g else (0, g)
  (e.1, drawn d n n (if k = 0 ∨ k = 3 then 3 else 1) e.2)

/-- The generator after the first round. -/
def afterFirst (d : DataType) [RandomGenerator G d] (n : ℕ) (g : G) : G :=
  (drawn d n n 3 (drawn d n n 2 (drawn d n n 1 g).2).2).2

/-- Everything that a party draws in a product. -/
def gateMasks (d : DataType) [RandomGenerator G d] (n : ℕ) (k : Fin 4) (g : G) :
    Masks (Vec n d) where
  r11 := (drawn d n n 1 g).1
  r12 := (drawn d n n 2 (drawn d n n 1 g).2).1
  r13 := (drawn d n n 3 (drawn d n n 2 (drawn d n n 1 g).2).2).1
  r23 := (secondMasks d n k (afterFirst d n g)).1
  r2 := (secondMasks d n k (afterFirst d n g)).2.1

/-- Its generator afterwards. -/
def afterGate (d : DataType) [RandomGenerator G d] (n : ℕ) (k : Fin 4) (g : G) : G :=
  (secondMasks d n k (afterFirst d n g)).2.2

end Masks

/-! ## One party of a product -/

/-- Where the message of the second round goes. -/
def secondTo (k : Fin 4) : Fin 4 := if k = 0 ∨ k = 3 then k + 3 else k + 1

theorem secondTo_eq (k : Fin 4) : (secondTo k = k + 3 ∧ secondTo k ≠ k + 1) ∨
    (secondTo k ≠ k + 3 ∧ secondTo k = k + 1) := by decide +revert

/-- Only the parties `2` and `3` are sent something in the second round, from both sides. -/
theorem secondTo_eq_iff (i k : Fin 4) :
    secondTo i = k ↔ (k = 2 ∨ k = 3) ∧ (i = k + 1 ∨ i = k + 3) := by
  decide +revert

/-- What a party returns, having received `shares13` and, in the second round, `shares22`. -/
def gateOutput {V : Type} [Zero V] (mul add sub : V → V → V) (k : Fin 4) (x y : Fin 3 → V)
    (m : Masks V) (shares13 shares22 : V) : Fin 3 → V :=
  gateShares mul add k x y (masked mul add sub x y 0 1 m.r11) m.r11
    (masked mul add sub x y 1 2 m.r12) m.r12 shares13 m.r13
    ⟨if k = 0 ∨ k = 3 then m.r2 else 0, if k = 0 ∨ k = 3 then 0 else m.r2, m.r23,
      masked mul add sub x y 0 2 m.r2, shares22⟩

section Gate

variable (mul add sub : Vec n d → Vec n d → Vec n d)

/-- How the second round ends, with the messages `l₁` and `l₂` for it. -/
def secondEnd {β : Type} (k : Fin 4) (out : Vec n d → β) (l₁ l₂ : List (Vec n d)) :
    Outcome (Channel 4) Exit β :=
  if k = 2 ∨ k = 3 then
    match l₁, l₂ with
    | [], _ => .waits (chan (k + 1) k)
    | _ :: _, [] => .waits (chan (k + 3) k)
    | u :: _, u' :: _ =>
      if u = u' then .returned (out u) else .exited (.accuses k ((k + 1) % 4) ((k + 3) % 4))
  else .returned (out 0)

/-- The messages of the first round. -/
def firstPosts (k : Fin 4) (x y : EVector 3 n d) (m : Masks (Vec n d)) :
    List (Channel 4 × List (Word d)) :=
  [(chan k (k + 2), List.ofFn (masked mul add sub x y 0 1 m.r11)),
    (chan k (k + 3), List.ofFn (masked mul add sub x y 1 2 m.r12))]

/-- The message of the second round. -/
def secondPost (k : Fin 4) (x y : EVector 3 n d) (m : Masks (Vec n d)) :
    Channel 4 × List (Word d) :=
  (chan k (secondTo k), List.ofFn (masked mul add sub x y 0 2 m.r2))

variable [RandomGenerator G d] {mul add sub}

omit [RandomGenerator G d] in
/-- The receives of the second round; the parties `0` and `1` have none. -/
theorem play_receiveSecond {α : Type} (k : Fin 4) (out : Vec n d → α) (g : G)
    {q : Channel 4 → List (List (Word d))} {l₁ l₂ : List (Vec n d)}
    (h₁ : k = 2 ∨ k = 3 → q (chan (k + 1) k) = l₁.map List.ofFn)
    (h₂ : k = 2 ∨ k = 3 → q (chan (k + 3) k) = l₂.map List.ofFn) :
    ((receiveSecond k >>= fun u => (return out u : PartyM 4 d G α)).run g).play q
      = (secondEnd k (fun u => (out u, g)) l₁ l₂, []) := by
  rw [receiveSecond, secondEnd.eq_def]
  split
  · rename_i hk
    have hne : chan (k + 3) k ≠ chan (k + 1) k := by clear * - hk; decide +revert
    have h₁ := h₁ hk
    have h₂ := h₂ hk
    rw [← partyIndex_one, ← partyIndex_three] at *
    simp only [bind_assoc]
    cases l₁ with
    | nil => exact play_receiveShares_waits _ h₁
    | cons u l₁ =>
      rw [play_receiveShares_bind _ h₁]
      cases l₂ with
      | nil => exact play_receiveShares_waits _ ((update_of_ne hne ..).trans h₂)
      | cons u' l₂ =>
        rw [play_receiveShares_bind _ ((update_of_ne hne ..).trans h₂), run_check_bind]
        dsimp only
        split <;> rfl
  · rfl

/-- **A product of fewer than three elements** writes behind its masks at every party. -/
theorem run_gate_undefined (hn : n < 3) (k : Fin 4) (x y : EVector 3 n d) (g : G) :
    (gate mul add sub k x y).run g = .exit .undefined := by
  match n with
  | 0 => rfl
  | 1 => rfl
  | 2 => rfl

/-- The second round: one message, and then the receives. -/
theorem run_gateSecond_bind (hn : 3 ≤ n) {α : Type} (k : Fin 4) (x y : EVector 3 n d) (g : G)
    (f : Second (Vec n d) → PartyM 4 d G α) : (gateSecond mul add sub k x y >>= f).run g =
      let m := secondMasks d n k g
      .comm [(chan k (secondTo k), List.ofFn (masked mul add sub x y 0 2 m.2.1))] [] fun _ =>
        (receiveSecond k >>= fun u => f ⟨if k = 0 ∨ k = 3 then m.2.1 else 0,
          if k = 0 ∨ k = 3 then 0 else m.2.1, m.1, masked mul add sub x y 0 2 m.2.1, u⟩).run
          m.2.2 := by
  have h₁ : 1 ≤ n := by omega
  have h₂ : 2 ≤ n := by omega
  simp only [gateSecond, drawThird, sendSecond, getMultipleNext_eq h₁, getMultipleNext_eq h₂,
    getMultipleNext_eq hn, bind_assoc, pure_bind]
  fin_cases k <;> rfl

/-- A party of a product, after its draws for the first round. -/
theorem run_gate (hn : 3 ≤ n) (k : Fin 4) (x y : EVector 3 n d) (g : G) :
    (gate mul add sub k x y).run g =
    (exchangeShares k (masked mul add sub x y 0 1 (gateMasks d n k g).r11) 2 2 >>= fun s13 =>
      exchangeShares k (masked mul add sub x y 1 2 (gateMasks d n k g).r12) 3 1 >>= fun s13' =>
      check k ((k + 2) % 4) ((k + 1) % 4) s13 s13' >>= fun _ =>
      gateSecond mul add sub k x y >>= fun s =>
      return gateShares mul add k x y (masked mul add sub x y 0 1 (gateMasks d n k g).r11)
        (gateMasks d n k g).r11 (masked mul add sub x y 1 2 (gateMasks d n k g).r12)
        (gateMasks d n k g).r12 s13 (gateMasks d n k g).r13 s :
      PartyM 4 d G (EVector 3 n d)).run (afterFirst d n g) := by
  have h₁ : 1 ≤ n := by omega
  have h₂ : 2 ≤ n := by omega
  simp only [gate, getMultipleNext_eq h₁, getMultipleNext_eq h₂, getMultipleNext_eq hn]
  rfl

/-- **One party of a product against its inbox**: `w₁` and `w₂` are the copies of the first round,
`l₁` and `l₂` the messages for the second. -/
theorem play_gate (hn : 3 ≤ n) (k : Fin 4) (x y : EVector 3 n d) (g : G)
    {q : Channel 4 → List (List (Word d))} {w₁ w₂ : Vec n d} {l₁ l₂ : List (Vec n d)}
    {rest₁ rest₂ : List (List (Word d))}
    (hw₁ : q (chan (k + 2) k) = List.ofFn w₁ :: rest₁)
    (hw₂ : q (chan (k + 1) k) = List.ofFn w₂ :: rest₂)
    (hl₁ : k = 2 ∨ k = 3 → rest₂ = l₁.map List.ofFn)
    (hl₂ : k = 2 ∨ k = 3 → q (chan (k + 3) k) = l₂.map List.ofFn) :
    ((gate mul add sub k x y).run g).play q =
      if w₁ = w₂ then
        (secondEnd k (fun u => (gateOutput mul add sub k x y (gateMasks d n k g) w₁ u,
            afterGate d n k g)) l₁ l₂,
          firstPosts mul add sub k x y (gateMasks d n k g)
            ++ [secondPost mul add sub k x y (gateMasks d n k g)])
      else (.exited (.accuses k ((k + 2) % 4) ((k + 1) % 4)),
        firstPosts mul add sub k x y (gateMasks d n k g)) := by
  have hne : chan (k + 1) k ≠ chan (k + 2) k ∧ chan (k + 3) k ≠ chan (k + 2) k ∧
      chan (k + 3) k ≠ chan (k + 1) k := by
    clear * -
    decide +revert
  rw [← partyIndex_two] at hw₁ hne
  rw [← partyIndex_one] at hw₂ hne
  rw [run_gate hn, play_exchangeShares_bind _ hw₁,
    play_exchangeShares_bind _ ((update_of_ne hne.1 ..).trans hw₂), run_check_bind]
  split
  · have hplay : ∀ (m : Channel 4 × List (Word d)) (r : List (List (Word d)) → Proc _ _ Exit _)
        (q : Channel 4 → List (List (Word d))),
        (Proc.comm [m] [] r : Proc _ _ Exit (EVector 3 n d × G)).play q
          = (((r []).play q).1, m :: ((r []).play q).2) := fun _ _ _ => rfl
    have h₁ : k = 2 ∨ k = 3 → update (update q (chan (partyIndex k 2) k) rest₁)
        (chan (partyIndex k 1) k) rest₂ (chan (k + 1) k) = l₁.map List.ofFn := by
      rw [← partyIndex_one, update_self]
      exact hl₁
    have h₂ : k = 2 ∨ k = 3 → update (update q (chan (partyIndex k 2) k) rest₁)
        (chan (partyIndex k 1) k) rest₂ (chan (k + 3) k) = l₂.map List.ofFn := by
      rw [update_of_ne hne.2.2, update_of_ne hne.2.1]
      exact hl₂
    rw [run_gateSecond_bind hn, hplay, play_receiveSecond k _ _ h₁ h₂, partyIndex_two,
      partyIndex_three]
    rfl
  · rw [partyIndex_two, partyIndex_three]
    rfl

variable (mul add sub) in
/-- A party of a product sends its three messages at most, in order. -/
theorem posts_gate (hn : 3 ≤ n) (k : Fin 4) (x y : EVector 3 n d) (g : G) :
    ((gate mul add sub k x y).run g).Posts (firstPosts mul add sub k x y (gateMasks d n k g)
      ++ [secondPost mul add sub k x y (gateMasks d n k g)]) := by
  rw [run_gate hn, firstPosts, ← partyIndex_two, ← partyIndex_three]
  refine posts_exchangeShares_bind fun s13 => posts_exchangeShares_bind fun s13' => ?_
  rw [run_check_bind]
  split
  · rw [run_gateSecond_bind hn]
    refine .comm [_] _ fun _ => ?_
    rw [receiveSecond]
    split
    · simp only [bind_assoc]
      refine posts_receiveShares_bind fun u => posts_receiveShares_bind fun u' => ?_
      rw [run_check_bind]
      split
      · exact .ret _ _
      · exact .exit _ _
    · exact .ret _ _
  · exact .exit _ _

variable (mul add sub) in
/-- The first message is sent in any case. -/
theorem exists_play_gate (hn : 3 ≤ n) (k : Fin 4) (x y : EVector 3 n d) (g : G)
    (q : Channel 4 → List (List (Word d))) : ∃ t, (((gate mul add sub k x y).run g).play q).2
      = (chan k (k + 2), List.ofFn (masked mul add sub x y 0 1 (gateMasks d n k g).r11)) :: t := by
  rw [run_gate hn, run_exchangeShares_bind, partyIndex_two]
  exact Proc.exists_play_comm _ _ _ _

variable (mul add sub) in
/-- With a message for the first exchange, so is the second one. -/
theorem exists_play_gate_of_first (hn : 3 ≤ n) (k : Fin 4) (x y : EVector 3 n d) (g : G)
    {q : Channel 4 → List (List (Word d))} {w : Vec n d} {rest : List (List (Word d))}
    (hw : q (chan (k + 2) k) = List.ofFn w :: rest) :
    ∃ t, (((gate mul add sub k x y).run g).play q).2
      = firstPosts mul add sub k x y (gateMasks d n k g) ++ t := by
  rw [← partyIndex_two] at hw
  rw [run_gate hn, play_exchangeShares_bind _ hw, run_exchangeShares_bind]
  obtain ⟨t, ht⟩ := Proc.exists_play_comm
    [(chan k (partyIndex k 3), List.ofFn (masked mul add sub x y 1 2 (gateMasks d n k g).r12))]
    [chan (partyIndex k 1) k] (fun ms => unpack n ms >>= fun v =>
      ((check k ((k + 2) % 4) ((k + 1) % 4) w v >>= fun _ =>
        gateSecond mul add sub k x y >>= fun s =>
        return gateShares mul add k x y (masked mul add sub x y 0 1 (gateMasks d n k g).r11)
          (gateMasks d n k g).r11 (masked mul add sub x y 1 2 (gateMasks d n k g).r12)
          (gateMasks d n k g).r12 w (gateMasks d n k g).r13 s :
        PartyM 4 d G (EVector 3 n d)).run (afterFirst d n g)))
    (update q (chan (partyIndex k 2) k) rest)
  refine ⟨t, ?_⟩
  rw [ht, firstPosts, partyIndex_two, partyIndex_three]
  rfl

end Gate

/-! ## The parties of an input

The code gives the roles to the parties `i`, `i + 3`, `i + 1` and `i + 2`. -/

section Inp

variable [RandomGenerator G d] {sub : Vec n d → Vec n d → Vec n d}

/-- The roles are different. -/
theorem roles_ne (i : Fin 4) : i + 3 ≠ i ∧ i + 1 ≠ i ∧ i + 1 ≠ i + 3 ∧ i + 2 ≠ i ∧ i + 2 ≠ i + 3 ∧
    i + 2 ≠ i + 1 := by decide +revert

/-- Everybody has a role. -/
theorem eq_role (i k : Fin 4) : k = i ∨ k = i + 3 ∨ k = i + 1 ∨ k = i + 2 := by decide +revert

/-- The party that sends to its successor. -/
theorem run_inp_self (i : Fin 4) (x : Vec n d) (g : G) :
    (inp sub i x i (i + 3) (i + 1) (i + 2)).run g =
      let r := drawn d n 1 n g
      .comm [(chan i (i + 1), List.ofFn (sub x r.1))] [] fun _ =>
        .ret (![r.1, sub x r.1, 0], r.2) := by
  rw [inp, if_pos rfl, ← partyIndex_one, getMultipleNext_self]
  rfl

/-- The party that sends to the one two after it. -/
theorem run_inp_three (i : Fin 4) (x : Vec n d) (g : G) :
    (inp sub (i + 3) x i (i + 3) (i + 1) (i + 2)).run g =
      let r := drawn d n 2 n g
      .comm [(chan (i + 3) (i + 1), List.ofFn (sub x r.1))] [] fun _ =>
        .ret (![0, r.1, sub x r.1], r.2) := by
  have hidx : i + 1 = partyIndex (i + 3) 2 := by decide +revert
  rw [inp, if_neg (roles_ne i).1, if_pos rfl, hidx, getMultipleNext_self]
  rfl

/-- The receiver. -/
theorem run_inp_one (i : Fin 4) (x : Vec n d) (g : G) :
    (inp sub (i + 1) x i (i + 3) (i + 1) (i + 2)).run g =
      (receiveShares (i + 1) n 3 >>= fun res0 => receiveShares (i + 1) n 2 >>= fun other =>
        check ((i + 1 : Fin 4) : ℕ) (((i + 1 : Fin 4) + 3) % 4) (((i + 1 : Fin 4) + 2) % 4)
          other res0 >>= fun _ => return ![res0, 0, 0] : PartyM 4 d G (EVector 3 n d)).run g := by
  rw [inp, if_neg (roles_ne i).2.1, if_neg (roles_ne i).2.2.1, if_pos rfl]

/-- The party that only draws. -/
theorem run_inp_two (i : Fin 4) (x : Vec n d) (g : G) :
    (inp sub (i + 2) x i (i + 3) (i + 1) (i + 2)).run g =
      .ret (![0, 0, (drawn d n 3 n g).1], (drawn d n 3 n g).2) := by
  obtain ⟨-, -, -, n2, n23, n21⟩ := roles_ne i
  rw [inp, if_neg n2, if_neg n23, if_neg n21, if_pos rfl, getMultipleNext_self]
  rfl

end Inp

end Tva.Fantastic4pc
