import TvaMpc.Protocols.Fantastic4pcEnds

/-!
# Protocols/Fantastic4pcRuns — what the four parties compute together

One lemma per primitive, as for three parties.  The products, and the inputs from two parties, need
buffered sends; a product also needs that the copies which the parties compare agree.
-/

namespace Tva.Fantastic4pc

open Machinery Function

variable {n : ℕ} {d : DataType} {G : Type} {mode : SendMode}

/-! ## Products -/

section Gate

variable [RandomGenerator G d] {mul add sub : Vec n d → Vec n d → Vec n d}
variable {x y : Fin 4 → EVector 3 n d} {g : Fin 4 → G}

omit [RandomGenerator G d] in
/-- The two receives of the second round. -/
theorem gathers_receiveSecond {α : Type} {k : Fin 4} (hk : k = 2 ∨ k = 3) (f : Vec n d → α) (g : G)
    (u : Vec n d) :
    Gathers [(chan (k + 1) k, List.ofFn u), (chan (k + 3) k, List.ofFn u)]
      ((receiveSecond k >>= fun u => (return f u : PartyM 4 d G α)).run g) (.ret (f u, g)) := by
  rw [receiveSecond, if_pos hk, ← partyIndex_one, ← partyIndex_three]
  simp only [bind_assoc]
  refine gathers_receiveShares (gathers_receiveShares ?_)
  rw [run_check_bind, if_pos rfl]
  rfl

/-- **The second round**: everybody sends one message, the parties `2` and `3` take in two copies
each. -/
theorem yields_gateSecond (hn : 3 ≤ n) {α : Type} (out : Fin 4 → Second (Vec n d) → α)
    {u : Fin 4 → Vec n d}
    (hu : ∀ i, u i = masked mul add sub (x i) (y i) 0 2 (secondMasks d n i (g i)).2.1)
    (hagree : ∀ i, i = 2 ∨ i = 3 → u (i + 1) = u (i + 3)) : ∃ h,
    Yields .buffered
      (fun i => gateSecond mul add sub i (x i) (y i) >>= fun s =>
        (return out i s : PartyM 4 d G α)) g
      (fun i => out i
        ⟨if i = 0 ∨ i = 3 then (secondMasks d n i (g i)).2.1 else 0,
          if i = 0 ∨ i = 3 then 0 else (secondMasks d n i (g i)).2.1, (secondMasks d n i (g i)).1,
          u i, if i = 2 ∨ i = 3 then u (i + 1) else 0⟩)
      (fun i => (secondMasks d n i (g i)).2.2) h := by
  obtain rfl : u = fun i => masked mul add sub (x i) (y i) 0 2 (secondMasks d n i (g i)).2.1 :=
    funext hu
  let u (i : Fin 4) := masked mul add sub (x i) (y i) 0 2 (secondMasks d n i (g i)).2.1
  let sent (i : Fin 4) : List (Channel 4 × List (Word d)) :=
    [(chan i (secondTo i), List.ofFn (u i))]
  let taken (i : Fin 4) : List (Channel 4 × List (Word d)) :=
    if i = 2 ∨ i = 3 then
      [(chan (i + 1) i, List.ofFn (u (i + 1))), (chan (i + 3) i, List.ofFn (u (i + 3)))]
    else []
  refine ⟨_, Runs.scatter Channel.source Channel.dest (l := sent) (w := taken) ?_ ?_ ?_
    (fun i => ⟨_, run_gateSecond_bind hn i (x i) (y i) (g i) _, rfl⟩) fun i => ?_⟩
  · intro i z hz
    obtain rfl := List.mem_singleton.mp hz
    rfl
  · intro i z hz
    simp only [taken] at hz
    split at hz
    · simp only [List.mem_cons, List.not_mem_nil, or_false] at hz
      rcases hz with rfl | rfl <;> rfl
    · cases hz
  · rintro ⟨i, j, tag⟩
    by_cases htag : tag = msgTag
    · subst htag
      fin_cases i <;> fin_cases j <;> simp [sent, taken, secondTo, chan, msgsOn]
    · have hne : ∀ i' j', chan i' j' ≠ ⟨i, j, tag⟩ := fun _ _ e =>
        htag (congrArg Channel.tag e).symm
      have h₁ : msgsOn ⟨i, j, tag⟩ (taken j) = [] := msgsOn_eq_nil fun z hz => by
        simp only [taken] at hz
        split at hz
        · simp only [List.mem_cons, List.not_mem_nil, or_false] at hz
          rcases hz with rfl | rfl <;> exact hne _ _
        · cases hz
      have h₂ : msgsOn ⟨i, j, tag⟩ (sent i) = [] := msgsOn_eq_nil fun z hz => by
        obtain rfl := List.mem_singleton.mp hz
        exact hne _ _
      rw [h₁, h₂]
  · simp only [taken]
    split
    · rename_i hi
      have hcopy : u (i + 3) = u (i + 1) := (hagree i hi).symm
      rw [hcopy]
      exact gathers_receiveSecond hi _ _ _
    · rename_i hi
      rw [receiveSecond, if_neg hi]
      rfl

/-- **A product without accusations.** -/
theorem yields_gate (hn : 3 ≤ n) (w₁ w₂ u : Fin 4 → Vec n d)
    (hw₁ : ∀ i, w₁ i = masked mul add sub (x i) (y i) 0 1 (gateMasks d n i (g i)).r11)
    (hw₂ : ∀ i, w₂ i = masked mul add sub (x i) (y i) 1 2 (gateMasks d n i (g i)).r12)
    (hu : ∀ i, u i = masked mul add sub (x i) (y i) 0 2 (gateMasks d n i (g i)).r2)
    (hfirst : ∀ i, w₁ (i + 2) = w₂ (i + 1)) (hsecond : ∀ i, i = 2 ∨ i = 3 → u (i + 1) = u (i + 3)) :
    ∃ h, Yields .buffered (fun i => gate mul add sub i (x i) (y i)) g
      (fun i => gateOutput mul add sub i (x i) (y i) (gateMasks d n i (g i)) (w₁ (i + 2))
        (if i = 2 ∨ i = 3 then u (i + 1) else 0)) (fun i => afterGate d n i (g i)) h := by
  have h₁ : Yields .buffered (fun i : Fin 4 => exchangeShares i (w₁ i) 2 2)
      (fun i => afterFirst d n (g i)) _ _ _ := yields_exchangeShares (by decide)
  have h₂ : Yields .buffered (fun i : Fin 4 => exchangeShares i (w₂ i) 3 1)
      (fun i => afterFirst d n (g i)) _ _ _ := yields_exchangeShares (by decide)
  simp only [partyIndex_two] at h₁
  simp only [partyIndex_one] at h₂
  have hcheck : Yields .buffered (fun i : Fin 4 =>
      check i ((i + 2) % 4) ((i + 1) % 4) (w₁ (i + 2)) (w₂ (i + 1)))
      (fun i => afterFirst d n (g i)) (fun _ => ()) _ _ := Yields.of_run fun i => by
    rw [check, if_pos (hfirst i)]
    rfl
  obtain ⟨h, h₃⟩ := yields_gateSecond hn (fun i s => gateShares mul add i (x i) (y i) (w₁ i)
    (gateMasks d n i (g i)).r11 (w₂ i) (gateMasks d n i (g i)).r12 (w₁ (i + 2))
    (gateMasks d n i (g i)).r13 s) (g := fun i => afterFirst d n (g i)) hu hsecond
  have hall := h₁.bind (f := fun i v => do
    let v' ← exchangeShares i (w₂ i) 3 1
    check i ((i + 2) % 4) ((i + 1) % 4) v v'
    let s ← gateSecond mul add sub i (x i) (y i)
    return gateShares mul add i (x i) (y i) (w₁ i) (gateMasks d n i (g i)).r11 (w₂ i)
      (gateMasks d n i (g i)).r12 v (gateMasks d n i (g i)).r13 s) (h₂.bind (hcheck.bind h₃))
  obtain rfl : w₁ = _ := funext hw₁
  obtain rfl : w₂ = _ := funext hw₂
  obtain rfl : u = _ := funext hu
  exact ⟨_, hall.of_run_eq fun i => run_gate hn i (x i) (y i) (g i)⟩

end Gate

/-! ## Input from two parties -/

section Inp

variable [RandomGenerator G d] {sub : Vec n d → Vec n d → Vec n d} {g : Fin 4 → G}

/-- What party `k` draws in an input with the roles given by `i`. -/
def inpMask (d : DataType) [RandomGenerator G d] (n : ℕ) (i k : Fin 4) (g : G) : Vec n d × G :=
  if k = i then drawn d n 1 n g
  else if k = i + 3 then drawn d n 2 n g
  else if k = i + 2 then drawn d n 3 n g
  else (0, g)

/-- What party `k` returns, when it draws `r` and the message is `m`. -/
def inpOutput {V : Type} [Zero V] (i k : Fin 4) (r m : V) : Fin 3 → V :=
  if k = i then ![r, m, 0]
  else if k = i + 3 then ![0, r, m]
  else if k = i + 1 then ![m, 0, 0]
  else ![0, 0, r]

/-- What one of the two senders sends. -/
def inpMessage (sub : Vec n d → Vec n d → Vec n d) (x : Fin 4 → Vec n d) (g : Fin 4 → G)
    (i j : Fin 4) : Vec n d :=
  sub (x j) (inpMask d n i j (g j)).1

/-- The two senders. -/
theorem run_inp_sender {i j : Fin 4} {x : Fin 4 → Vec n d} (hj : j = i ∨ j = i + 3) :
    (inp sub j (x j) i (i + 3) (i + 1) (i + 2)).run (g j) =
      .comm [(chan j (i + 1), List.ofFn (inpMessage sub x g i j))] [] fun _ =>
        .ret (inpOutput i j (inpMask d n i j (g j)).1 (inpMessage sub x g i j),
          (inpMask d n i j (g j)).2) := by
  have hne := (roles_ne i).1
  rcases hj with rfl | rfl
  · have hmask : inpMask d n j j (g j) = drawn d n 1 n (g j) := if_pos rfl
    rw [run_inp_self, inpMessage, hmask, inpOutput, if_pos rfl]
  · have hmask : inpMask d n i (i + 3) (g (i + 3)) = drawn d n 2 n (g (i + 3)) :=
      (if_neg hne).trans (if_pos rfl)
    rw [run_inp_three, inpMessage, hmask, inpOutput, if_neg hne, if_pos rfl]

/-- **An input whose two messages agree.** -/
theorem yields_inp (i : Fin 4) {x : Fin 4 → Vec n d} {m : Vec n d}
    (hself : m = inpMessage sub x g i i) (hthree : m = inpMessage sub x g i (i + 3)) : ∃ h,
    Yields .buffered (fun k => inp sub k (x k) i (i + 3) (i + 1) (i + 2)) g
      (fun k => inpOutput i k (inpMask d n i k (g k)).1 m)
      (fun k => (inpMask d n i k (g k)).2) h := by
  obtain ⟨n31, n1, n13, n2, n23, n21⟩ := roles_ne i
  have mtwo : inpMask d n i (i + 2) (g (i + 2)) = drawn d n 3 n (g (i + 2)) :=
    (if_neg n2).trans ((if_neg n23).trans (if_pos rfl))
  have mone : inpMask d n i (i + 1) (g (i + 1)) = (0, g (i + 1)) :=
    (if_neg n1).trans ((if_neg n13).trans (if_neg n21.symm))
  let result (k : Fin 4) : EVector 3 n d × G :=
    (inpOutput i k (inpMask d n i k (g k)).1 m, (inpMask d n i k (g k)).2)
  let sent (k : Fin 4) : List (Channel 4 × List (Word d)) :=
    if k = i ∨ k = i + 3 then [(chan k (i + 1), List.ofFn m)] else []
  let taken (k : Fin 4) : List (Channel 4 × List (Word d)) :=
    if k = i + 1 then [(chan i k, List.ofFn m), (chan (i + 3) k, List.ofFn m)] else []
  let rest (k : Fin 4) : Proc (Channel 4) (List (Word d)) Exit (EVector 3 n d × G) :=
    if k = i + 1 then (inp sub k (x k) i (i + 3) (i + 1) (i + 2)).run (g k) else .ret (result k)
  have hemit : ∀ k, Emits (sent k) ((inp sub k (x k) i (i + 3) (i + 1) (i + 2)).run (g k))
      (rest k) := by
    intro k
    by_cases hk : k = i ∨ k = i + 3
    · have hm : m = inpMessage sub x g i k := by
        rcases hk with rfl | rfl
        exacts [hself, hthree]
      have hne : k ≠ i + 1 := by
        rcases hk with rfl | rfl
        exacts [n1.symm, n13.symm]
      simp only [sent, rest, result, run_inp_sender hk, if_pos hk, if_neg hne, ← hm]
      exact ⟨_, rfl, rfl⟩
    · simp only [sent, rest, if_neg hk]
      obtain hk' | hk' := (or_assoc.mpr (eq_role i k)).resolve_left hk
      · rw [if_pos hk']
        rfl
      · subst hk'
        simp only [result, run_inp_two, mtwo, inpOutput, if_neg n2, if_neg n23, if_neg n21]
        rfl
  have hgather : ∀ k, Gathers (taken k) (rest k) (.ret (result k)) := by
    intro k
    by_cases hk : k = i + 1
    · subst hk
      have hi : partyIndex (i + 1) 3 = i := by clear * -; decide +revert
      have hi' : partyIndex (i + 1) 2 = i + 3 := by clear * -; decide +revert
      simp only [taken, rest, result, if_true, run_inp_one, mone, inpOutput, if_neg n1, if_neg n13]
      have c₀ : chan i (i + 1) = chan (partyIndex (i + 1) 3) (i + 1) := by rw [hi]
      have c₁ : chan (i + 3) (i + 1) = chan (partyIndex (i + 1) 2) (i + 1) := by rw [hi']
      rw [c₀, c₁]
      refine gathers_receiveShares (gathers_receiveShares ?_)
      rw [run_check_bind, if_pos rfl]
      rfl
    · simp only [taken, rest, if_neg hk]
      rfl
  refine ⟨_, Runs.scatter Channel.source Channel.dest (l := sent) (w := taken) ?_ ?_ ?_ hemit
    hgather⟩
  · intro k z hz
    simp only [sent] at hz
    split at hz
    · obtain rfl := List.mem_singleton.mp hz
      rfl
    · cases hz
  · intro k z hz
    simp only [taken] at hz
    split at hz
    · simp only [List.mem_cons, List.not_mem_nil, or_false] at hz
      rcases hz with rfl | rfl <;> rfl
    · cases hz
  · rintro ⟨j, k, tag⟩
    have htaken : msgsOn ⟨j, k, tag⟩ (taken k)
        = if tag = msgTag ∧ k = i + 1 ∧ (j = i ∨ j = i + 3) then [List.ofFn m] else [] := by
      simp only [taken]
      split
      · rename_i hk
        rcases eq_or_ne j i with rfl | hj
        · simp [chan, hk, eq_comm]
        · simp [chan, hk, hj, hj.symm, eq_comm, and_comm]
      · rename_i hk
        simp [hk]
    have hsent : msgsOn ⟨j, k, tag⟩ (sent j)
        = if tag = msgTag ∧ k = i + 1 ∧ (j = i ∨ j = i + 3) then [List.ofFn m] else [] := by
      simp only [sent]
      split
      · rename_i hj
        have hiff : chan j (i + 1) = ⟨j, k, tag⟩ ↔ tag = msgTag ∧ k = i + 1 ∧ (j = i ∨ j = i + 3) :=
          ⟨fun e => by cases e; exact ⟨rfl, rfl, hj⟩, fun h => by rw [h.1, h.2.1]; rfl⟩
        rw [msgsOn_cons, msgsOn_nil, List.append_nil]
        exact if_congr hiff rfl rfl
      · rename_i hj
        simp [hj]
    exact htaken.trans hsent.symm

end Inp

/-! ## Division -/

section Division

variable {k : Fin 4} {x : EVector 3 n d} {c : Word d}

/-- The two components that a party adds up. -/
def dividend (k : Fin 4) (x : EVector 3 n d) : Vec n d :=
  if k = 0 ∨ k = 2 then x 0 + x 1 else x 1 + x 2

/-- Their quotient and error. -/
def divPart (k : Fin 4) (x : EVector 3 n d) (c : Word d) : Vec n d × Vec n d :=
  let sum := dividend k x
  let err := remainders sum c + scale (isNeg sum) c
  (quotients sum c - isNeg sum, if k = 0 ∨ k = 3 then fun j => err j - c else err)

theorem run_divConstLocal (h : Divisible (dividend k x) c) (g : G) :
    (divConstLocal k x c).run g = .ret (divPart k x c, g) := by
  rw [dividend] at h
  simp only [divConstLocal, divide_eq h, remainder_eq h]
  rfl

/-- A party whose division traps stops there. -/
theorem run_divConstLocal_trap (h : ¬Divisible (dividend k x) c) (g : G) :
    (divConstLocal k x c).run g = .exit .trap := by
  rw [dividend] at h
  simp only [divConstLocal, divide_eq_none h]
  rfl

end Division

/-! ## Opening and sharing -/

section Opening

variable {g : Fin 4 → G}

/-- **An opening**: everybody gets the component of the predecessor. -/
theorem yields_openShares (add : Vec n d → Vec n d → Vec n d) (x : Fin 4 → EVector 3 n d) :
    Yields mode (fun i => openShares add i (x i)) g
      (fun i => add (add (add (x i 0) (x i 1)) (x i 2)) (x (i + 3) 0)) g
      (exchangeLog (fun i => x i 0) 1) := by
  have h : Yields mode (fun i : Fin 4 => exchangeShares i (x i 0) 1 3) g _ g _ :=
    yields_exchangeShares (by decide)
  simp only [partyIndex_three] at h
  exact h.bind_pure

/-- What a party opens in `b2a_bit`: its low bits, packed. -/
def packed (x : EVector 3 n d) : EVector 3 (compressedSize d n 0 1 0 1) d :=
  fun k => simpleBitCompress (lowBit (x k ^^^ 0)) 0 1 0 1

/-- The bits in what it opened. -/
def unpacked (n : ℕ) (opened : Vec (compressedSize d n 0 1 0 1) d) : Vec n d :=
  simpleBitDecompress 0 opened 0 1 0 1

/-- The arithmetic shares of bits: party `0` holds the opened one. -/
def bitShares (i : Fin 4) (opened : Vec n d) : EVector 3 n d :=
  ![b2aBitColumn opened 0 (decide ((i : ℕ) = 0)),
    b2aBitColumn opened 0 (decide (((i : ℕ) + 1) % 4 = 0)),
    b2aBitColumn opened 0 (decide (((i : ℕ) + 2) % 4 = 0))]

/-- `b2a_bit` is an opening with packing around it. -/
theorem b2aBit_eq (i : Fin 4) (x : EVector 3 n d) :
    b2aBit (G := G) i x = openSharesB i (packed x) >>= fun o => pure (bitShares i (unpacked n o)) :=
  rfl

theorem yields_b2aBit (x : Fin 4 → EVector 3 n d) : Yields mode (fun i => b2aBit i (x i)) g
    (fun i => bitShares i (unpacked n
      (packed (x i) 0 ^^^ packed (x i) 1 ^^^ packed (x i) 2 ^^^ packed (x (i + 3)) 0))) g
    (exchangeLog (fun i => packed (x i) 0) 1) := by
  simp only [b2aBit_eq]
  exact (yields_openShares (· ^^^ ·) fun i => packed (x i)).bind_pure

end Opening

section Sharing

variable [RandomGenerator G d] {g : Fin 4 → G}

/-- A vector of a party's own randomness, and its generator afterwards. -/
def random (d : DataType) [RandomGenerator G d] (n : ℕ) (g : G) : Vec n d × G :=
  RandomGenerator.getMultipleRandom (0 : Vec n d) n g

/-- The four components that a data party makes, as they are dealt. -/
def freshComponents (sub : Vec n d → Vec n d → Vec n d) (data : Vec n d) (g : G) :
    Fin 4 → Vec n d :=
  let share1 := random d n g
  let share2 := random d n share1.2
  let share3 := random d n share2.2
  ![share2.1, share3.1, sub (sub (sub data share1.1) share2.1) share3.1, share1.1]

/-- The generators after party `0` has dealt. -/
def afterDeal (d : DataType) [RandomGenerator G d] (n : ℕ) (g : Fin 4 → G) : Fin 4 → G :=
  update g 0 (random d n (random d n (random d n (g 0)).2).2).2

/-- The messages of party `0`. -/
def dealt (c : Fin 4 → Vec n d) : List (Channel 4 × List (Word d)) :=
  [(chan 0 1, List.ofFn (c 1)), (chan 0 1, List.ofFn (c 2)), (chan 0 1, List.ofFn (c 3)),
    (chan 0 2, List.ofFn (c 2)), (chan 0 2, List.ofFn (c 3)), (chan 0 2, List.ofFn (c 0)),
    (chan 0 3, List.ofFn (c 3)), (chan 0 3, List.ofFn (c 0)), (chan 0 3, List.ofFn (c 1))]

/-- **Party `0` deals.** -/
theorem yields_secretShare (sub : Vec n d → Vec n d → Vec n d) (data : Fin 4 → Vec n d) :
    Yields mode (fun i => secretShare sub i (data i) 0) g
      (fun i => ![freshComponents sub (data 0) (g 0) i, freshComponents sub (data 0) (g 0) (i + 1),
        freshComponents sub (data 0) (g 0) (i + 2)]) (afterDeal d n g)
      fun c => msgsOn c (dealt (freshComponents sub (data 0) (g 0))) := by
  refine Runs.deal Channel.dest 0 (fun j => chan 0 j) (fun _ => rfl) ?_ ?_ fun j hj => ?_
  · intro z hz
    simp only [dealt, List.mem_cons, List.not_mem_nil, or_false] at hz
    rcases hz with rfl | rfl | rfl | rfl | rfl | rfl | rfl | rfl | rfl
    exacts [⟨1, by decide, rfl⟩, ⟨1, by decide, rfl⟩, ⟨1, by decide, rfl⟩, ⟨2, by decide, rfl⟩,
      ⟨2, by decide, rfl⟩, ⟨2, by decide, rfl⟩, ⟨3, by decide, rfl⟩, ⟨3, by decide, rfl⟩,
      ⟨3, by decide, rfl⟩]
  · exact ⟨_, rfl, _, rfl, _, rfl, _, rfl, _, rfl, _, rfl, _, rfl, _, rfl, _, rfl, rfl⟩
  · -- the other parties: three receives
    have hms : msgsOn (chan 0 j) (dealt (freshComponents sub (data 0) (g 0)))
        = [List.ofFn (freshComponents sub (data 0) (g 0) j),
          List.ofFn (freshComponents sub (data 0) (g 0) (j + 1)),
          List.ofFn (freshComponents sub (data 0) (g 0) (j + 2))] := by
      fin_cases j
      · exact absurd rfl hj
      · simp [dealt]
      · simp [dealt]
      · simp [dealt]
    have hc : chan 0 j = chan (partyIndex j (((0 : Fin 4) : ℕ) - (j : ℕ) : ℤ)) j := by
      clear * -
      decide +revert
    simp only [hms, secretShare, if_neg hj, afterDeal, update_of_ne hj]
    rw [hc]
    exact consumes_receiveShares (consumes_receiveShares (consumes_receiveShares rfl))

end Sharing

/-! ## Ownership -/

section Ownership

variable [RandomGenerator G d] {i : Fin 4}

theorem ownedBy_inp (sub : Vec n d → Vec n d → Vec n d) (x : Vec n d) (a b e f : Fin 4) :
    OwnedBy (G := G) i (inp sub i x a b e f) := by
  rw [inp]
  split
  · exact (ownedBy_getMultipleNext _ _).bind fun _ =>
      (ownedBy_sendShares _ _ _).bind fun _ => .pure _
  split
  · exact (ownedBy_getMultipleNext _ _).bind fun _ =>
      (ownedBy_sendShares _ _ _).bind fun _ => .pure _
  split
  · exact (ownedBy_receiveShares _ _).bind fun _ => (ownedBy_receiveShares _ _).bind fun _ =>
      (ownedBy_check _ _ _ _ _).bind fun _ => .pure _
  split
  · exact (ownedBy_getMultipleNext _ _).bind fun _ => .pure _
  · exact .pure _

omit [RandomGenerator G d] in
theorem ownedBy_divConstLocal (x : EVector 3 n d) (c : Word d) :
    OwnedBy (G := G) i (divConstLocal i x c) :=
  (ownedBy_orTrap _).bind fun _ => (ownedBy_orTrap _).bind fun _ => .pure _

omit [RandomGenerator G d] in
theorem ownedBy_openShares (add : Vec n d → Vec n d → Vec n d) (x : EVector 3 n d) :
    OwnedBy (G := G) i (openShares add i x) :=
  (ownedBy_exchangeShares _ _ _ _).bind fun _ => .pure _

theorem ownedBy_secretShare (sub : Vec n d → Vec n d → Vec n d) (data : Vec n d) (p : Fin 4) :
    OwnedBy (G := G) i (secretShare sub i data p) := by
  rw [secretShare]
  split
  · have hshares : OwnedBy (G := G) i (getShares sub data) :=
      Party.Owned.bind (.modifyGet _) fun _ => .bind (.modifyGet _) fun _ => .bind (.modifyGet _)
        fun _ => .pure _
    exact hshares.bind fun _ => (ownedBy_sendShares _ _ _).bind fun _ =>
      (ownedBy_sendShares _ _ _).bind fun _ => (ownedBy_sendShares _ _ _).bind fun _ =>
      (ownedBy_sendShares _ _ _).bind fun _ => (ownedBy_sendShares _ _ _).bind fun _ =>
      (ownedBy_sendShares _ _ _).bind fun _ => (ownedBy_sendShares _ _ _).bind fun _ =>
      (ownedBy_sendShares _ _ _).bind fun _ => (ownedBy_sendShares _ _ _).bind fun _ => .pure _
  · exact (ownedBy_receiveShares _ _).bind fun _ => (ownedBy_receiveShares _ _).bind fun _ =>
      (ownedBy_receiveShares _ _).bind fun _ => .pure _

/-- **The primitives keep to the party's ends of the channels.** -/
theorem ownedBy_protocol (i : Fin 4) : Protocol.OwnedBy i (protocol d G i) where
  multiplyA x y := ownedBy_gate x y
  divConstA _ _ := (ownedBy_divConstLocal _ _).bind fun _ => (ownedBy_inp _ _ 0 3 1 2).bind fun _ =>
    (ownedBy_inp _ _ 2 1 3 0).bind fun _ => (ownedBy_inp _ _ 0 3 1 2).bind fun _ =>
      (ownedBy_inp _ _ 2 1 3 0).bind fun _ => .pure _
  andB x y := ownedBy_gate x y
  b2aBit _ := (ownedBy_openShares _ _).bind fun _ => .pure _
  redistributeSharesB _ := (ownedBy_inp _ _ 0 3 1 2).bind fun _ =>
    (ownedBy_inp _ _ 2 1 3 0).bind fun _ => .pure _
  openSharesA x := ownedBy_openShares (· + ·) x
  openSharesB x := ownedBy_openShares (· ^^^ ·) x
  secretShareA data p := ownedBy_secretShare (· - ·) data p
  secretShareB data p := ownedBy_secretShare (· ^^^ ·) data p

end Ownership

end Tva.Fantastic4pc
