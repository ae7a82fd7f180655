import TvaMpc.Protocols.Program
import TvaMpc.Protocols.Replicated3pc
import Mathlib.Tactic.FinCases

/-!
# Protocols/Replicated3pcRuns — what the three parties compute together

One lemma per primitive: started together on any inputs, the three parties finish under either send
mode, with the results, generator states and messages named in the lemma.  The primitives that
communicate are rounds around the ring, and dealings by the data party.
-/

namespace Tva.Replicated3pc

open Machinery

variable {n : ℕ} {d : DataType} {G : Type} {mode : SendMode} {g : Fin 3 → G}

theorem partyIndex_one : ∀ i : Fin 3, partyIndex i 1 = i + 1 := by decide

theorem partyIndex_two : ∀ i : Fin 3, partyIndex i 2 = i - 1 := by decide

theorem partyIndex_sub : ∀ i p : Fin 3, partyIndex i ((p : ℕ) - (i : ℕ) : ℤ) = p := by decide

/-- **A turn around the ring**: everybody sends `v` to the successor. -/
theorem yields_exchange (v : Fin 3 → Vec n d) :
    Yields mode (fun i => exchangeShares i (v i) 1 2) g (fun i => v (i - 1)) g
      (exchangeLog v 1) := by
  have h : Yields mode (fun i : Fin 3 => exchangeShares i (v i) 1 2) g _ g _ :=
    yields_exchangeShares (by decide)
  simpa only [partyIndex_two] using h

theorem yields_openShares (combine : Vec n d → Vec n d → Vec n d → Vec n d)
    (x : Fin 3 → EVector 2 n d) :
    Yields mode (fun i => openShares combine i (x i)) g
      (fun i => combine (x i 0) (x i 1) (x (i - 1) 1)) g (exchangeLog (fun i => x i 1) 1) :=
  (yields_exchange fun i => x i 1).bind_pure

section Dealing

/-- The messages of a data party. -/
def dealt (p : Fin 3) (shares : Fin 3 → EVector 2 n d) :
    List (Channel 3 × List (Word d)) :=
  [(chan p (p + 1), List.ofFn (shares 1 0)), (chan p (p + 1), List.ofFn (shares 1 1)),
    (chan p (p + 2), List.ofFn (shares 2 0)), (chan p (p + 2), List.ofFn (shares 2 1))]

/-- **A data party deals**: party `i` gets the shares number `i - p`. -/
theorem yields_secretShare {p : Fin 3} {data : Fin 3 → Vec n d}
    {getShares : Vec n d → PartyM 3 d G (Fin 3 → EVector 2 n d)}
    {shares : Fin 3 → EVector 2 n d} {g' : G}
    (hshares : (getShares (data p)).run (g p) = .ret (shares, g')) :
    Yields mode (fun i => secretShare getShares i (data i) p) g (fun i => shares (i - p))
      (Function.update g p g') fun c => msgsOn c (dealt p shares) := by
  have h1 : p + 1 ≠ p := by clear hshares; decide +revert
  have h2 : p + 2 ≠ p := by clear hshares; decide +revert
  have h12 : chan p (p + 2) ≠ chan p (p + 1) := by
    clear hshares
    decide +revert
  refine Runs.deal Channel.dest p (fun j => chan p j) (fun _ => rfl) ?_ ?_ fun j hj => ?_
  · intro x hx
    simp only [dealt, List.mem_cons, List.not_mem_nil, or_false] at hx
    rcases hx with rfl | rfl | rfl | rfl
    exacts [⟨_, h1, rfl⟩, ⟨_, h1, rfl⟩, ⟨_, h2, rfl⟩, ⟨_, h2, rfl⟩]
  · -- the data party: four sends
    have hp : (secretShare getShares p (data p) p).run (g p) = (do
        sendShares p (shares 1 0) 1
        sendShares p (shares 1 1) 1
        sendShares p (shares 2 0) 2
        sendShares p (shares 2 1) 2
        return shares 0 : PartyM 3 d G (EVector 2 n d)).run g' := by
      rw [secretShare, if_pos rfl, StateT.run_bind, hshares]
      rfl
    have hq : partyIndex p 2 = p + 2 := by clear hshares hp; decide +revert
    simp only [hp, dealt, sub_self, Function.update_self]
    rw [← partyIndex_one, ← hq]
    exact ⟨_, rfl, _, rfl, _, rfl, _, rfl, rfl⟩
  · -- another party: two receives
    have hms : msgsOn (chan p j) (dealt p shares)
        = [List.ofFn (shares (j - p) 0), List.ofFn (shares (j - p) 1)] := by
      obtain rfl | rfl : j = p + 1 ∨ j = p + 2 := by clear hshares; decide +revert
      · simp [dealt, h12]
      · simp [dealt, h12.symm]
    have hc : chan p j = chan (partyIndex j ((p : ℕ) - (j : ℕ) : ℤ)) j := by rw [partyIndex_sub]
    simp only [hms, secretShare, if_neg hj, Function.update_of_ne hj]
    rw [hc]
    refine consumes_receiveShares (consumes_receiveShares ?_)
    have hcols : ![shares (j - p) 0, shares (j - p) 1] = shares (j - p) := by
      funext k
      fin_cases k <;> rfl
    exact congrArg (fun z => Proc.ret (z, g j)) hcols

end Dealing

/-! ## Bits -/

/-- The packed component that party `i` opens. -/
def packed (x : Fin 3 → EVector 2 n d) (i : Fin 3) : Vec (compressedSize d n 0 1 0 1) d :=
  simpleBitCompress (x i 0) 0 1 0 1 ^^^ 0

/-- The bits as party `i` opens them. -/
def openedBit (x : Fin 3 → EVector 2 n d) (i : Fin 3) : Vec n d :=
  simpleBitDecompress 0 (packed x i ^^^ packed x (i - 1) ^^^ packed x (i - 1 - 1)) 0 1 0 1

/-- The arithmetic component of party `i`. -/
def bitShare (x : Fin 3 → EVector 2 n d) (i : Fin 3) : Vec n d :=
  b2aBitLocal i (simpleBitDecompress 0 (0 : Vec (compressedSize d n 0 1 0 1) d) 0 1 0 1)
    (openedBit x i)

variable (mode g) in
theorem yields_b2aBit (x : Fin 3 → EVector 2 n d) : ∃ h,
    Yields mode (fun i => b2aBit i (x i)) g
      (fun i => ![simpleBitDecompress (bitShare x i) (simpleBitCompress (bitShare x i) 0 1 0 1)
          0 1 0 1,
        simpleBitDecompress 0 (simpleBitCompress (bitShare x (i - 1)) 0 1 0 1) 0 1 0 1]) g h :=
  ⟨_, (yields_exchange (packed x)).bind <|
    (yields_openShares _ fun i => ![packed x i, packed x (i - 1)]).bind <|
    (yields_exchange fun i => simpleBitCompress (bitShare x i) 0 1 0 1).bind_pure⟩

/-! ## With the generators -/

section Generators

variable [RandomGenerator G d]

/-- What a party draws from a channel. -/
def mask (d : DataType) [RandomGenerator G d] (id n : ℕ) (g : G) : Vec n d :=
  (RandomGenerator.getMultipleNext (0 : Vec n d) id n g).1

/-- Its generator afterwards. -/
def afterNext (d : DataType) [RandomGenerator G d] (id n : ℕ) (g : G) : G :=
  (RandomGenerator.getMultipleNext (0 : Vec n d) id n g).2

/-- A vector of a party's own randomness. -/
def own (d : DataType) [RandomGenerator G d] (n : ℕ) (g : G) : Vec n d :=
  (RandomGenerator.getMultipleRandom (0 : Vec n d) n g).1

/-- Its generator afterwards. -/
def afterRandom (d : DataType) [RandomGenerator G d] (n : ℕ) (g : G) : G :=
  (RandomGenerator.getMultipleRandom (0 : Vec n d) n g).2

/-- The component that party `i` computes in a gate. -/
def gateShare (id : ℕ) (cross : EVector 2 n d → EVector 2 n d → Vec n d → Vec n d)
    (x y : Fin 3 → EVector 2 n d) (g : Fin 3 → G) (i : Fin 3) : Vec n d :=
  cross (x i) (y i) (mask d id n (g i))

theorem yields_gate (id : ℕ) (cross : EVector 2 n d → EVector 2 n d → Vec n d → Vec n d)
    (x y : Fin 3 → EVector 2 n d) : Yields mode (fun i => gate id cross i (x i) (y i)) g
      (fun i => ![gateShare id cross x y g i, gateShare id cross x y g (i - 1)])
      (fun i => afterNext d id n (g i)) (exchangeLog (gateShare id cross x y g) 1) := by
  simp only [gate, getMultipleNext_self]
  exact Yields.modifyGet_bind (yields_exchange (gateShare id cross x y g)).bind_pure

/-- The shares that a data party deals. -/
def freshShares (rest : Vec n d → Vec n d → Vec n d → Vec n d) (data : Vec n d) (g : G) :
    Fin 3 → EVector 2 n d :=
  let share1 := own d n g
  let share2 := own d n (afterRandom d n g)
  ![![share1, rest data share1 share2], ![share2, share1], ![rest data share1 share2, share2]]

theorem run_getShares (rest : Vec n d → Vec n d → Vec n d → Vec n d) (data : Vec n d) (g : G) :
    (getShares rest data).run g
      = .ret (freshShares rest data g, afterRandom d n (afterRandom d n g)) := rfl

/-- The generators after party `p` has dealt `n` values. -/
def afterDeal (d : DataType) [RandomGenerator G d] (n : ℕ) (p : Fin 3) (g : Fin 3 → G) :
    Fin 3 → G :=
  Function.update g p (afterRandom d n (afterRandom d n (g p)))

theorem yields_secretShare_fresh (rest : Vec n d → Vec n d → Vec n d → Vec n d)
    (data : Fin 3 → Vec n d) (p : Fin 3) :
    Yields mode (fun i => secretShare (getShares rest) i (data i) p) g
      (fun i => freshShares rest (data p) (g p) (i - p)) (afterDeal d n p g)
      fun c => msgsOn c (dealt p (freshShares rest (data p) (g p))) :=
  yields_secretShare (run_getShares rest (data p) (g p))

/-- `data ^ share_1 ^ share_2`. -/
abbrev restB (data share1 share2 : Vec n d) : Vec n d := data ^^^ share1 ^^^ share2

/-- `data - share_1 - share_2`. -/
abbrev restA (data share1 share2 : Vec n d) : Vec n d := data - share1 - share2

variable (mode g) in
theorem yields_redistributeSharesB (x : Fin 3 → EVector 2 n d) : ∃ h,
    Yields mode (fun i => redistributeSharesB i (x i)) g
      (fun i => (freshShares restB (x 0 0 + x 0 1) (g 0) i,
        freshShares restB (x 1 0) (afterDeal d n 0 g 1) (i - 1)))
      (afterDeal d n 1 (afterDeal d n 0 g)) h := by
  have h₁ : Yields mode (fun i => secretShareB i (x i 0 + x i 1) 0) g _ _ _ :=
    yields_secretShare_fresh restB (fun i => x i 0 + x i 1) 0
  have h₂ : Yields mode (fun i => secretShareB i (x i 0) 1) (afterDeal d n 0 g) _ _ _ :=
    yields_secretShare_fresh restB (fun i => x i 0) 1
  simp only [sub_zero] at h₁
  exact ⟨_, h₁.bind h₂.bind_pure⟩

/-! ### Division -/

/-- The generator of party `i` after a division: party `1` draws nothing. -/
def afterDiv (d : DataType) [RandomGenerator G d] (n : ℕ) (i : Fin 3) (g : G) : G :=
  match i with
  | 0 => afterNext d 4 n (afterNext d 4 n g)
  | 1 => g
  | 2 => afterNext d 3 n (afterNext d 3 n g)

/-- The quotient and error components that a party computes. -/
def divPart (i : Fin 3) (x : EVector 2 n d) (c : Word d) (g : G) : Vec n d × Vec n d :=
  match i with
  | 0 =>
    let xSumNeg := isNeg (x 0 + x 1)
    let xSum := x 0 + x 1 - scale xSumNeg c
    (quotients xSum c - mask d 4 n g,
      remainders xSum c + scale xSumNeg c - mask d 4 n (afterNext d 4 n g))
  | 1 => (quotients (x 0) c - isNeg (x 0),
    fun j => (remainders (x 0) c + scale (isNeg (x 0)) c) j - c)
  | 2 => (mask d 3 n g, mask d 3 n (afterNext d 3 n g))

omit [RandomGenerator G d] in
/-- **The division of a party does not trap**; party `2` has none. -/
def Divides (i : Fin 3) (x : EVector 2 n d) (c : Word d) : Prop :=
  match i with
  | 0 => Divisible (x 0 + x 1 - scale (isNeg (x 0 + x 1)) c) c
  | 1 => Divisible (x 0) c
  | 2 => True

omit [RandomGenerator G d] in
theorem Divides.zero {x : EVector 2 n d} {c : Word d} (h : Divides 0 x c) :
    Divisible (x 0 + x 1 - scale (isNeg (x 0 + x 1)) c) c := h

omit [RandomGenerator G d] in
theorem Divides.one {x : EVector 2 n d} {c : Word d} (h : Divides 1 x c) : Divisible (x 0) c := h

omit [RandomGenerator G d] in
theorem Divides.of_safe {c : Word d} (hc : SafeDivisor c) (i : Fin 3) (x : EVector 2 n d) :
    Divides i x c := by
  fin_cases i
  exacts [hc.divisible _, hc.divisible _, trivial]

theorem run_divConstLocal {i : Fin 3} {x : EVector 2 n d} {c : Word d} (h : Divides i x c) (g : G) :
    (divConstLocal i x c).run g = .ret (divPart i x c g, afterDiv d n i g) := by
  fin_cases i
  · simp only [divConstLocal, getMultipleNext_self, divide_eq h.zero, remainder_eq h.zero]
    rfl
  · simp only [divConstLocal, divide_eq h.one, remainder_eq h.one]
    rfl
  · simp only [divConstLocal, getMultipleNext_self]
    rfl

/-- A party whose division traps stops there. -/
theorem run_divConstLocal_trap {i : Fin 3} {x : EVector 2 n d} {c : Word d} (h : ¬Divides i x c)
    (g : G) : (divConstLocal i x c).run g = .exit .trap := by
  fin_cases i
  · simp only [divConstLocal, getMultipleNext_self, divide_eq_none fun h' => h h']
    rfl
  · simp only [divConstLocal, divide_eq_none fun h' => h h']
    rfl
  · exact absurd trivial h

variable (mode g) in
theorem yields_divConstA {x : Fin 3 → EVector 2 n d} {c : Word d} (h : ∀ i, Divides i (x i) c) :
    ∃ h, Yields mode (fun i => divConstA i (x i) c) g
      (fun i => (![(divPart i (x i) c (g i)).1, (divPart (i - 1) (x (i - 1)) c (g (i - 1))).1],
        ![(divPart i (x i) c (g i)).2, (divPart (i - 1) (x (i - 1)) c (g (i - 1))).2]))
      (fun i => afterDiv d n i (g i)) h :=
  ⟨_, (Yields.of_run fun i => run_divConstLocal (h i) (g i)).bind <|
    (yields_exchange fun i => (divPart i (x i) c (g i)).1).bind <|
      (yields_exchange fun i => (divPart i (x i) c (g i)).2).bind_pure⟩

end Generators

/-! ## Ownership -/

section Ownership

variable [RandomGenerator G d] {i : Fin 3}

theorem ownedBy_gate (id : ℕ) (cross : EVector 2 n d → EVector 2 n d → Vec n d → Vec n d)
    (x y : EVector 2 n d) : OwnedBy (G := G) i (gate id cross i x y) :=
  (ownedBy_getMultipleNext id n).bind fun _ =>
    (ownedBy_exchangeShares _ _ _ _).bind fun _ => .pure _

omit [RandomGenerator G d] in
theorem ownedBy_openShares (combine : Vec n d → Vec n d → Vec n d → Vec n d) (x : EVector 2 n d) :
    OwnedBy (G := G) i (openShares combine i x) :=
  (ownedBy_exchangeShares _ _ _ _).bind fun _ => .pure _

theorem ownedBy_secretShare (rest : Vec n d → Vec n d → Vec n d → Vec n d) (data : Vec n d)
    (p : Fin 3) : OwnedBy (G := G) i (secretShare (getShares rest) i data p) := by
  rw [secretShare]
  split
  · exact (Party.Owned.bind (.modifyGet _) fun _ => .bind (.modifyGet _) fun _ => .pure _).bind
      fun _ => (ownedBy_sendShares _ _ _).bind fun _ => (ownedBy_sendShares _ _ _).bind fun _ =>
        (ownedBy_sendShares _ _ _).bind fun _ => (ownedBy_sendShares _ _ _).bind fun _ => .pure _
  · exact (ownedBy_receiveShares _ _).bind fun _ =>
      (ownedBy_receiveShares _ _).bind fun _ => .pure _

theorem ownedBy_divConstLocal (x : EVector 2 n d) (c : Word d) :
    OwnedBy (G := G) i (divConstLocal i x c) := by
  fin_cases i
  · exact (ownedBy_getMultipleNext 4 n).bind fun _ => (ownedBy_orTrap _).bind fun _ =>
      (ownedBy_getMultipleNext 4 n).bind fun _ => (ownedBy_orTrap _).bind fun _ => .pure _
  · exact (ownedBy_orTrap _).bind fun _ => (ownedBy_orTrap _).bind fun _ => .pure _
  · exact (ownedBy_getMultipleNext 3 n).bind fun _ =>
      (ownedBy_getMultipleNext 3 n).bind fun _ => .pure _

theorem ownedBy_multiplyA (x y : EVector 2 n d) : OwnedBy (G := G) i (multiplyA i x y) := by
  rw [multiplyA]
  exact ownedBy_gate _ _ x y

theorem ownedBy_andB (x y : EVector 2 n d) : OwnedBy (G := G) i (andB i x y) := by
  rw [andB]
  exact ownedBy_gate _ _ x y

/-- **The primitives keep to the party's ends of the channels.** -/
theorem ownedBy_protocol (i : Fin 3) : Protocol.OwnedBy i (protocol d G i) where
  multiplyA := ownedBy_multiplyA
  divConstA _ _ := (ownedBy_divConstLocal _ _).bind fun _ => (ownedBy_exchangeShares _ _ _ _).bind
    fun _ => (ownedBy_exchangeShares _ _ _ _).bind fun _ => .pure _
  andB := ownedBy_andB
  b2aBit _ := (ownedBy_exchangeShares _ _ _ _).bind fun _ => (ownedBy_openShares _ _).bind
    fun _ => (ownedBy_exchangeShares _ _ _ _).bind fun _ => .pure _
  redistributeSharesB _ := (ownedBy_secretShare _ _ 0).bind fun _ =>
    (ownedBy_secretShare _ _ 1).bind fun _ => .pure _
  openSharesA x := ownedBy_openShares (fun a b c => a + b + c) x
  openSharesB x := ownedBy_openShares (fun a b c => a ^^^ b ^^^ c) x
  secretShareA data p := ownedBy_secretShare _ data p
  secretShareB data p := ownedBy_secretShare _ data p

end Ownership

/-- Streams of zeros. -/
def zeroStreams (d : DataType) (_ : Fin 3) : Streams d := ⟨fun _ _ => 0, fun _ => 0⟩

end Tva.Replicated3pc
