import TvaMpc.Machinery.Label
import TvaMpc.Protocols.Replicated3pcRuns

/-!
# Protocols/Replicated3pcOrder — sequences of calls finish, in one way

Every call of the three parties finishes under rendezvous, but for a division that traps.  So a
sequence of calls finishes exactly where no division on the way traps (`calls_finish_iff`), each
receive being matched with a message of its own call.  `ensures_call` counts on the way what the
parties draw from the seeds they share.
-/

namespace Tva.Replicated3pc

open Machinery

variable {n : ℕ} {d : DataType} {G : Type} [RandomGenerator G d] {mode : SendMode}
variable {Γ Δ ts : List Ty}

/-! ## What is drawn -/

/-- The elements that each party draws from its shared seeds in a boolean addition: one gate, and
three more in every level. -/
def adderDraws (d : DataType) (n : ℕ) : ℕ :=
  n + (Protocol.adderLevels d.maxBitsNumber d.maxBitsNumber 2).length * (n + n + n)

/-- What each party draws in a step. -/
def opDraws {Γ ts : List Ty} : Op 3 d Γ ts → ℕ
  | @Op.multiplyA _ _ _ n _ _ => n
  | @Op.andB _ _ _ n _ _ => n
  | @Op.a2b _ _ _ n _ => adderDraws d n
  | _ => 0

/-- What each party draws in a call, leaving divisions aside. -/
def callDraws {Γ ts : List Ty} : Call 3 d Γ ts → ℕ
  | .op op => opDraws op
  | _ => 0

/-- What the parties `0` and `2`, but not party `1`, draw in a call. -/
def divDraws {Γ ts : List Ty} : Call 3 d Γ ts → ℕ
  | @Call.divConstA _ _ _ n _ _ => n + n
  | _ => 0

/-- Party `i` in a call. -/
def partyDraws (i : Fin 3) (call : Call 3 d Γ ts) : ℕ :=
  callDraws call + if i = 1 then 0 else divDraws call

/-- Party `i` in a sequence of calls. -/
def progDraws (i : Fin 3) {Γ Δ : List Ty} : Prog (Call 3 d) Γ Δ → ℕ
  | .done => 0
  | .step call rest => partyDraws i call + progDraws i rest

/-- **A count of the draws**: `D i t g` says that party `i` has drawn `t` elements from its shared
seeds when its generator is in state `g`. -/
structure Counts (d : DataType) [RandomGenerator G d] (D : Fin 3 → ℕ → G → Prop) : Prop where
  next {i : Fin 3} {t : ℕ} {g : G} (id n : ℕ) (h : D i t g) : D i (t + n) (afterNext d id n g)
  random {i : Fin 3} {t : ℕ} {g : G} (n : ℕ) (h : D i t g) : D i t (afterRandom d n g)

section Counting

/-- Every party has drawn what `T` says. -/
def Drew (D : Fin 3 → ℕ → G → Prop) (T : Fin 3 → ℕ) (g : Fin 3 → G) : Prop :=
  ∀ i, D i (T i) (g i)

variable {D : Fin 3 → ℕ → G → Prop} {T : Fin 3 → ℕ} {g : Fin 3 → G}

theorem Drew.afterDeal (hD : Counts d D) (hg : Drew D T g) (n : ℕ) (p : Fin 3) :
    Drew D T (afterDeal d n p g) := by
  intro i
  rcases eq_or_ne i p with rfl | hi
  · rw [Replicated3pc.afterDeal, Function.update_self]
    exact hD.random n (hD.random n (hg i))
  · rw [Replicated3pc.afterDeal, Function.update_of_ne hi]
    exact hg i

theorem Drew.afterDiv (hD : Counts d D) (hg : Drew D T g) (n : ℕ) :
    Drew D (fun i => T i + if i = 1 then 0 else n + n) fun i => afterDiv d n i (g i) := by
  intro i
  fin_cases i
  · have h := hD.next 4 n (hD.next 4 n (hg 0))
    rwa [Nat.add_assoc] at h
  · exact hg 1
  · have h := hD.next 3 n (hD.next 3 n (hg 2))
    rwa [Nat.add_assoc] at h

theorem ensures_drawGate (hD : Counts d D) (hg : Drew D T g) (id : ℕ)
    (cross : EVector 2 n d → EVector 2 n d → Vec n d → Vec n d) (x y : Fin 3 → EVector 2 n d) :
    Ensures mode (fun i => gate id cross i (x i) (y i)) g fun _ g' _ =>
      Drew D (fun i => T i + n) g' :=
  .of_yields (yields_gate id cross x y) fun i => hD.next id n (hg i)

theorem ensures_drawMultiplyA (hD : Counts d D) (hg : Drew D T g) (x y : Fin 3 → EVector 2 n d) :
    Ensures mode (fun i => multiplyA i (x i) (y i)) g fun _ g' _ => Drew D (fun i => T i + n) g' :=
  ensures_drawGate hD hg 2 (fun x y r => x 0 * y 0 + x 0 * y 1 + x 1 * y 0 + r) x y

theorem ensures_drawAndB (hD : Counts d D) (hg : Drew D T g) (x y : Fin 3 → EVector 2 n d) :
    Ensures mode (fun i => andB i (x i) (y i)) g fun _ g' _ => Drew D (fun i => T i + n) g' :=
  ensures_drawGate hD hg 5
    (fun x y r => (x 0 &&& y 0) ^^^ (x 0 &&& y 1) ^^^ (x 1 &&& y 0) ^^^ r) x y

omit [RandomGenerator G d] in
/-- **The loop rule**: what every round draws, times the rounds. -/
theorem ensures_foldlM {α β : Type} {f : Fin 3 → α → β → PartyM 3 d G α} {c : ℕ}
    (hf : ∀ (a : Fin 3 → α) (b : β) {T : Fin 3 → ℕ} {g : Fin 3 → G}, Drew D T g →
      Ensures mode (fun i => f i (a i) b) g fun _ g' _ => Drew D (fun i => T i + c) g')
    (l : List β) (a : Fin 3 → α) (hg : Drew D T g) :
    Ensures mode (fun i => l.foldlM (f i) (a i)) g fun _ g' _ =>
      Drew D (fun i => T i + l.length * c) g' := by
  induction l generalizing a T g with
  | nil =>
    simp only [List.length_nil, Nat.zero_mul]
    exact .pure hg
  | cons b l ih =>
    have hlen : ∀ i, T i + (b :: l).length * c = T i + c + l.length * c := fun i => by
      rw [List.length_cons, Nat.succ_mul, Nat.add_assoc, Nat.add_comm c]
    simp only [List.foldlM_cons, hlen]
    exact (hf a b hg).bind fun a' g' _ hg' => ih a' hg'

section Adder

/- Only the number of gates matters here, so the adder is taken over any table whose boolean gate
draws `n` elements. -/
variable {P : Fin 3 → Protocol 3 2 d G}
variable (hP : ∀ {n : ℕ} (x y : Fin 3 → EVector 2 n d) {T : Fin 3 → ℕ} {g : Fin 3 → G}, Drew D T g →
  Ensures mode (fun i => (P i).andB (x i) (y i)) g fun _ g' _ => Drew D (fun i => T i + n) g')
include hP

omit [RandomGenerator G d] in
/-- A level of the adder has three gates. -/
theorem ensures_drawPrefixSum (hg : Drew D T g) (x y : Fin 3 → EVector 2 n d × EVector 2 n d) :
    Ensures mode (fun i => (P i).prefixSum (x i) (y i)) g fun _ g' _ =>
      Drew D (fun i => T i + (n + n + n)) g' := by
  have hor : ∀ (x y : Fin 3 → EVector 2 n d) {T : Fin 3 → ℕ} {g : Fin 3 → G}, Drew D T g →
      Ensures mode (fun i => (P i).or (x i) (y i)) g fun _ g' _ =>
        Drew D (fun i => T i + n) g' := fun x y _ _ hg =>
    (hP _ _ hg).bind fun _ _ _ hg' => .pure hg'
  simp only [← Nat.add_assoc]
  refine (hP _ _ hg).bind fun carry g₁ _ hg₁ => ?_
  refine (hor _ _ hg₁).bind fun gOut g₂ _ hg₂ => ?_
  exact (hP _ _ hg₂).bind fun pOut g₃ _ hg₃ => .pure hg₃

omit [RandomGenerator G d] in
theorem ensures_drawAdder (hg : Drew D T g) (x y : Fin 3 → EVector 2 n d) :
    Ensures mode (fun i => (P i).parallelPrefixAdder (x i) (y i)) g fun _ g' _ =>
      Drew D (fun i => T i + adderDraws d n) g' := by
  simp only [adderDraws, ← Nat.add_assoc (T _)]
  refine (hP x y hg).bind fun gen g₁ _ hg₁ => ?_
  refine (ensures_foldlM (f := fun i gp k => (P i).prefixSum gp
    (fun j => reverseBitLevelShift k (gp.1 j), fun j => reverseBitLevelShift k (gp.2 j)))
    (fun gp k _ _ hg => ensures_drawPrefixSum hP hg gp _) _ _ hg₁).bind ?_
  exact fun res g₂ _ hg₂ => .pure hg₂

end Adder

theorem ensures_drawA2b (hD : Counts d D) (hg : Drew D T g) (x : Fin 3 → EVector 2 n d) :
    Ensures mode (fun i => (protocol d G i).a2b (x i)) g fun _ g' _ =>
      Drew D (fun i => T i + adderDraws d n) g' := by
  obtain ⟨h, hy⟩ := yields_redistributeSharesB mode g x
  refine (Ensures.of_yields (Q := fun _ g' _ => Drew D T g') hy
    ((hg.afterDeal hD n 0).afterDeal hD n 1)).bind fun b g' _ hg' => ?_
  exact ensures_drawAdder (fun x y _ _ hg => ensures_drawAndB hD hg x y) hg' _ _

theorem ensures_drawOp (hD : Counts d D) (hg : Drew D T g) (op : Op 3 d Γ ts)
    (e : Fin 3 → Env (Ty.Share 2 d) Γ) :
    Ensures mode (fun i => op.run (protocol d G i) (e i)) g fun _ g' _ =>
      Drew D (fun i => T i + opDraws op) g' := by
  cases op with
  | secretShareA p data =>
    exact .of_yields (yields_secretShare_fresh restA (fun _ => data) p).bind_pure
      (hg.afterDeal hD _ p)
  | secretShareB p data =>
    exact .of_yields (yields_secretShare_fresh restB (fun _ => data) p).bind_pure
      (hg.afterDeal hD _ p)
  | multiplyA x y =>
    exact (ensures_drawMultiplyA hD hg (fun i => e i x) fun i => e i y).bind
      fun _ _ _ hg' => .pure hg'
  | andB x y =>
    exact (ensures_drawAndB hD hg (fun i => e i x) fun i => e i y).bind
      fun _ _ _ hg' => .pure hg'
  | a2b x => exact (ensures_drawA2b hD hg fun i => e i x).bind fun _ _ _ hg' => .pure hg'
  | b2aBit x =>
    obtain ⟨h, hy⟩ := yields_b2aBit mode g fun i => e i x
    exact .of_yields hy.bind_pure hg
  | _ => exact .pure hg

/-- The divisions of a call do not trap. -/
def callDivides {Γ ts : List Ty} : Call 3 d Γ ts → (Fin 3 → Env (Ty.Share 2 d) Γ) → Prop
  | .divConstA x c, e => ∀ i, Divides i (e i x) c
  | _, _ => True

/-- **Every call finishes** unless it traps, on any inputs, with the draws counted. -/
theorem ensures_call (hD : Counts d D) (hg : Drew D T g) (call : Call 3 d Γ ts)
    {e : Fin 3 → Env (Ty.Share 2 d) Γ} (hdivides : callDivides call e) :
    Ensures mode (fun i => call.run (protocol d G i) (e i)) g fun _ g' _ =>
      Drew D (fun i => T i + partyDraws i call) g' := by
  cases call with
  | op o =>
    simp only [partyDraws, callDraws, divDraws, ite_self, Nat.add_zero]
    exact ensures_drawOp hD hg o e
  | divConstA x c =>
    obtain ⟨h, hy⟩ := yields_divConstA mode g hdivides
    simp only [partyDraws, callDraws, divDraws, Nat.zero_add]
    exact .of_yields hy.bind_pure (hg.afterDiv hD _)
  | redistributeSharesB x =>
    obtain ⟨h, hy⟩ := yields_redistributeSharesB mode g fun i => e i x
    simp only [partyDraws, callDraws, divDraws, ite_self, Nat.add_zero]
    exact .of_yields hy.bind_pure ((hg.afterDeal hD _ 0).afterDeal hD _ 1)
  | openSharesA x =>
    simp only [partyDraws, callDraws, divDraws, ite_self, Nat.add_zero]
    exact .of_yields (yields_openShares (fun a b c => a + b + c) fun i => e i x).bind_pure hg
  | openSharesB x =>
    simp only [partyDraws, callDraws, divDraws, ite_self, Nat.add_zero]
    exact .of_yields (yields_openShares (fun a b c => a ^^^ b ^^^ c) fun i => e i x).bind_pure hg

variable (mode) in
/-- **No division on the way traps.** -/
abbrev TrapFree (prog : Prog (Call 3 d) Γ Δ) (e : Fin 3 → Env (Ty.Share 2 d) Γ) (g : Fin 3 → G) :
    Prop :=
  prog.Along mode (fun i => Call.run (protocol d G i)) callDivides e g

/-- Sequences of calls. -/
theorem ensures_calls (hD : Counts d D) (hg : Drew D T g) (prog : Prog (Call 3 d) Γ Δ)
    {e : Fin 3 → Env (Ty.Share 2 d) Γ} (htraps : TrapFree mode prog e g) :
    Ensures mode (fun i => prog.run (Call.run (protocol d G i)) (e i)) g fun _ g' _ =>
      Drew D (fun i => T i + progDraws i prog) g' := by
  induction prog generalizing T g with
  | done => exact .pure hg
  | step call rest ih =>
    simp only [progDraws, ← Nat.add_assoc]
    obtain ⟨out, g₁, h₁, hy₁, hg₁⟩ := ensures_call hD hg call htraps.1
    obtain ⟨b, g₂, h₂, hy₂, hg₂⟩ := ih hg₁ (htraps.2 out g₁ h₁ hy₁)
    exact ⟨b, g₂, _, hy₁.bind hy₂, hg₂⟩

end Counting

/-! ## Traps -/

/-- A division, if the call is one, is by a safe divisor. -/
def SafeCall {Γ ts : List Ty} : Call 3 d Γ ts → Prop
  | .divConstA _ c => SafeDivisor c
  | _ => True

/-- With safe divisors no division traps. -/
theorem trapFree_of_safe {prog : Prog (Call 3 d) Γ Δ} (hsafe : prog.All SafeCall)
    (e : Fin 3 → Env (Ty.Share 2 d) Γ) (g : Fin 3 → G) : TrapFree mode prog e g := by
  refine Prog.along_of_all (fun call e hcall => ?_) hsafe e g
  cases call with
  | divConstA x c => exact fun i => .of_safe hcall i _
  | _ => trivial

theorem stuck_call {call : Call 3 d Γ ts} {e : Fin 3 → Env (Ty.Share 2 d) Γ} (g : Fin 3 → G)
    (hdivides : ¬callDivides call e) :
    Sticks Channel.source Channel.dest mode (fun i => call.run (protocol d G i) (e i)) g := by
  cases call with
  | divConstA x c =>
    obtain ⟨i, hi⟩ := not_forall.mp hdivides
    have hlocal : Sticks Channel.source Channel.dest mode
      (fun i => divConstLocal i (e i x) c) g := .of_exit (run_divConstLocal_trap hi (g i))
    exact (hlocal.bind fun i out => (ownedBy_exchangeShares i out.1 _ _).bind fun _ =>
      (ownedBy_exchangeShares i out.2 _ _).bind fun _ => .pure _).bind fun _ _ => .pure _
  | _ => exact absurd trivial hdivides

/-! ## One end -/

theorem ownedBy_call (i : Fin 3) {Γ ts : List Ty} (call : Call 3 d Γ ts)
    (e : Env (Ty.Share 2 d) Γ) : OwnedBy i (call.run (protocol d G i) e) :=
  (ownedBy_protocol i).call call e

/-- **Sequences of calls are free of deadlock and independent of the order** exactly where no
division traps: under rendezvous every interleaving ends with all parties having returned, in one
and the same state and with empty queues — also when every message is labelled with the position of
its call and a receive stops at a message of another call or length. -/
theorem calls_finish_iff (prog : Prog (Call 3 d) Γ Δ) (e : Fin 3 → Env (Ty.Share 2 d) Γ)
    (g : Fin 3 → G) : (∃ a h,
      Finishes .rendezvous (fun i => (prog.run (Call.run (protocol d G i)) (e i)).run (g i))
        (fun b k => b = a ∧ k = fun c => (h c).map Prod.snd) ∧
      Finishes .rendezvous (fun i => (prog.runLabelled (Call.run (protocol d G i)) (e i)).run (g i))
        fun b k => b = a ∧ k = h) ↔ TrapFree .rendezvous prog e g := by
  constructor
  · rintro ⟨a, h, hfinishes, -⟩
    obtain ⟨b, k, hruns, -⟩ := hfinishes.runs
    have hy : Yields .rendezvous (fun i => prog.run (Call.run (protocol d G i)) (e i)) g
      (fun i => (b i).1) (fun i => (b i).2) k := hruns
    exact Prog.along_of_yields (fun i _ _ => ownedBy_call i) (fun call e g => stuck_call g) prog hy
  · intro htraps
    have hcounts : Counts d (fun _ _ _ => True : Fin 3 → ℕ → G → Prop) :=
      ⟨fun _ _ _ => trivial, fun _ _ => trivial⟩
    have hcall : ∀ {Γ ts : List Ty} (call : Call 3 d Γ ts) (e : Fin 3 → Env (Ty.Share 2 d) Γ)
        (g : Fin 3 → G), callDivides call e → ∃ a g' h,
          Yields .rendezvous (fun i => call.run (protocol d G i) (e i)) g a g' h :=
      fun call e g hdivides =>
        let ⟨a, g', h, hy, _⟩ := ensures_call (T := 0) hcounts (fun _ => trivial) call hdivides
        ⟨a, g', h, hy⟩
    obtain ⟨a, g', h, hlabelled, hplain⟩ :=
      Prog.yields_labelled (f := fun i => Call.run (protocol d G i)) hcall prog e g htraps
    exact ⟨fun i => (a i, g' i), h,
      Runs.finishes hplain (fun i => Prog.owned_run (ownedBy_call i) prog (e i) (g i)) ⟨rfl, rfl⟩,
      Runs.finishes hlabelled (fun i => Prog.owned_runLabelled (ownedBy_call i) prog (e i) (g i))
        ⟨rfl, rfl⟩⟩

/-- One element, the value `0`. -/
def zeroShares (_ : Fin 3) : Env (Ty.Share 2 .int8_t) [.arith 1] := Env.one fun _ _ => 0

/-- One division of one element. -/
def divisionProgram (c : Word .int8_t) :
    Prog (Call 3 .int8_t) [.arith 1] [.arith 1, .arith 1, .arith 1] :=
  .step (.divConstA .here c) .done

/-- A division by zero ends at the traps of the parties `0` and `1`. -/
theorem zeroDivision_stops : ¬∃ a h,
    Finishes .rendezvous (fun i => ((divisionProgram 0).run
      (Call.run (protocol .int8_t (Streams .int8_t) i)) (zeroShares i)).run (zeroStreams _ i))
      (fun b k => b = a ∧ k = fun c => (h c).map Prod.snd) ∧
    Finishes .rendezvous (fun i => ((divisionProgram 0).runLabelled
      (Call.run (protocol .int8_t (Streams .int8_t) i)) (zeroShares i)).run (zeroStreams _ i))
      fun b k => b = a ∧ k = h := by
  rintro ⟨a, h, hfinishes, -⟩
  obtain ⟨b, k, hruns, -⟩ := hfinishes.runs
  have hdivides : ¬callDivides (Call.divConstA (N := 3) (Γ := [.arith 1]) (n := 1) .here 0)
    zeroShares := fun hd => hd 0 0 (.inl rfl)
  exact stuck_call _ hdivides _ (fun _ _ => .pure _) (fun i => (b i).1) (fun i => (b i).2) k hruns

end Tva.Replicated3pc
