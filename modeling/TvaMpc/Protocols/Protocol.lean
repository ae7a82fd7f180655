import TvaMpc.Communication.MpiCommunicator
import TvaMpc.Containers.Bits
import TvaMpc.Random.RandomGenerator

/-!
# Protocols/Protocol — the primitives of a protocol, and the shared vectors built on them

`Protocol` is one party's table of primitives.  The boolean addition and the conversion from
arithmetic to boolean shares are written against this table, as `BSharedVector` and `ASharedVector`
are written against whichever protocol the runtime installs.
-/

namespace Tva

open Machinery

variable {N ρ n : ℕ} {d : DataType} {G : Type}

/-- `randomGenerator->getMultipleNext(r, id, size)` into a fresh vector of `n` elements.  With a
greater `size` it writes behind the vector. -/
def getMultipleNext [RandomGenerator G d] (n id size : ℕ) : PartyM N d G (Vec n d) :=
  if size ≤ n then
    MonadStateOf.modifyGet (RandomGenerator.getMultipleNext (G := G) (0 : Vec n d) id size)
  else StateT.lift (.exit .undefined)

/-- `randomGenerator->getMultipleRandom(r, size)` into a fresh vector of that size. -/
def getMultipleRandom [RandomGenerator G d] (n : ℕ) : PartyM N d G (Vec n d) :=
  MonadStateOf.modifyGet (RandomGenerator.getMultipleRandom (G := G) (0 : Vec n d) n)

/-- The result of a division, unless it traps. -/
def orTrap {α : Type} : Option α → PartyM N d G α
  | some a => return a
  | none => StateT.lift (.exit .trap)

/-- `assert(p)` before `m`. -/
def asserting {α : Type} (p : Prop) [Decidable p] (m : PartyM N d G α) : PartyM N d G α :=
  if p then m else StateT.lift (.exit .assertion)

/-- Stop with an accusation. -/
def accuse {α : Type} (partyID a b : ℕ) : PartyM N d G α :=
  StateT.lift (.exit (.accuses partyID a b))

section Run

variable {α : Type} {i : Fin N} {g : G}

theorem getMultipleNext_eq [RandomGenerator G d] {id size : ℕ} (h : size ≤ n) :
    (getMultipleNext n id size : PartyM N d G (Vec n d))
      = MonadStateOf.modifyGet (RandomGenerator.getMultipleNext (G := G) (0 : Vec n d) id size) :=
  if_pos h

/-- A draw of the whole vector. -/
@[simp] theorem getMultipleNext_self [RandomGenerator G d] (id : ℕ) :
    (getMultipleNext n id n : PartyM N d G (Vec n d))
      = MonadStateOf.modifyGet (RandomGenerator.getMultipleNext (G := G) (0 : Vec n d) id n) :=
  getMultipleNext_eq le_rfl

theorem ownedBy_getMultipleNext [RandomGenerator G d] (id size : ℕ) :
    OwnedBy i (getMultipleNext n id size : PartyM N d G (Vec n d)) := by
  rw [getMultipleNext]
  split
  · exact .modifyGet _
  · exact .lift trivial

theorem asserting_eq {p : Prop} [Decidable p] (h : p) (m : PartyM N d G α) : asserting p m = m :=
  if_pos h

theorem ownedBy_asserting {p : Prop} [Decidable p] {m : PartyM N d G α} (hm : OwnedBy i m) :
    OwnedBy i (asserting p m) := by
  rw [asserting]
  split
  · exact hm
  · exact .lift trivial

theorem ownedBy_orTrap (o : Option α) : OwnedBy i (orTrap o : PartyM N d G α) := by
  cases o with
  | none => exact .lift trivial
  | some a => exact .pure a

end Run

/-- **One party traps at once.** -/
def Trapped {α : Type} (m : Fin N → PartyM N d G α) : Prop :=
  ∃ i, ∀ g, (m i).run g = .exit .trap

namespace Trapped

variable {α β : Type} {m : Fin N → PartyM N d G α} {g g' : Fin N → G} {mode : SendMode}

theorem bind (hm : Trapped m) (f : Fin N → α → PartyM N d G β) : Trapped fun i => m i >>= f i := by
  obtain ⟨i, hi⟩ := hm
  refine ⟨i, fun g => ?_⟩
  rw [StateT.run_bind, hi]
  rfl

theorem not_yields {a : Fin N → α} {h : Channel N → List (List (Word d))} (hm : Trapped m) :
    ¬Yields mode m g a g' h := by
  obtain ⟨i, hi⟩ := hm
  exact not_runs_of_exit (hi (g i))

end Trapped

/-- **The primitives of one party** that works with `ρ` of the `N` components. -/
structure Protocol (N ρ : ℕ) (d : DataType) (G : Type) where
  addA {n : ℕ} (x y : EVector ρ n d) : EVector ρ n d
  subA {n : ℕ} (x y : EVector ρ n d) : EVector ρ n d
  multiplyA {n : ℕ} (x y : EVector ρ n d) : PartyM N d G (EVector ρ n d)
  negA {n : ℕ} (x : EVector ρ n d) : EVector ρ n d
  divConstA {n : ℕ} (x : EVector ρ n d) (c : Word d) : PartyM N d G (EVector ρ n d × EVector ρ n d)
  xorB {n : ℕ} (x y : EVector ρ n d) : EVector ρ n d
  andB {n : ℕ} (x y : EVector ρ n d) : PartyM N d G (EVector ρ n d)
  notB {n : ℕ} (x : EVector ρ n d) : EVector ρ n d
  notB1 {n : ℕ} (x : EVector ρ n d) : EVector ρ n d
  ltz {n : ℕ} (x : EVector ρ n d) : EVector ρ n d
  b2aBit {n : ℕ} (x : EVector ρ n d) : PartyM N d G (EVector ρ n d)
  redistributeSharesB {n : ℕ} (x : EVector ρ n d) : PartyM N d G (EVector ρ n d × EVector ρ n d)
  openSharesA {n : ℕ} (shares : EVector ρ n d) : PartyM N d G (Vec n d)
  openSharesB {n : ℕ} (shares : EVector ρ n d) : PartyM N d G (Vec n d)
  secretShareA {n : ℕ} (data : Vec n d) (dataParty : Fin N) : PartyM N d G (EVector ρ n d)
  secretShareB {n : ℕ} (data : Vec n d) (dataParty : Fin N) : PartyM N d G (EVector ρ n d)

namespace Protocol

variable (P : Protocol N ρ d G)

/-! ## `BSharedVector` -/

/-- `operator|`: logical OR is defined based on logical AND. -/
def or (x y : EVector ρ n d) : PartyM N d G (EVector ρ n d) := do
  let z ← P.andB (P.notB x) (P.notB y)
  return P.notB z

/-- `prefix_sum`, on pairs of generate and propagate vectors. -/
def prefixSum (x y : EVector ρ n d × EVector ρ n d) :
    PartyM N d G (EVector ρ n d × EVector ρ n d) := do
  let carry ← P.andB x.2 y.1
  let gOut ← P.or x.1 carry
  let pOut ← P.andB x.2 y.2
  return (gOut, pOut)

/-- The values of `for (int i = 2; i <= max; i <<= 1)`; `fuel` bounds the number of rounds. -/
def adderLevels (max : ℕ) : (fuel i : ℕ) → List ℕ
  | 0, _ => []
  | fuel + 1, i => if i ≤ max then i :: adderLevels max fuel (i <<< 1) else []

/-- `parallel_prefix_adder`. -/
def parallelPrefixAdder (current other : EVector ρ n d) : PartyM N d G (EVector ρ n d) := do
  let p := P.xorB current other
  let g ← P.andB current other
  let propagate := p
  let res ← (adderLevels d.maxBitsNumber d.maxBitsNumber 2).foldlM (fun gp i => do
    let gShift := fun k => reverseBitLevelShift i (gp.1 k)
    let pShift := fun k => reverseBitLevelShift i (gp.2 k)
    P.prefixSum gp (gShift, pShift)) (g, p)
  return P.xorB propagate fun k => bitLeftShift 1 (res.1 k)

/-! ## `ASharedVector` -/

/-- `a2b`. -/
def a2b (x : EVector ρ n d) : PartyM N d G (EVector ρ n d) := do
  let bVecs ← P.redistributeSharesB x
  P.parallelPrefixAdder bVecs.1 bVecs.2

/-- `div`, with the division correction on. -/
def div (x : EVector ρ n d) (c : Word d) : PartyM N d G (EVector ρ n d) := do
  let out ← P.divConstA x c
  let berr ← P.a2b out.2
  let ltzerr := P.notB1 (P.ltz berr)
  let correction ← P.b2aBit ltzerr
  return P.addA out.1 correction

end Protocol

end Tva
