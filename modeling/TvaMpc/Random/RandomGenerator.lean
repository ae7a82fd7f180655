import TvaMpc.Containers.Vector
import Mathlib.Logic.Function.Iterate
import Mathlib.Data.Fin.VecNotation
import Mathlib.Tactic.FinCases

/-!
# Random/RandomGenerator — the generator interface and its instances

`RandomGenerator` is the abstract class the protocols draw from.  `PseudoRandomGenerator` is the
implementation the runtime installs.  The others are the generators that the protocols are written
for: masks chosen per call (`MaskGenerator`), one stream per channel (`Streams`), one ideal key
stream per pair of parties (`KeyPair`).
-/

namespace Tva

variable {d : DataType} {n : ℕ}

/-- A generator with state `G` for elements of type `d`.  `nums` is passed in and handed back: a
call writes its first `size` elements, of which there must be as many (`Tva.getMultipleNext`). -/
class RandomGenerator (G : Type) (d : DataType) where
  getMultipleNext {n : ℕ} (nums : Vec n d) (id size : ℕ) : G → Vec n d × G
  getMultipleRandom {n : ℕ} (nums : Vec n d) (size : ℕ) : G → Vec n d × G

/-! ## Drawing one element at a time -/

section Fill

variable {G : Type} (draw : G → Word d × G)

/-- `for (int i = 0; i < size; ++i) nums[i] = draw();`, where `nums` has `size` elements or more. -/
def fillNums (nums : Vec n d) : ℕ → G → Vec n d × G
  | 0, g => (nums, g)
  | size + 1, g =>
      let r := fillNums nums size g
      (fun j => if (j : ℕ) = size then (draw r.2).1 else r.1 j, (draw r.2).2)

/-- The state after a draw. -/
def afterDraw (g : G) : G := (draw g).2

theorem fillNums_state (nums : Vec n d) (size : ℕ) (g : G) :
    (fillNums draw nums size g).2 = (afterDraw draw)^[size] g := by
  induction size with
  | zero => rfl
  | succ size ih => rw [Function.iterate_succ_apply', ← ih]; rfl

/-- **Element `j` is the draw number `j`.** -/
theorem fillNums_apply (nums : Vec n d) (size : ℕ) (g : G) (j : Fin n) :
    (fillNums draw nums size g).1 j
      = if (j : ℕ) < size then (draw ((afterDraw draw)^[(j : ℕ)] g)).1 else nums j := by
  induction size with
  | zero => simp [fillNums]
  | succ size ih =>
    rw [fillNums]
    by_cases h : (j : ℕ) = size
    · simp [h, fillNums_state]
    · have hiff : (j : ℕ) < size + 1 ↔ (j : ℕ) < size := by omega
      simp only [h, if_false, ih, hiff]

end Fill

/-! ## `PseudoRandomGenerator` -/

/-- The seeds that the generator reads; `nrand48` takes one step on a seed. -/
structure PseudoRandomGenerator {S : Type} (nrand48 : S → BitVec 64 × S) where
  seeds : Fin 3 → S

namespace PseudoRandomGenerator

variable {S : Type} {nrand48 : S → BitVec 64 × S}

/-- One element of channel `id`: every channel is served from the seeds `1` and `2`. -/
def draw (d : DataType) (id : ℕ) (g : PseudoRandomGenerator nrand48) :
    Word d × PseudoRandomGenerator nrand48 :=
  let a := nrand48 (g.seeds 1)
  let b := nrand48 (g.seeds 2)
  let num := if id = 2 then a.1 - b.1 else if id = 5 then a.1 ^^^ b.1 else a.1 ^^^ b.1
  (num.setWidth d.bits, ⟨![g.seeds 0, a.2, b.2]⟩)

/-- One element of the party's own randomness, from seed `0`: as many calls of `nrand48` as the
width takes, the first one on top. -/
def drawRandom (d : DataType) (g : PseudoRandomGenerator nrand48) :
    Word d × PseudoRandomGenerator nrand48 :=
  let a := nrand48 (g.seeds 0)
  let b := nrand48 a.2
  let c := nrand48 b.2
  match d with
  | .int8_t => (a.1.setWidth _, ⟨![a.2, g.seeds 1, g.seeds 2]⟩)
  | .int32_t => (((a.1 <<< 31) ||| b.1).setWidth _, ⟨![b.2, g.seeds 1, g.seeds 2]⟩)
  | .int64_t =>
      (((((a.1 <<< 31) ||| b.1) <<< 31) ||| c.1).setWidth _, ⟨![c.2, g.seeds 1, g.seeds 2]⟩)

instance : RandomGenerator (PseudoRandomGenerator nrand48) d where
  getMultipleNext nums id size := fillNums (draw d id) nums size
  getMultipleRandom nums size := fillNums (drawRandom d) nums size

/-- The parties' own randomness leaves the shared seeds alone. -/
theorem seeds_drawRandom (g : PseudoRandomGenerator nrand48) :
    (drawRandom d g).2.seeds 1 = g.seeds 1 ∧ (drawRandom d g).2.seeds 2 = g.seeds 2 := by
  cases d <;> exact ⟨rfl, rfl⟩

/-- The seed after one call of `nrand48`. -/
def nextSeed (nrand48 : S → BitVec 64 × S) (s : S) : S := (nrand48 s).2

section Seeds

variable {g : PseudoRandomGenerator nrand48}

theorem seeds_afterDraw (id t : ℕ) :
    ((afterDraw (draw d id))^[t] g).seeds
      = ![g.seeds 0, (nextSeed nrand48)^[t] (g.seeds 1), (nextSeed nrand48)^[t] (g.seeds 2)] := by
  induction t with
  | zero =>
    funext k
    fin_cases k <;> rfl
  | succ t ih =>
    rw [Function.iterate_succ_apply', Function.iterate_succ_apply', Function.iterate_succ_apply',
      afterDraw, draw, ih]
    rfl

theorem seeds_afterDrawRandom (t : ℕ) :
    ((afterDraw (drawRandom d))^[t] g).seeds 1 = g.seeds 1 ∧
      ((afterDraw (drawRandom d))^[t] g).seeds 2 = g.seeds 2 := by
  induction t with
  | zero => exact ⟨rfl, rfl⟩
  | succ t ih =>
    rw [Function.iterate_succ_apply', afterDraw]
    have h := seeds_drawRandom (d := d) ((afterDraw (drawRandom d))^[t] g)
    exact ⟨h.1.trans ih.1, h.2.trans ih.2⟩

end Seeds

end PseudoRandomGenerator

/-! ## `MaskGenerator` -/

/-- A generator whose masks are chosen freely for every call: `next t id n` is what call number `t`
yields on channel `id` at size `n`. -/
structure MaskGenerator (d : DataType) where
  next : ℕ → ℕ → (n : ℕ) → Vec n d
  random : ℕ → (n : ℕ) → Vec n d
  nextCalls : ℕ
  randomCalls : ℕ

instance : RandomGenerator (MaskGenerator d) d where
  getMultipleNext {n} nums id size g :=
    (fun j => if (j : ℕ) < size then g.next g.nextCalls id n j else nums j,
      { g with nextCalls := g.nextCalls + 1 })
  getMultipleRandom {n} nums size g :=
    (fun j => if (j : ℕ) < size then g.random g.randomCalls n j else nums j,
      { g with randomCalls := g.randomCalls + 1 })

/-! ## `Streams` -/

/-- One stream per channel, read block by block; `channel id t` is what the `t`-th next element of
channel `id` will be. -/
structure Streams (d : DataType) where
  channel : ℕ → ℕ → Word d
  own : ℕ → Word d

namespace Streams

def draw (id : ℕ) (g : Streams d) : Word d × Streams d :=
  (g.channel id 0, { g with channel := Function.update g.channel id fun t => g.channel id (t + 1) })

def drawRandom (g : Streams d) : Word d × Streams d :=
  (g.own 0, { g with own := fun t => g.own (t + 1) })

instance : RandomGenerator (Streams d) d where
  getMultipleNext nums id size := fillNums (draw id) nums size
  getMultipleRandom nums size := fillNums drawRandom nums size

theorem afterDraw_iterate (id t : ℕ) (g : Streams d) : (afterDraw (draw id))^[t] g
    = { g with channel := Function.update g.channel id fun k => g.channel id (k + t) } := by
  induction t with
  | zero => simp
  | succ t ih =>
    rw [Function.iterate_succ_apply', ih]
    simp only [afterDraw, draw, Function.update_self, Function.update_idem]
    congr 3
    funext k
    rw [Nat.add_right_comm, Nat.add_assoc]

end Streams

/-! ## `KeyPair` -/

/-- The two key streams of a party: the one it shares with its successor (`seeds[1]`) and the one it
shares with its predecessor (`seeds[2]`). -/
structure KeyPair (d : DataType) where
  next : ℕ → Word d
  prev : ℕ → Word d
  own : ℕ → Word d

namespace KeyPair

def draw (id : ℕ) (g : KeyPair d) : Word d × KeyPair d :=
  (if id = 2 then g.next 0 - g.prev 0 else g.next 0 ^^^ g.prev 0,
    { g with next := fun t => g.next (t + 1), prev := fun t => g.prev (t + 1) })

def drawRandom (g : KeyPair d) : Word d × KeyPair d :=
  (g.own 0, { g with own := fun t => g.own (t + 1) })

instance : RandomGenerator (KeyPair d) d where
  getMultipleNext nums id size := fillNums (draw id) nums size
  getMultipleRandom nums size := fillNums drawRandom nums size

theorem afterDraw_iterate (id t : ℕ) (g : KeyPair d) : (afterDraw (draw id))^[t] g
    = { g with next := fun k => g.next (k + t), prev := fun k => g.prev (k + t) } := by
  induction t with
  | zero => rfl
  | succ t ih =>
    rw [Function.iterate_succ_apply', ih]
    simp only [afterDraw, draw]
    congr 1 <;> funext k <;> rw [Nat.add_right_comm, Nat.add_assoc]

end KeyPair

end Tva
