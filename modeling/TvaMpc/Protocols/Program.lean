import TvaMpc.Machinery.Straightline
import TvaMpc.Containers.BitCompress
import TvaMpc.Protocols.Protocol

/-!
# Protocols/Program — straight-line programs over shared vectors

`Op` is one step of a program on shared vectors, with its plaintext meaning (`Op.eval`) and its run
at a party (`Op.run`).  `Call` adds the primitives whose results are no function of the shared
values alone — the division, the resharing — and the openings.
-/

namespace Tva

open Machinery

/-- The type of a variable: arithmetic shares, boolean shares or an opened vector, with its size. -/
inductive Ty where
  | arith (n : ℕ)
  | bool (n : ℕ)
  | plain (n : ℕ)
  deriving DecidableEq

/-- What a party holds for a variable. -/
abbrev Ty.Share (ρ : ℕ) (d : DataType) : Ty → Type
  | arith n => EVector ρ n d
  | bool n => EVector ρ n d
  | plain n => Vec n d

/-- The plaintext of a variable. -/
abbrev Ty.Val (d : DataType) : Ty → Type
  | arith n => Vec n d
  | bool n => Vec n d
  | plain n => Vec n d

variable {N ρ : ℕ} {d : DataType} {G : Type} {Γ Δ ts : List Ty} {t : Ty}

/-- **One step of a program.** -/
inductive Op (N : ℕ) (d : DataType) : List Ty → List Ty → Type where
  | secretShareA {Γ : List Ty} {n : ℕ} (dataParty : Fin N) (data : Vec n d) : Op N d Γ [.arith n]
  | secretShareB {Γ : List Ty} {n : ℕ} (dataParty : Fin N) (data : Vec n d) : Op N d Γ [.bool n]
  | addA {Γ : List Ty} {n : ℕ} (x y : Var Γ (.arith n)) : Op N d Γ [.arith n]
  | subA {Γ : List Ty} {n : ℕ} (x y : Var Γ (.arith n)) : Op N d Γ [.arith n]
  | negA {Γ : List Ty} {n : ℕ} (x : Var Γ (.arith n)) : Op N d Γ [.arith n]
  | multiplyA {Γ : List Ty} {n : ℕ} (x y : Var Γ (.arith n)) : Op N d Γ [.arith n]
  | xorB {Γ : List Ty} {n : ℕ} (x y : Var Γ (.bool n)) : Op N d Γ [.bool n]
  | andB {Γ : List Ty} {n : ℕ} (x y : Var Γ (.bool n)) : Op N d Γ [.bool n]
  | notB {Γ : List Ty} {n : ℕ} (x : Var Γ (.bool n)) : Op N d Γ [.bool n]
  | ltz {Γ : List Ty} {n : ℕ} (x : Var Γ (.bool n)) : Op N d Γ [.bool n]
  | a2b {Γ : List Ty} {n : ℕ} (x : Var Γ (.arith n)) : Op N d Γ [.bool n]
  | b2aBit {Γ : List Ty} {n : ℕ} (x : Var Γ (.bool n)) : Op N d Γ [.arith n]

namespace Op

/-- The party that an input comes from is one of `p`; every other step passes. -/
def From (p : Fin N → Prop) {Γ ts : List Ty} : Op N d Γ ts → Prop
  | secretShareA q _ | secretShareB q _ => p q
  | _ => True

/-- The size of the vectors that a step multiplies; a conversion multiplies too. -/
def product {Γ ts : List Ty} : Op N d Γ ts → Option ℕ
  | @multiplyA _ _ _ n _ _ => some n
  | @andB _ _ _ n _ _ => some n
  | @a2b _ _ _ n _ => some n
  | _ => none

/-- What is multiplied has `least` elements or more. -/
def Sized (least : ℕ) {Γ ts : List Ty} (op : Op N d Γ ts) : Prop := ∀ n ∈ op.product, least ≤ n

theorem sized_zero (op : Op N d Γ ts) : op.Sized 0 := fun _ _ => Nat.zero_le _

/-- The plaintext meaning of a step. -/
def eval {Γ ts : List Ty} : Op N d Γ ts → Env (Ty.Val d) Γ → Env (Ty.Val d) ts
  | secretShareA _ data, _ => Env.one data
  | secretShareB _ data, _ => Env.one data
  | addA x y, e => Env.one (e x + e y)
  | subA x y, e => Env.one (e x - e y)
  | negA x, e => Env.one (-e x)
  | multiplyA x y, e => Env.one (e x * e y)
  | xorB x y, e => Env.one (e x ^^^ e y)
  | andB x y, e => Env.one (e x &&& e y)
  | notB x, e => Env.one (~~~e x)
  | ltz x, e => Env.one (Tva.ltz (e x))
  | @a2b _ _ _ n x, e => Env.one (e x : Vec n d)
  | b2aBit x, e => Env.one (lowBit (e x))

/-- A step at one party. -/
def run (P : Protocol N ρ d G) {Γ ts : List Ty} :
    Op N d Γ ts → Env (Ty.Share ρ d) Γ → PartyM N d G (Env (Ty.Share ρ d) ts)
  | secretShareA p data, _ => do return Env.one (← P.secretShareA data p)
  | secretShareB p data, _ => do return Env.one (← P.secretShareB data p)
  | addA x y, e => return Env.one (P.addA (e x) (e y))
  | subA x y, e => return Env.one (P.subA (e x) (e y))
  | negA x, e => return Env.one (P.negA (e x))
  | multiplyA x y, e => do return Env.one (← P.multiplyA (e x) (e y))
  | xorB x y, e => return Env.one (P.xorB (e x) (e y))
  | andB x y, e => do return Env.one (← P.andB (e x) (e y))
  | notB x, e => return Env.one (P.notB (e x))
  | ltz x, e => return Env.one (P.ltz (e x))
  | a2b x, e => do return Env.one (← P.a2b (e x))
  | b2aBit x, e => do return Env.one (← P.b2aBit (e x))

end Op

/-- A program on shared vectors. -/
abbrev Program (N : ℕ) (d : DataType) := Prog (Op N d)

/-- The plaintext meaning of a program. -/
def Program.eval (prog : Program N d Γ Δ) (e : Env (Ty.Val d) Γ) : Env (Ty.Val d) Δ :=
  Prog.eval Op.eval prog e

/-- A program at one party. -/
def Program.run (P : Protocol N ρ d G) (prog : Program N d Γ Δ) (e : Env (Ty.Share ρ d) Γ) :
    PartyM N d G (Env (Ty.Share ρ d) Δ) :=
  Prog.run (Op.run P) prog e

/-- `open` of a variable, with the primitive of its encoding. -/
def openVar (P : Protocol N ρ d G) : {t : Ty} → t.Share ρ d → PartyM N d G (t.Val d)
  | .arith _, x => P.openSharesA x
  | .bool _, x => P.openSharesB x
  | .plain _, x => return x

/-! ## Calls -/

/-- **One call of a primitive.** -/
inductive Call (N : ℕ) (d : DataType) : List Ty → List Ty → Type where
  | op {Γ ts : List Ty} (op : Op N d Γ ts) : Call N d Γ ts
  | divConstA {Γ : List Ty} {n : ℕ} (x : Var Γ (.arith n)) (c : Word d) :
      Call N d Γ [.arith n, .arith n]
  | redistributeSharesB {Γ : List Ty} {n : ℕ} (x : Var Γ (.arith n)) :
      Call N d Γ [.bool n, .bool n]
  | openSharesA {Γ : List Ty} {n : ℕ} (x : Var Γ (.arith n)) : Call N d Γ [.plain n]
  | openSharesB {Γ : List Ty} {n : ℕ} (x : Var Γ (.bool n)) : Call N d Γ [.plain n]

/-- A call at one party. -/
def Call.run (P : Protocol N ρ d G) {Γ ts : List Ty} :
    Call N d Γ ts → Env (Ty.Share ρ d) Γ → PartyM N d G (Env (Ty.Share ρ d) ts)
  | op o, e => o.run P e
  | divConstA x c, e => do
      let out ← P.divConstA (e x) c
      return Env.two out.1 out.2
  | redistributeSharesB x, e => do
      let out ← P.redistributeSharesB (e x)
      return Env.two out.1 out.2
  | openSharesA x, e => do return Env.one (← P.openSharesA (e x))
  | openSharesB x, e => do return Env.one (← P.openSharesB (e x))

/-! ## Ownership

A party's program writes and reads its own ends of the channels, as its primitives do. -/

/-- The primitives of party `i` keep to its ends of the channels. -/
structure Protocol.OwnedBy (i : Fin N) (P : Protocol N ρ d G) : Prop where
  multiplyA {n : ℕ} (x y : EVector ρ n d) : Tva.OwnedBy i (P.multiplyA x y)
  divConstA {n : ℕ} (x : EVector ρ n d) (c : Word d) : Tva.OwnedBy i (P.divConstA x c)
  andB {n : ℕ} (x y : EVector ρ n d) : Tva.OwnedBy i (P.andB x y)
  b2aBit {n : ℕ} (x : EVector ρ n d) : Tva.OwnedBy i (P.b2aBit x)
  redistributeSharesB {n : ℕ} (x : EVector ρ n d) : Tva.OwnedBy i (P.redistributeSharesB x)
  openSharesA {n : ℕ} (x : EVector ρ n d) : Tva.OwnedBy i (P.openSharesA x)
  openSharesB {n : ℕ} (x : EVector ρ n d) : Tva.OwnedBy i (P.openSharesB x)
  secretShareA {n : ℕ} (data : Vec n d) (p : Fin N) : Tva.OwnedBy i (P.secretShareA data p)
  secretShareB {n : ℕ} (data : Vec n d) (p : Fin N) : Tva.OwnedBy i (P.secretShareB data p)

namespace Protocol.OwnedBy

variable {i : Fin N} {P : Protocol N ρ d G} {n : ℕ}

theorem or (hP : OwnedBy i P) (x y : EVector ρ n d) : Tva.OwnedBy i (P.or x y) :=
  (hP.andB _ _).bind fun _ => .pure _

theorem prefixSum (hP : OwnedBy i P) (x y : EVector ρ n d × EVector ρ n d) :
    Tva.OwnedBy i (P.prefixSum x y) :=
  (hP.andB _ _).bind fun _ => (hP.or _ _).bind fun _ => (hP.andB _ _).bind fun _ => .pure _

theorem foldlM {α β : Type} {f : α → β → PartyM N d G α} (hf : ∀ a b, Tva.OwnedBy i (f a b))
    (l : List β) (a : α) : Tva.OwnedBy i (l.foldlM f a) :=
  Party.Owned.foldlM hf l a

theorem parallelPrefixAdder (hP : OwnedBy i P) (x y : EVector ρ n d) :
    Tva.OwnedBy i (P.parallelPrefixAdder x y) :=
  (hP.andB _ _).bind fun _ => (foldlM (fun _ _ => hP.prefixSum _ _) _ _).bind fun _ => .pure _

theorem a2b (hP : OwnedBy i P) (x : EVector ρ n d) : Tva.OwnedBy i (P.a2b x) :=
  (hP.redistributeSharesB x).bind fun _ => hP.parallelPrefixAdder _ _

theorem op (hP : OwnedBy i P) (op : Op N d Γ ts) (e : Env (Ty.Share ρ d) Γ) :
    Tva.OwnedBy i (op.run P e) := by
  cases op with
  | secretShareA p data => exact (hP.secretShareA data p).bind fun _ => .pure _
  | secretShareB p data => exact (hP.secretShareB data p).bind fun _ => .pure _
  | multiplyA x y => exact (hP.multiplyA _ _).bind fun _ => .pure _
  | andB x y => exact (hP.andB _ _).bind fun _ => .pure _
  | a2b x => exact (hP.a2b _).bind fun _ => .pure _
  | b2aBit x => exact (hP.b2aBit _).bind fun _ => .pure _
  | _ => exact .pure _

theorem program (hP : OwnedBy i P) (prog : Program N d Γ Δ) (e : Env (Ty.Share ρ d) Γ) :
    Tva.OwnedBy i (prog.run P e) :=
  Prog.owned_run hP.op prog e

theorem openVar (hP : OwnedBy i P) (x : t.Share ρ d) : Tva.OwnedBy i (openVar P x) := by
  cases t with
  | arith n => exact hP.openSharesA x
  | bool n => exact hP.openSharesB x
  | plain n => exact .pure x

theorem call (hP : OwnedBy i P) (call : Call N d Γ ts) (e : Env (Ty.Share ρ d) Γ) :
    Tva.OwnedBy i (call.run P e) := by
  cases call with
  | op o => exact hP.op o e
  | divConstA x c => exact (hP.divConstA _ _).bind fun _ => .pure _
  | redistributeSharesB x => exact (hP.redistributeSharesB _).bind fun _ => .pure _
  | openSharesA x => exact (hP.openSharesA _).bind fun _ => .pure _
  | openSharesB x => exact (hP.openSharesB _).bind fun _ => .pure _

end Protocol.OwnedBy

end Tva
