import TvaMpc.Containers.BitCompress
import TvaMpc.Protocols.Protocol

/-!
# Protocols/Fantastic4pc — the protocol with four parties

Party `i` holds its own component in column `0` and those of the parties `i + 1` and `i + 2` in the
columns `1` and `2`.  Where an arithmetic and a boolean primitive run the same code on different
operators, that code is one definition (`gate`, `inp`, `openShares`, `secretShare`) and the
primitives are its instances.
-/

namespace Tva.Fantastic4pc

open Machinery

variable {n : ℕ} {d : DataType} {G : Type} [RandomGenerator G d]

/-- Two copies of a vector that differ make a party accuse their senders. -/
def check (partyID a b : ℕ) (v w : Vec n d) : PartyM 4 d G Unit :=
  if v = w then return () else accuse partyID a b

/-! ## Local primitives -/

def addA (x y : EVector 3 n d) : EVector 3 n d := ![x 0 + y 0, x 1 + y 1, x 2 + y 2]

def subA (x y : EVector 3 n d) : EVector 3 n d := ![x 0 - y 0, x 1 - y 1, x 2 - y 2]

def negA (x : EVector 3 n d) : EVector 3 n d := ![-x 0, -x 1, -x 2]

def xorB (x y : EVector 3 n d) : EVector 3 n d := ![x 0 ^^^ y 0, x 1 ^^^ y 1, x 2 ^^^ y 2]

/-- The component of party `2` is complemented, wherever it is held. -/
def notB (partyID : Fin 4) (x : EVector 3 n d) : EVector 3 n d :=
  match partyID with
  | 0 => ![x 0, x 1, ~~~x 2]
  | 1 => ![x 0, ~~~x 1, x 2]
  | 2 => ![~~~x 0, x 1, x 2]
  | 3 => ![x 0, x 1, x 2]

/-- The component of party `2` is negated, wherever it is held. -/
def notB1 (partyID : Fin 4) (x : EVector 3 n d) : EVector 3 n d :=
  match partyID with
  | 0 => ![x 0, x 1, logicalNot (x 2)]
  | 1 => ![x 0, logicalNot (x 1), x 2]
  | 2 => ![logicalNot (x 0), x 1, x 2]
  | 3 => ![x 0, x 1, x 2]

def ltz (x : EVector 3 n d) : EVector 3 n d := ![Tva.ltz (x 0), Tva.ltz (x 1), Tva.ltz (x 2)]

/-! ## Products

`multiply_a` and `and_b` are written with different operators.  Both pass `size` where
`getMultipleNext` takes the channel, and the number of the channel where it takes the size. -/

/-- `x(i) * y(j) + x(j) * y(i) - r`. -/
def masked {V : Type} (mul add sub : V → V → V) (x y : Fin 3 → V) (i j : Fin 3) (r : V) : V :=
  sub (add (mul (x i) (y j)) (mul (x j) (y i))) r

/-- What the second round leaves behind: `r_2_1`, `r_2_2`, `r_2_3`, `shares_2_1`, `shares_2_2`. -/
structure Second (V : Type) where
  r21 : V
  r22 : V
  r23 : V
  shares21 : V
  shares22 : V

/-- The sums that a party returns. -/
def gateShares {V : Type} (mul add : V → V → V) (partyID : Fin 4) (x y : Fin 3 → V)
    (shares11 r11 shares12 r12 shares13 r13 : V) (s : Second V) : Fin 3 → V :=
  let base1 := add (add (mul (x 0) (y 0)) shares11) r11
  let base2 := add (add (mul (x 1) (y 1)) shares12) r12
  let base3 := add (add (mul (x 2) (y 2)) shares13) r13
  match partyID with
  | 0 => ![add (add base1 s.shares21) s.r23, add base2 s.r21, base3]
  | 1 => ![add base1 s.r23, add base2 s.r22, add base3 s.shares21]
  | 2 => ![base1, add (add base2 s.shares22) s.r22, add base3 s.shares21]
  | 3 => ![add base1 s.shares21, add (add base2 s.shares22) s.r21, base3]

section Gate

variable (mul add sub : Vec n d → Vec n d → Vec n d)

/-- The sends of the second round: the products of the components two apart.  Every party is in one
of the two branches. -/
def sendSecond (partyID : Fin 4) (x y : EVector 3 n d) :
    PartyM 4 d G (Vec n d × Vec n d × Vec n d) :=
  if partyID = 0 ∨ partyID = 3 then do
    let r21 ← getMultipleNext n n 3
    let shares21 := masked mul add sub x y 0 2 r21
    sendShares partyID shares21 3
    return (r21, 0, shares21)
  else do
    let r22 ← getMultipleNext n n 1
    let shares21 := masked mul add sub x y 0 2 r22
    sendShares partyID shares21 1
    return (0, r22, shares21)

/-- The receives of the second round: two copies from two senders. -/
def receiveSecond (partyID : Fin 4) : PartyM 4 d G (Vec n d) :=
  if partyID = 2 ∨ partyID = 3 then do
    let shares22 ← receiveShares partyID n 1
    let shares22Hash ← receiveShares partyID n 3
    check partyID ((partyID + 1) % 4) ((partyID + 3) % 4) shares22 shares22Hash
    return shares22
  else return 0

/-- `r_2_3`: only party `1` draws it, as the source tests for that party twice. -/
def drawThird (partyID : Fin 4) : PartyM 4 d G (Vec n d) :=
  if partyID = 1 ∨ partyID = 1 then getMultipleNext n n 2 else pure 0

/-- The second round. -/
def gateSecond (partyID : Fin 4) (x y : EVector 3 n d) : PartyM 4 d G (Second (Vec n d)) := do
  let r23 ← drawThird partyID
  let sent ← sendSecond mul add sub partyID x y
  let shares22 ← receiveSecond partyID
  return ⟨sent.1, sent.2.1, r23, sent.2.2, shares22⟩

/-- The flow of `multiply_a` and `and_b`. -/
def gate (partyID : Fin 4) (x y : EVector 3 n d) : PartyM 4 d G (EVector 3 n d) := do
  let r11 ← getMultipleNext n n 1
  let r12 ← getMultipleNext n n 2
  let r13 ← getMultipleNext n n 3
  let shares11 := masked mul add sub x y 0 1 r11
  let shares12 := masked mul add sub x y 1 2 r12
  let shares13 ← exchangeShares partyID shares11 2 2
  let shares13Hash ← exchangeShares partyID shares12 3 1
  check partyID ((partyID + 2) % 4) ((partyID + 1) % 4) shares13 shares13Hash
  let s ← gateSecond mul add sub partyID x y
  return gateShares mul add partyID x y shares11 r11 shares12 r12 shares13 r13 s

end Gate

def multiplyA (partyID : Fin 4) (x y : EVector 3 n d) : PartyM 4 d G (EVector 3 n d) :=
  gate (· * ·) (· + ·) (· - ·) partyID x y

def andB (partyID : Fin 4) (x y : EVector 3 n d) : PartyM 4 d G (EVector 3 n d) :=
  gate (· &&& ·) (· ^^^ ·) (· ^^^ ·) partyID x y

/-! ## Input from two parties -/

/-- The flow of `inp_a` and `inp_b`: the parties `i` and `j` know `x`, `g` gets it masked from both,
and `h` knows the mask. -/
def inp (sub : Vec n d → Vec n d → Vec n d) (partyID : Fin 4) (x : Vec n d) (i j g h : Fin 4) :
    PartyM 4 d G (EVector 3 n d) :=
  if partyID = i then do
    let res0 ← getMultipleNext n 1 n
    let res1 := sub x res0
    sendShares partyID res1 1
    return ![res0, res1, 0]
  else if partyID = j then do
    let res1 ← getMultipleNext n 2 n
    let res2 := sub x res1
    sendShares partyID res2 2
    return ![0, res1, res2]
  else if partyID = g then do
    let res0 ← receiveShares partyID n 3
    let other ← receiveShares partyID n 2
    check partyID ((partyID + 3) % 4) ((partyID + 2) % 4) other res0
    return ![res0, 0, 0]
  else if partyID = h then do
    let res2 ← getMultipleNext n 3 n
    return ![0, 0, res2]
  else return 0

def inpA (partyID : Fin 4) (x : Vec n d) (i j g h : Fin 4) : PartyM 4 d G (EVector 3 n d) :=
  inp (· - ·) partyID x i j g h

def inpB (partyID : Fin 4) (x : Vec n d) (i j g h : Fin 4) : PartyM 4 d G (EVector 3 n d) :=
  inp (· ^^^ ·) partyID x i j g h

/-- The quotient and the error of the two components that a party adds up, with the division
correction on. -/
def divConstLocal (partyID : Fin 4) (x : EVector 3 n d) (c : Word d) :
    PartyM 4 d G (Vec n d × Vec n d) := do
  let sum := if partyID = 0 ∨ partyID = 2 then x 0 + x 1 else x 1 + x 2
  let sumNeg := isNeg sum
  let quotient ← orTrap (divide sum c)
  let rest ← orTrap (remainder sum c)
  let err := rest + scale sumNeg c
  return (quotient - sumNeg, if partyID = 0 ∨ partyID = 3 then fun j => err j - c else err)

def divConstA (partyID : Fin 4) (x : EVector 3 n d) (c : Word d) :
    PartyM 4 d G (EVector 3 n d × EVector 3 n d) := do
  let part ← divConstLocal partyID x c
  let res1 ← inpA partyID part.1 0 3 1 2
  let res2 ← inpA partyID part.1 2 1 3 0
  let err1 ← inpA partyID part.2 0 3 1 2
  let err2 ← inpA partyID part.2 2 1 3 0
  return (addA res1 res2, addA err1 err2)

def redistributeSharesB (partyID : Fin 4) (x : EVector 3 n d) :
    PartyM 4 d G (EVector 3 n d × EVector 3 n d) := do
  let res := if partyID = 0 ∨ partyID = 2 then x 0 + x 1 else x 1 + x 2
  let res1 ← inpB partyID res 0 3 1 2
  let res2 ← inpB partyID res 2 1 3 0
  return (res1, res2)

/-! ## Opening and sharing -/

/-- The flow of `open_shares_a` and `open_shares_b`: fetch the fourth component. -/
def openShares (add : Vec n d → Vec n d → Vec n d) (partyID : Fin 4) (shares : EVector 3 n d) :
    PartyM 4 d G (Vec n d) := do
  let shares4 ← exchangeShares partyID (shares 0) 1 3
  return add (add (add (shares 0) (shares 1)) (shares 2)) shares4

def openSharesA (partyID : Fin 4) (shares : EVector 3 n d) : PartyM 4 d G (Vec n d) :=
  openShares (· + ·) partyID shares

def openSharesB (partyID : Fin 4) (shares : EVector 3 n d) : PartyM 4 d G (Vec n d) :=
  openShares (· ^^^ ·) partyID shares

/-- The flow of `get_shares_a` and `get_shares_b`: three random components, and the fourth from the
data. -/
def getShares (sub : Vec n d → Vec n d → Vec n d) (data : Vec n d) :
    PartyM 4 d G (Fin 4 → EVector 3 n d) := do
  let share1 ← getMultipleRandom n
  let share2 ← getMultipleRandom n
  let share3 ← getMultipleRandom n
  let share4 := sub (sub (sub data share1) share2) share3
  return ![![share2, share3, share4], ![share3, share4, share1], ![share4, share1, share2],
    ![share1, share2, share3]]

/-- The flow of `secret_share_a` and `secret_share_b`: the shares go to the parties
`partyID + 1`, `+ 2` and `+ 3` relative to `partyID`, so to the other three if `partyID` is `0`. -/
def secretShare (sub : Vec n d → Vec n d → Vec n d) (partyID : Fin 4) (data : Vec n d)
    (dataParty : Fin 4) : PartyM 4 d G (EVector 3 n d) :=
  if partyID = dataParty then do
    let shares ← getShares sub data
    sendShares partyID (shares 1 0) (partyID + 1 : ℕ)
    sendShares partyID (shares 1 1) (partyID + 1 : ℕ)
    sendShares partyID (shares 1 2) (partyID + 1 : ℕ)
    sendShares partyID (shares 2 0) (partyID + 2 : ℕ)
    sendShares partyID (shares 2 1) (partyID + 2 : ℕ)
    sendShares partyID (shares 2 2) (partyID + 2 : ℕ)
    sendShares partyID (shares 3 0) (partyID + 3 : ℕ)
    sendShares partyID (shares 3 1) (partyID + 3 : ℕ)
    sendShares partyID (shares 3 2) (partyID + 3 : ℕ)
    return shares 0
  else do
    let s0 ← receiveShares partyID n ((dataParty : ℕ) - (partyID : ℕ) : ℤ)
    let s1 ← receiveShares partyID n ((dataParty : ℕ) - (partyID : ℕ) : ℤ)
    let s2 ← receiveShares partyID n ((dataParty : ℕ) - (partyID : ℕ) : ℤ)
    return ![s0, s1, s2]

def secretShareA (partyID : Fin 4) (data : Vec n d) (dataParty : Fin 4) :
    PartyM 4 d G (EVector 3 n d) :=
  secretShare (· - ·) partyID data dataParty

def secretShareB (partyID : Fin 4) (data : Vec n d) (dataParty : Fin 4) :
    PartyM 4 d G (EVector 3 n d) :=
  secretShare (· ^^^ ·) partyID data dataParty

/-! ## Conversion -/

/-- One column of the result of `b2a_bit`: the opened bits where `isHolder` is one; `r` is the
shared random bit, which the code has fixed to zero. -/
def b2aBitColumn (opened r : Vec n d) (isHolder : Bool) : Vec n d := fun j =>
  (opened j * (if isHolder then 1 else 0) - r j * (opened j * 2 - 1)) &&& 1

def b2aBit (partyID : Fin 4) (x : EVector 3 n d) : PartyM 4 d G (EVector 3 n d) := do
  let r : EVector 3 n d := 0
  let res := fun k => lowBit (x k ^^^ r k)
  let resCompressed := fun k => simpleBitCompress (res k) 0 1 0 1
  let resCompressedOpen ← openSharesB partyID resCompressed
  let resOpen := simpleBitDecompress 0 resCompressedOpen 0 1 0 1
  return ![b2aBitColumn resOpen (r 0) (decide ((partyID : ℕ) = 0)),
    b2aBitColumn resOpen (r 1) (decide (((partyID : ℕ) + 1) % 4 = 0)),
    b2aBitColumn resOpen (r 2) (decide (((partyID : ℕ) + 2) % 4 = 0))]

/-- The primitives of one party. -/
def protocol (d : DataType) (G : Type) [RandomGenerator G d] (partyID : Fin 4) :
    Protocol 4 3 d G where
  addA := addA
  subA := subA
  multiplyA := multiplyA partyID
  negA := negA
  divConstA := divConstA partyID
  xorB := xorB
  andB := andB partyID
  notB := notB partyID
  notB1 := notB1 partyID
  ltz := ltz
  b2aBit := b2aBit partyID
  redistributeSharesB := redistributeSharesB partyID
  openSharesA := openSharesA partyID
  openSharesB := openSharesB partyID
  secretShareA := secretShareA partyID
  secretShareB := secretShareB partyID

end Tva.Fantastic4pc
