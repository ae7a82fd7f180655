import TvaMpc.Containers.BitCompress
import TvaMpc.Protocols.Protocol

/-!
# Protocols/Replicated3pc — the semi-honest protocol with three parties

Party `i` holds its own component in column `0` and that of party `i - 1` in column `1`.  Where the
arithmetic and the boolean primitive run the same code on different operators, that code is one
definition (`gate`, `openShares`, `secretShare`) and the primitives are its instances.
-/

namespace Tva.Replicated3pc

open Machinery

variable {n : ℕ} {d : DataType} {G : Type} [RandomGenerator G d]

/-! ## Arithmetic primitives -/

def addA (x y : EVector 2 n d) : EVector 2 n d := ![x 0 + y 0, x 1 + y 1]

def subA (x y : EVector 2 n d) : EVector 2 n d := ![x 0 - y 0, x 1 - y 1]

def negA (x : EVector 2 n d) : EVector 2 n d := ![-x 0, -x 1]

/-- The flow of `multiply_a` and `and_b`: mask the local cross terms with the next numbers of the
channel, pass them to the successor, take over the predecessor's. -/
def gate (id : ℕ) (cross : EVector 2 n d → EVector 2 n d → Vec n d → Vec n d) (partyID : Fin 3)
    (x y : EVector 2 n d) : PartyM 3 d G (EVector 2 n d) := do
  let r ← getMultipleNext n id n
  let remote ← exchangeShares partyID (cross x y r) 1 2
  return ![cross x y r, remote]

def multiplyA (partyID : Fin 3) (x y : EVector 2 n d) : PartyM 3 d G (EVector 2 n d) :=
  gate 2 (fun x y r => x 0 * y 0 + x 0 * y 1 + x 1 * y 0 + r) partyID x y

/-- The quotient and error components that a party computes before the exchange, with the division
correction on. -/
def divConstLocal (partyID : Fin 3) (x : EVector 2 n d) (c : Word d) :
    PartyM 3 d G (Vec n d × Vec n d) :=
  match partyID with
  | 0 => do
      let xSum := x 0 + x 1
      let xSumNeg := isNeg xSum
      let xSum := xSum - scale xSumNeg c
      let r ← getMultipleNext n 4 n
      let quotient ← orTrap (divide xSum c)
      let res := quotient - r
      let r ← getMultipleNext n 4 n
      let rest ← orTrap (remainder xSum c)
      let err := rest + scale xSumNeg c - r
      return (res, err)
  | 1 => do
      let xSumNeg := isNeg (x 0)
      let quotient ← orTrap (divide (x 0) c)
      let rest ← orTrap (remainder (x 0) c)
      return (quotient - xSumNeg, fun j => (rest + scale xSumNeg c) j - c)
  | 2 => do
      let res ← getMultipleNext n 3 n
      let err ← getMultipleNext n 3 n
      return (res, err)

def divConstA (partyID : Fin 3) (x : EVector 2 n d) (c : Word d) :
    PartyM 3 d G (EVector 2 n d × EVector 2 n d) := do
  let own ← divConstLocal partyID x c
  let res ← exchangeShares partyID own.1 1 2
  let err ← exchangeShares partyID own.2 1 2
  return (![own.1, res], ![own.2, err])

/-! ## Boolean primitives -/

def xorB (x y : EVector 2 n d) : EVector 2 n d := ![x 0 ^^^ y 0, x 1 ^^^ y 1]

def andB (partyID : Fin 3) (x y : EVector 2 n d) : PartyM 3 d G (EVector 2 n d) :=
  gate 5 (fun x y r => (x 0 &&& y 0) ^^^ (x 0 &&& y 1) ^^^ (x 1 &&& y 0) ^^^ r) partyID x y

def notB (x : EVector 2 n d) : EVector 2 n d := ![~~~x 0, ~~~x 1]

def notB1 (x : EVector 2 n d) : EVector 2 n d := ![logicalNot (x 0), logicalNot (x 1)]

def ltz (x : EVector 2 n d) : EVector 2 n d := ![Tva.ltz (x 0), Tva.ltz (x 1)]

/-! ## Opening and sharing -/

/-- The flow of `open_shares_a` and `open_shares_b`: fetch the third component. -/
def openShares (combine : Vec n d → Vec n d → Vec n d → Vec n d) (partyID : Fin 3)
    (shares : EVector 2 n d) : PartyM 3 d G (Vec n d) := do
  let shares3 ← exchangeShares partyID (shares 1) 1 2
  return combine (shares 0) (shares 1) shares3

def openSharesA (partyID : Fin 3) (shares : EVector 2 n d) : PartyM 3 d G (Vec n d) :=
  openShares (fun a b c => a + b + c) partyID shares

def openSharesB (partyID : Fin 3) (shares : EVector 2 n d) : PartyM 3 d G (Vec n d) :=
  openShares (fun a b c => a ^^^ b ^^^ c) partyID shares

/-- The flow of `get_shares_a` and `get_shares_b`: two random components, and the third from the
data. -/
def getShares (rest : Vec n d → Vec n d → Vec n d → Vec n d) (data : Vec n d) :
    PartyM 3 d G (Fin 3 → EVector 2 n d) := do
  let share1 ← getMultipleRandom n
  let share2 ← getMultipleRandom n
  let share3 := rest data share1 share2
  return ![![share1, share3], ![share2, share1], ![share3, share2]]

def getSharesA (data : Vec n d) : PartyM 3 d G (Fin 3 → EVector 2 n d) :=
  getShares (fun data share1 share2 => data - share1 - share2) data

def getSharesB (data : Vec n d) : PartyM 3 d G (Fin 3 → EVector 2 n d) :=
  getShares (fun data share1 share2 => data ^^^ share1 ^^^ share2) data

/-- The flow of `secret_share_a` and `secret_share_b`. -/
def secretShare (getShares : Vec n d → PartyM 3 d G (Fin 3 → EVector 2 n d)) (partyID : Fin 3)
    (data : Vec n d) (dataParty : Fin 3) : PartyM 3 d G (EVector 2 n d) :=
  if partyID = dataParty then do
    let shares ← getShares data
    sendShares partyID (shares 1 0) 1
    sendShares partyID (shares 1 1) 1
    sendShares partyID (shares 2 0) 2
    sendShares partyID (shares 2 1) 2
    return shares 0
  else do
    let s0 ← receiveShares partyID n ((dataParty : ℕ) - (partyID : ℕ) : ℤ)
    let s1 ← receiveShares partyID n ((dataParty : ℕ) - (partyID : ℕ) : ℤ)
    return ![s0, s1]

def secretShareA (partyID : Fin 3) (data : Vec n d) (dataParty : Fin 3) :
    PartyM 3 d G (EVector 2 n d) :=
  secretShare getSharesA partyID data dataParty

def secretShareB (partyID : Fin 3) (data : Vec n d) (dataParty : Fin 3) :
    PartyM 3 d G (EVector 2 n d) :=
  secretShare getSharesB partyID data dataParty

/-! ## Conversions -/

/-- The arithmetic component of the opened bits; `r` is the shared random bit, which the code has
fixed to zero. -/
def b2aBitLocal (partyID : Fin 3) (r bit : Vec n d) : Vec n d := fun j =>
  (r j * (bit j * (-2) + 1) + bit j * BitVec.ofNat _ ((partyID : ℕ) % 2)) &&& 1

def b2aBit (partyID : Fin 3) (x : EVector 2 n d) : PartyM 3 d G (EVector 2 n d) := do
  let rCompressed : Vec (compressedSize d n 0 1 0 1) d := 0
  let compressed0 := simpleBitCompress (x 0) 0 1 0 1 ^^^ rCompressed
  let compressed1 ← exchangeShares partyID compressed0 1 2
  let opened ← openSharesB partyID ![compressed0, compressed1]
  let bit := simpleBitDecompress 0 opened 0 1 0 1
  let r := simpleBitDecompress 0 rCompressed 0 1 0 1
  let res0 := b2aBitLocal partyID r bit
  let compressed0 := simpleBitCompress res0 0 1 0 1
  let compressed1 ← exchangeShares partyID compressed0 1 2
  return ![simpleBitDecompress res0 compressed0 0 1 0 1, simpleBitDecompress 0 compressed1 0 1 0 1]

def redistributeSharesB (partyID : Fin 3) (x : EVector 2 n d) :
    PartyM 3 d G (EVector 2 n d × EVector 2 n d) := do
  let vec := x 0 + x 1
  let b0 ← secretShareB partyID vec 0
  let b1 ← secretShareB partyID (x 0) 1
  return (b0, b1)

/-- The primitives of one party. -/
def protocol (d : DataType) (G : Type) [RandomGenerator G d] (partyID : Fin 3) :
    Protocol 3 2 d G where
  addA := addA
  subA := subA
  multiplyA := multiplyA partyID
  negA := negA
  divConstA := divConstA partyID
  xorB := xorB
  andB := andB partyID
  notB := notB
  notB1 := notB1
  ltz := ltz
  b2aBit := b2aBit partyID
  redistributeSharesB := redistributeSharesB partyID
  openSharesA := openSharesA partyID
  openSharesB := openSharesB partyID
  secretShareA := secretShareA partyID
  secretShareB := secretShareB partyID

end Tva.Replicated3pc
