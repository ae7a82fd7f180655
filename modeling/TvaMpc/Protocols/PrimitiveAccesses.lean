import TvaMpc.Containers.VectorAccesses
import TvaMpc.Protocols.Fantastic4pc
import TvaMpc.Protocols.Replicated3pc

/-!
# Protocols/PrimitiveAccesses — which elements the primitives of the protocols access

The runtime calls a primitive on one batch of its operands.  `Lawful`: a primitive accesses only
elements that its operands have, provided that they have equally many; a product also needs a batch
of at least `least` elements.

`Fantastic_4PC` has `least = 3`: its products pass the number of a channel where `getMultipleNext`
takes the size, so they fill up to three elements of vectors that may have fewer.  A check that
accuses a party ends a run early; the accesses here are those of a run without accusations.
-/

namespace Tva.Accesses

open Machinery

variable {ρ : ℕ}

/-! ## The communicator and the random generator -/

/-- `sendShares`. -/
def sendShares (shares : VectorShape) (size : ℤ) : Accessing Unit :=
  VectorShape.loop size shares.access

/-- `receiveShares`. -/
def receiveShares (shares : VectorShape) (size : ℤ) : Accessing Unit :=
  VectorShape.loop size shares.access

/-- `exchangeShares`. -/
def exchangeShares (sent received : VectorShape) (size : ℤ) : Accessing Unit :=
  VectorShape.loop size fun i => do
    received.access i
    sent.access i

/-- `getMultipleNext` and `getMultipleRandom`. -/
def getMultipleNext (nums : VectorShape) (size : ℤ) : Accessing Unit :=
  VectorShape.loop size nums.access

/-- The primitives that the operators call, on the batches of their operands. -/
structure Primitives (ρ : ℕ) where
  addA : EVectorShape ρ → EVectorShape ρ → Accessing (EVectorShape ρ)
  subA : EVectorShape ρ → EVectorShape ρ → Accessing (EVectorShape ρ)
  multiplyA : EVectorShape ρ → EVectorShape ρ → Accessing (EVectorShape ρ)
  xorB : EVectorShape ρ → EVectorShape ρ → Accessing (EVectorShape ρ)
  andB : EVectorShape ρ → EVectorShape ρ → Accessing (EVectorShape ρ)
  notB : EVectorShape ρ → Accessing (EVectorShape ρ)
  notB1 : EVectorShape ρ → Accessing (EVectorShape ρ)
  ltz : EVectorShape ρ → Accessing (EVectorShape ρ)
  b2aBit : EVectorShape ρ → Accessing (EVectorShape ρ)
  redistributeSharesB : EVectorShape ρ → Accessing (EVectorShape ρ × EVectorShape ρ)
  secretShareA : VectorShape → Accessing (EVectorShape ρ)
  secretShareB : VectorShape → Accessing (EVectorShape ρ)

/-- **The primitives access only what their operands have.** -/
structure Primitives.Lawful (P : Primitives ρ) (least : ℕ) : Prop where
  addA {x y : EVectorShape ρ} {s : ℕ} (hx : x.Spans s) (hy : y.Spans s) :
    Spec True (P.addA x y) (·.Spans s)
  subA {x y : EVectorShape ρ} {s : ℕ} (hx : x.Spans s) (hy : y.Spans s) :
    Spec True (P.subA x y) (·.Spans s)
  multiplyA {x y : EVectorShape ρ} {s : ℕ} (hx : x.Spans s) (hy : y.Spans s) :
    Spec (least ≤ s) (P.multiplyA x y) (·.Spans s)
  xorB {x y : EVectorShape ρ} {s : ℕ} (hx : x.Spans s) (hy : y.Spans s) :
    Spec True (P.xorB x y) (·.Spans s)
  andB {x y : EVectorShape ρ} {s : ℕ} (hx : x.Spans s) (hy : y.Spans s) :
    Spec (least ≤ s) (P.andB x y) (·.Spans s)
  notB {x : EVectorShape ρ} {s : ℕ} (hx : x.Spans s) : Spec True (P.notB x) (·.Spans s)
  notB1 {x : EVectorShape ρ} {s : ℕ} (hx : x.Spans s) : Spec True (P.notB1 x) (·.Spans s)
  ltz {x : EVectorShape ρ} {s : ℕ} (hx : x.Spans s) : Spec True (P.ltz x) (·.Spans s)
  b2aBit {x : EVectorShape ρ} {s : ℕ} (hx : x.Spans s) : Spec True (P.b2aBit x) (·.Spans s)
  redistributeSharesB {x : EVectorShape ρ} {s : ℕ} (hx : x.Spans s) :
    Spec True (P.redistributeSharesB x) fun res => res.1.Spans s ∧ res.2.Spans s
  secretShareA {x : VectorShape} {s : ℕ} (hx : x.Spans s) :
    Spec True (P.secretShareA x) (·.Spans s)
  secretShareB {x : VectorShape} {s : ℕ} (hx : x.Spans s) :
    Spec True (P.secretShareB x) (·.Spans s)

open VectorShape

section Transfers

variable {v w : VectorShape} {s : ℕ} {size : ℤ}

theorem spec_sendShares (hsize : size = s) (hv : v.Spans s) :
    Spec True (sendShares v size) fun _ => True :=
  spec_loop_safe hsize fun _ hi => spec_access hv hi

theorem spec_receiveShares (hsize : size = s) (hv : v.Spans s) :
    Spec True (receiveShares v size) fun _ => True :=
  spec_loop_safe hsize fun _ hi => spec_access hv hi

theorem spec_exchangeShares (hsize : size = s) (hv : v.Spans s) (hw : w.Spans s) :
    Spec True (exchangeShares v w size) fun _ => True :=
  spec_loop_safe hsize fun _ hi => (spec_access hw hi).safe fun _ _ => spec_access hv hi

/-- The generator fills as many elements as it is told to. -/
theorem spec_getMultipleNext (hv : v.Whole s) (k : ℕ) :
    Spec (k ≤ s) (getMultipleNext v k) fun _ => True :=
  (spec_loop (c := fun i => i < s) rfl fun i _ => spec_access_iff hv i).iff
    ⟨fun h => not_lt.mp fun hlt => lt_irrefl _ (h s hlt), fun h _ hi => hi.trans_le h⟩

theorem spec_getMultipleNext_safe (hsize : size = s) (hv : v.Whole s) :
    Spec True (getMultipleNext v size) fun _ => True :=
  hsize ▸ (spec_getMultipleNext hv s).iff (iff_true_intro le_rfl)

end Transfers

section Columns

variable {x y : EVectorShape ρ} {s : ℕ}

theorem spec_binary (hx : x.Spans s) (hy : y.Spans s) : Spec True (x.binaryOp y) (·.Spans s) :=
  (EVectorShape.spec_binaryOp hx hy).post fun _ h => h.spans

theorem spec_unary (hx : x.Spans s) : Spec True x.unaryOp (·.Spans s) :=
  (EVectorShape.spec_unaryOp hx).post fun _ h => h.spans

end Columns

/-! ## `Replicated_3PC` -/

namespace Replicated3pc

/-- The flow of `multiply_a` and `and_b`. -/
def gate (x y : EVectorShape 2) : Accessing (EVectorShape 2) := do
  let size := (x 0).size
  let r := VectorShape.new size
  getMultipleNext r size
  let z00 ← (x 0).binaryOp (y 0)
  let z01 ← (x 0).binaryOp (y 1)
  let sum ← z00.binaryOp z01
  let z10 ← (x 1).binaryOp (y 0)
  let sum ← sum.binaryOp z10
  let own ← sum.binaryOp r
  let remote := VectorShape.new size
  exchangeShares own remote size
  return ![own, remote]

/-- `open_shares_b`. -/
def openSharesB (shares : EVectorShape 2) : Accessing VectorShape := do
  let size := (shares 0).size
  let shares3 := VectorShape.new size
  exchangeShares (shares 1) shares3 size
  let sum ← (shares 0).binaryOp (shares 1)
  sum.binaryOp shares3

/-- The computation of `b2a_bit` on the opened bits: `(r * (res(0) * (-2) + 1) + res(0) * pid) & 1`,
assigned to `res(0)`. -/
def b2aLocal (res0 r : VectorShape) : Accessing Unit := do
  let twice ← res0.unaryOp
  let sign ← twice.unaryOp
  let product ← r.binaryOp sign
  let own ← res0.unaryOp
  let sum ← product.binaryOp own
  let bit ← sum.unaryOp
  res0.assign bit

/-- `b2a_bit`. -/
def b2aBit (d : DataType) (x : EVectorShape 2) : Accessing (EVectorShape 2) := do
  let size := (x 0).size
  let res : EVectorShape 2 := .new size
  let r := VectorShape.new size
  let resCompressed ← x.simpleBitCompress d 0 1 0 1
  let rCompressed := VectorShape.new (resCompressed 0).size
  let masked ← (resCompressed 0).binaryOp rCompressed
  (resCompressed 0).assign masked
  exchangeShares (resCompressed 0) (resCompressed 1) (resCompressed 0).size
  let resOpenCompressed ← openSharesB resCompressed
  (res 0).simpleBitDecompress d resOpenCompressed 0 1 0 1
  r.simpleBitDecompress d rCompressed 0 1 0 1
  b2aLocal (res 0) r
  let packed ← (res 0).simpleBitCompress d 0 1 0 1
  (resCompressed 0).assign packed
  exchangeShares (resCompressed 0) (resCompressed 1) (resCompressed 0).size
  res.simpleBitDecompress d resCompressed 0 1 0 1
  return res

/-- The sender's part of `secret_share_a` and `secret_share_b`: `get_shares`, and the components for
the other parties. -/
def sendSecret (data : VectorShape) : Accessing (EVectorShape 2) := do
  let size := data.size
  let share1 := VectorShape.new size
  let share2 := VectorShape.new size
  getMultipleNext share1 size
  getMultipleNext share2 size
  let rest ← data.binaryOp share1
  let share3 ← rest.binaryOp share2
  sendShares share2 size
  sendShares share1 size
  sendShares share3 size
  sendShares share2 size
  return ![share1, share3]

/-- The receiver's part. -/
def receiveSecret (size : ℤ) : Accessing (EVectorShape 2) := do
  let s : EVectorShape 2 := .new size
  receiveShares (s 0) size
  receiveShares (s 1) size
  return s

/-- `secret_share_a` and `secret_share_b`. -/
def secretShare (partyID : Fin 3) (data : VectorShape) (dataParty : Fin 3) :
    Accessing (EVectorShape 2) :=
  if partyID = dataParty then sendSecret data else receiveSecret data.size

/-- `redistribute_shares_b`. -/
def redistributeSharesB (partyID : Fin 3) (x : EVectorShape 2) :
    Accessing (EVectorShape 2 × EVectorShape 2) := do
  let vec ← (x 0).binaryOp (x 1)
  let first ← secretShare partyID vec 0
  let second ← secretShare partyID (x 0) 1
  return (first, second)

/-- The primitives at a party. -/
def primitives (d : DataType) (partyID : Fin 3) : Primitives 2 where
  addA := EVectorShape.binaryOp
  subA := EVectorShape.binaryOp
  multiplyA := gate
  xorB := EVectorShape.binaryOp
  andB := gate
  notB := EVectorShape.unaryOp
  notB1 := EVectorShape.unaryOp
  ltz := EVectorShape.unaryOp
  b2aBit := b2aBit d
  redistributeSharesB := redistributeSharesB partyID
  secretShareA data := secretShare partyID data 0
  secretShareB data := secretShare partyID data 0

section Spec

variable {d : DataType} {s : ℕ} {x y : EVectorShape 2} {a b : VectorShape}

theorem spans_two (ha : a.Spans s) (hb : b.Spans s) : EVectorShape.Spans ![a, b] s
  | 0 => ha
  | 1 => hb

theorem spec_gate (hx : x.Spans s) (hy : y.Spans s) : Spec True (gate x y) (·.Spans s) := by
  have hnew := whole_new s
  rw [gate, (hx 0).size]
  refine (spec_getMultipleNext_safe rfl hnew).safe fun _ _ => ?_
  refine (spec_binaryOp (hx 0) (hy 0)).safe fun _ h00 => ?_
  refine (spec_binaryOp (hx 0) (hy 1)).safe fun _ h01 => ?_
  refine (spec_binaryOp h00.spans h01.spans).safe fun _ hsum => ?_
  refine (spec_binaryOp (hx 1) (hy 0)).safe fun _ h10 => ?_
  refine (spec_binaryOp hsum.spans h10.spans).safe fun _ hsum => ?_
  refine (spec_binaryOp hsum.spans hnew.spans).safe fun _ hown => ?_
  refine (spec_exchangeShares rfl hown.spans hnew.spans).safe fun _ _ => ?_
  exact .pure (spans_two hown.spans hnew.spans)

theorem spec_openSharesB (hx : x.Spans s) : Spec True (openSharesB x) (·.Whole s) := by
  have hnew := whole_new s
  rw [openSharesB, (hx 0).size]
  refine (spec_exchangeShares rfl (hx 1) hnew.spans).safe fun _ _ => ?_
  refine (spec_binaryOp (hx 0) (hx 1)).safe fun _ hsum => ?_
  exact spec_binaryOp hsum.spans hnew.spans

theorem spec_b2aLocal (ha : a.Spans s) (hb : b.Spans s) :
    Spec True (b2aLocal a b) fun _ => True := by
  refine (spec_unaryOp ha).safe fun _ htwice => ?_
  refine (spec_unaryOp htwice.spans).safe fun _ hsign => ?_
  refine (spec_binaryOp hb hsign.spans).safe fun _ hproduct => ?_
  refine (spec_unaryOp ha).safe fun _ hown => ?_
  refine (spec_binaryOp hproduct.spans hown.spans).safe fun _ hsum => ?_
  refine (spec_unaryOp hsum.spans).safe fun _ hbit => ?_
  exact spec_assign_safe ha hbit.spans

theorem spec_b2aBit (hx : x.Spans s) : Spec True (b2aBit d x) (·.Spans s) := by
  have hres : EVectorShape.Whole (.new s : EVectorShape 2) s := EVectorShape.whole_new s
  have hr := whole_new s
  rw [b2aBit, (hx 0).size]
  refine (EVectorShape.spec_simpleBitCompress hx).safe fun packed hpacked => ?_
  have hrpacked := whole_new (compressedSize d s 0 1 0 1)
  simp only [(hpacked 0).size]
  refine (spec_binaryOp (hpacked 0).spans hrpacked.spans).safe fun _ hmasked => ?_
  refine (spec_assign_safe (hpacked 0).spans hmasked.spans).safe fun _ _ => ?_
  refine (spec_exchangeShares rfl (hpacked 0).spans (hpacked 1).spans).safe fun _ _ => ?_
  refine (spec_openSharesB hpacked.spans).safe fun _ hopen => ?_
  refine (spec_simpleBitDecompress (hres 0).spans hopen.spans).safe fun _ _ => ?_
  refine (spec_simpleBitDecompress hr.spans hrpacked.spans).safe fun _ _ => ?_
  refine (spec_b2aLocal (hres 0).spans hr.spans).safe fun _ _ => ?_
  refine (spec_simpleBitCompress (hres 0).spans).safe fun _ hown => ?_
  refine (spec_assign_safe (hpacked 0).spans hown.spans).safe fun _ _ => ?_
  refine (spec_exchangeShares rfl (hpacked 0).spans (hpacked 1).spans).safe fun _ _ => ?_
  refine (EVectorShape.spec_simpleBitDecompress hres.spans hpacked.spans).safe fun _ _ => ?_
  exact .pure hres.spans

theorem spec_secretShare (partyID dataParty : Fin 3) (ha : a.Spans s) :
    Spec True (secretShare partyID a dataParty) (·.Spans s) := by
  have hnew := whole_new s
  rw [secretShare]
  split
  · rw [sendSecret, ha.size]
    refine (spec_getMultipleNext_safe rfl hnew).safe fun _ _ => ?_
    refine (spec_getMultipleNext_safe rfl hnew).safe fun _ _ => ?_
    refine (spec_binaryOp ha hnew.spans).safe fun _ hrest => ?_
    refine (spec_binaryOp hrest.spans hnew.spans).safe fun _ hthird => ?_
    refine (spec_sendShares rfl hnew.spans).safe fun _ _ => ?_
    refine (spec_sendShares rfl hnew.spans).safe fun _ _ => ?_
    refine (spec_sendShares rfl hthird.spans).safe fun _ _ => ?_
    refine (spec_sendShares rfl hnew.spans).safe fun _ _ => ?_
    exact .pure (spans_two hnew.spans hthird.spans)
  · rw [receiveSecret, ha.size]
    refine (spec_receiveShares rfl hnew.spans).safe fun _ _ => ?_
    refine (spec_receiveShares rfl hnew.spans).safe fun _ _ => ?_
    exact .pure (EVectorShape.whole_new s).spans

theorem spec_redistributeSharesB (partyID : Fin 3) (hx : x.Spans s) :
    Spec True (redistributeSharesB partyID x) fun res => res.1.Spans s ∧ res.2.Spans s := by
  refine (spec_binaryOp (hx 0) (hx 1)).safe fun _ hvec => ?_
  refine (spec_secretShare partyID 0 hvec.spans).safe fun _ hfirst => ?_
  refine (spec_secretShare partyID 1 (hx 0)).safe fun _ hsecond => ?_
  exact .pure ⟨hfirst, hsecond⟩

/-- **Every batch is large enough for `Replicated_3PC`.** -/
theorem lawful (d : DataType) (partyID : Fin 3) : (primitives d partyID).Lawful 0 where
  addA := spec_binary
  subA := spec_binary
  multiplyA hx hy := (spec_gate hx hy).iff (iff_of_true trivial (Nat.zero_le _))
  xorB := spec_binary
  andB hx hy := (spec_gate hx hy).iff (iff_of_true trivial (Nat.zero_le _))
  notB := spec_unary
  notB1 := spec_unary
  ltz := spec_unary
  b2aBit := spec_b2aBit
  redistributeSharesB := spec_redistributeSharesB partyID
  secretShareA := spec_secretShare partyID 0
  secretShareB := spec_secretShare partyID 0

end Spec

end Replicated3pc

/-! ## `Fantastic_4PC` -/

namespace Fantastic4pc

/-- The loop that compares two copies of a message. -/
def check (a b : VectorShape) (size : ℤ) : Accessing Unit :=
  VectorShape.loop size fun i => do
    a.access i
    b.access i

/-- `x(i) * y(j) + x(j) * y(i) - r`. -/
def masked (x y : EVectorShape 3) (i j : Fin 3) (r : VectorShape) : Accessing VectorShape := do
  let a ← (x i).binaryOp (y j)
  let b ← (x j).binaryOp (y i)
  let sum ← a.binaryOp b
  sum.binaryOp r

/-- The vectors of the second round. -/
structure Second where
  r21 : VectorShape
  r22 : VectorShape
  r23 : VectorShape
  shares21 : VectorShape
  shares22 : VectorShape
  shares22Hash : VectorShape

/-- The vectors of the second round, as they are declared. -/
def Second.new (size : ℤ) : Second :=
  ⟨.new size, .new size, .new size, .new size, .new size, .new size⟩

/-- `r_2_3`. -/
def drawThird (partyID : Fin 4) (s : Second) : Accessing Unit :=
  if partyID = 1 ∨ partyID = 1 then getMultipleNext s.r23 2 else return ()

/-- The sends of the second round: every party is in one of the two branches. -/
def sendSecond (partyID : Fin 4) (x y : EVectorShape 3) (size : ℤ) (s : Second) :
    Accessing Unit :=
  if partyID = 0 ∨ partyID = 3 then do
    getMultipleNext s.r21 3
    let product ← masked x y 0 2 s.r21
    s.shares21.assign product
    sendShares s.shares21 size
  else do
    getMultipleNext s.r22 1
    let product ← masked x y 0 2 s.r22
    s.shares21.assign product
    sendShares s.shares21 size

/-- The receives of the second round. -/
def receiveSecond (partyID : Fin 4) (size : ℤ) (s : Second) : Accessing Unit :=
  if partyID = 2 ∨ partyID = 3 then do
    receiveShares s.shares22 size
    receiveShares s.shares22Hash size
    check s.shares22 s.shares22Hash size
  else return ()

/-- A sum of vectors, from the left. -/
def sums (first : VectorShape) : List VectorShape → Accessing VectorShape
  | [] => return first
  | next :: rest => do
      let sum ← first.binaryOp next
      sums sum rest

/-- The sums that a party returns. -/
def gateShares (partyID : Fin 4) (x y : EVectorShape 3)
    (shares11 r11 shares12 r12 shares13 r13 : VectorShape) (s : Second) :
    Accessing (EVectorShape 3) := do
  let z0 ← (x 0).binaryOp (y 0)
  let out1 ← sums z0 ([shares11, r11] ++
    match partyID with
    | 0 => [s.shares21, s.r23]
    | 1 => [s.r23]
    | 2 => []
    | 3 => [s.shares21])
  let z1 ← (x 1).binaryOp (y 1)
  let out2 ← sums z1 ([shares12, r12] ++
    match partyID with
    | 0 => [s.r21]
    | 1 => [s.r22]
    | 2 => [s.shares22, s.r22]
    | 3 => [s.shares22, s.r21])
  let z2 ← (x 2).binaryOp (y 2)
  let out3 ← sums z2 ([shares13, r13] ++
    match partyID with
    | 0 => []
    | 1 => [s.shares21]
    | 2 => [s.shares21]
    | 3 => [])
  return ![out1, out2, out3]

/-- The flow of `multiply_a` and `and_b`.  `getMultipleNext` gets a channel's number as the size. -/
def gate (partyID : Fin 4) (x y : EVectorShape 3) : Accessing (EVectorShape 3) := do
  let size := (x 0).size
  let r11 := VectorShape.new size
  let r12 := VectorShape.new size
  let r13 := VectorShape.new size
  getMultipleNext r11 1
  getMultipleNext r12 2
  getMultipleNext r13 3
  let shares11 ← masked x y 0 1 r11
  let shares12 ← masked x y 1 2 r12
  let shares13 := VectorShape.new size
  let shares13Hash := VectorShape.new size
  exchangeShares shares11 shares13 size
  exchangeShares shares12 shares13Hash size
  check shares13 shares13Hash size
  let s := Second.new size
  drawThird partyID s
  sendSecond partyID x y size s
  receiveSecond partyID size s
  gateShares partyID x y shares11 r11 shares12 r12 shares13 r13 s

/-- `not_b` and `not_b_1`: the column of the component of party `2`. -/
def notColumn (partyID : Fin 4) (x : EVectorShape 3) : Accessing (EVectorShape 3) :=
  match partyID with
  | 0 => do
      let z ← (x 2).unaryOp
      return ![x 0, x 1, z]
  | 1 => do
      let z ← (x 1).unaryOp
      return ![x 0, z, x 2]
  | 2 => do
      let z ← (x 0).unaryOp
      return ![z, x 1, x 2]
  | 3 => return ![x 0, x 1, x 2]

/-- `open_shares_b`. -/
def openSharesB (shares : EVectorShape 3) : Accessing VectorShape := do
  let size := (shares 0).size
  let shares4 := VectorShape.new size
  exchangeShares (shares 0) shares4 size
  sums (shares 0) [shares 1, shares 2, shares4]

/-- `res(c) = (res_open * pid - r(c) * (res_open * 2 - 1)) & 1`. -/
def b2aLocal (resOpen : VectorShape) (res r : VectorShape) : Accessing Unit := do
  let own ← resOpen.unaryOp
  let twice ← resOpen.unaryOp
  let sign ← twice.unaryOp
  let product ← r.binaryOp sign
  let difference ← own.binaryOp product
  let bit ← difference.unaryOp
  res.assign bit

/-- `b2a_bit`. -/
def b2aBit (d : DataType) (x : EVectorShape 3) : Accessing (EVectorShape 3) := do
  let size := (x 0).size
  let res : EVectorShape 3 := .new size
  let r : EVectorShape 3 := .new size
  let sum ← x.binaryOp r
  let bits ← sum.unaryOp
  res.assign bits
  let resCompressed ← res.simpleBitCompress d 0 1 0 1
  let resCompressedOpen ← openSharesB resCompressed
  let resOpen := VectorShape.new size
  resOpen.simpleBitDecompress d resCompressedOpen 0 1 0 1
  EVectorShape.forColumns fun c => b2aLocal resOpen (res c) (r c)
  return res

/-- `inp_b`: the parties `i`, `j`, `g` and `h` mask, mask again, compare and draw. -/
def inpB (partyID : Fin 4) (x : VectorShape) (i j g h : Fin 4) : Accessing (EVectorShape 3) := do
  let size := x.size
  let res : EVectorShape 3 := .new size
  let mask (a b : Fin 3) : Accessing Unit := do
    getMultipleNext (res a) size
    let own ← x.binaryOp (res a)
    (res b).assign own
    sendShares (res b) (res b).size
  let compare : Accessing Unit := do
    let other := VectorShape.new size
    receiveShares (res 0) size
    receiveShares other size
    other.sameAs (res 0)
  if partyID = i then mask 0 1
  else if partyID = j then mask 1 2
  else if partyID = g then compare
  else if partyID = h then getMultipleNext (res 2) size
  return res

/-- `redistribute_shares_b`. -/
def redistributeSharesB (partyID : Fin 4) (x : EVectorShape 3) :
    Accessing (EVectorShape 3 × EVectorShape 3) := do
  let size := (x 0).size
  let res1 : EVectorShape 3 := .new size
  let res2 : EVectorShape 3 := .new size
  let res ← (if partyID = 0 ∨ partyID = 2 then (x 0).binaryOp (x 1) else (x 1).binaryOp (x 2))
  let first ← inpB partyID res 0 3 1 2
  res1.assign first
  let second ← inpB partyID res 2 1 3 0
  res2.assign second
  return (res1, res2)

/-- The sender's part of `secret_share_a` and `secret_share_b`. -/
def sendSecret (data : VectorShape) : Accessing (EVectorShape 3) := do
  let size := data.size
  let share1 := VectorShape.new size
  let share2 := VectorShape.new size
  let share3 := VectorShape.new size
  getMultipleNext share1 size
  getMultipleNext share2 size
  getMultipleNext share3 size
  let share4 ← sums data [share1, share2, share3]
  let sharesOfOthers := [share3, share4, share1, share4, share1, share2, share1, share2, share3]
  sharesOfOthers.forM fun share => sendShares share size
  return ![share2, share3, share4]

/-- The receiver's part. -/
def receiveSecret (size : ℤ) : Accessing (EVectorShape 3) := do
  let s : EVectorShape 3 := .new size
  receiveShares (s 0) size
  receiveShares (s 1) size
  receiveShares (s 2) size
  return s

/-- `secret_share_a` and `secret_share_b`. -/
def secretShare (partyID : Fin 4) (data : VectorShape) (dataParty : Fin 4) :
    Accessing (EVectorShape 3) :=
  if partyID = dataParty then sendSecret data else receiveSecret data.size

/-- The primitives at a party. -/
def primitives (d : DataType) (partyID : Fin 4) : Primitives 3 where
  addA := EVectorShape.binaryOp
  subA := EVectorShape.binaryOp
  multiplyA := gate partyID
  xorB := EVectorShape.binaryOp
  andB := gate partyID
  notB := notColumn partyID
  notB1 := notColumn partyID
  ltz := EVectorShape.unaryOp
  b2aBit := b2aBit d
  redistributeSharesB := redistributeSharesB partyID
  secretShareA data := secretShare partyID data 0
  secretShareB data := secretShare partyID data 0

section Spec

variable {d : DataType} {partyID : Fin 4} {s : ℕ} {x y : EVectorShape 3} {a b r : VectorShape}

theorem spans_three {c : VectorShape} (ha : a.Spans s) (hb : b.Spans s) (hc : c.Spans s) :
    EVectorShape.Spans ![a, b, c] s
  | 0 => ha
  | 1 => hb
  | 2 => hc

theorem spec_check (ha : a.Spans s) (hb : b.Spans s) : Spec True (check a b s) fun _ => True :=
  spec_loop_safe rfl fun _ hi => (spec_access ha hi).safe fun _ _ => spec_access hb hi

theorem spec_masked (hx : x.Spans s) (hy : y.Spans s) (hr : r.Spans s) (i j : Fin 3) :
    Spec True (masked x y i j r) (·.Whole s) := by
  refine (spec_binaryOp (hx i) (hy j)).safe fun _ hij => ?_
  refine (spec_binaryOp (hx j) (hy i)).safe fun _ hji => ?_
  refine (spec_binaryOp hij.spans hji.spans).safe fun _ hsum => ?_
  exact spec_binaryOp hsum.spans hr

theorem spec_sums {l : List VectorShape} (ha : a.Spans s) (hl : ∀ v ∈ l, v.Spans s) :
    Spec True (sums a l) (·.Spans s) := by
  induction l generalizing a with
  | nil => exact .pure ha
  | cons v l ih =>
    refine (spec_binaryOp ha (hl v List.mem_cons_self)).safe fun _ hsum => ?_
    exact ih hsum.spans fun w hw => hl w (List.mem_cons_of_mem _ hw)

/-- The vectors of the second round have the size of the batch. -/
structure Second.Whole (v : Second) (s : ℕ) : Prop where
  r21 : v.r21.Whole s
  r22 : v.r22.Whole s
  r23 : v.r23.Whole s
  shares21 : v.shares21.Whole s
  shares22 : v.shares22.Whole s
  shares22Hash : v.shares22Hash.Whole s

theorem Second.whole_new (s : ℕ) : Second.Whole (.new s) s :=
  ⟨VectorShape.whole_new s, VectorShape.whole_new s, VectorShape.whole_new s,
    VectorShape.whole_new s, VectorShape.whole_new s, VectorShape.whole_new s⟩

variable {v : Second}

theorem spec_drawThird (hv : v.Whole s) :
    Spec (partyID = 1 → 2 ≤ s) (drawThird partyID v) fun _ => True := by
  rw [drawThird]
  split
  next h => exact (spec_getMultipleNext hv.r23 2).iff (by simp [(or_self _).mp h])
  next h => exact (Logged.Spec.pure trivial).iff (iff_of_true trivial fun h1 => absurd (.inl h1) h)

theorem spec_sendSecond (hx : x.Spans s) (hy : y.Spans s) (hv : v.Whole s) :
    Spec ((if partyID = 0 ∨ partyID = 3 then 3 else 1) ≤ s) (sendSecond partyID x y s v)
      fun _ => True := by
  rw [sendSecond]
  split
  · refine (spec_getMultipleNext hv.r21 3).andThen fun _ _ => ?_
    refine (spec_masked hx hy hv.r21.spans 0 2).safe fun _ hproduct => ?_
    refine (spec_assign_safe hv.shares21.spans hproduct.spans).safe fun _ _ => ?_
    exact spec_sendShares rfl hv.shares21.spans
  · refine (spec_getMultipleNext hv.r22 1).andThen fun _ _ => ?_
    refine (spec_masked hx hy hv.r22.spans 0 2).safe fun _ hproduct => ?_
    refine (spec_assign_safe hv.shares21.spans hproduct.spans).safe fun _ _ => ?_
    exact spec_sendShares rfl hv.shares21.spans

theorem spec_receiveSecond (hv : v.Whole s) :
    Spec True (receiveSecond partyID s v) fun _ => True := by
  rw [receiveSecond]
  split
  · refine (spec_receiveShares rfl hv.shares22.spans).safe fun _ _ => ?_
    refine (spec_receiveShares rfl hv.shares22Hash.spans).safe fun _ _ => ?_
    exact spec_check hv.shares22.spans hv.shares22Hash.spans
  · exact .pure trivial

theorem spec_gateShares {v11 v12 v13 r11 r12 r13 : VectorShape} (hx : x.Spans s) (hy : y.Spans s)
    (h11 : v11.Whole s) (hr11 : r11.Whole s) (h12 : v12.Whole s) (hr12 : r12.Whole s)
    (h13 : v13.Whole s) (hr13 : r13.Whole s) (hv : v.Whole s) :
    Spec True (gateShares partyID x y v11 r11 v12 r12 v13 r13 v) (·.Spans s) := by
  refine (spec_binaryOp (hx 0) (hy 0)).safe fun _ hz0 => ?_
  refine (spec_sums hz0.spans ?_).safe fun _ hout1 => ?_
  · match partyID with
    | 0 | 1 | 2 | 3 => simp [h11.spans, hr11.spans, hv.shares21.spans, hv.r23.spans]
  refine (spec_binaryOp (hx 1) (hy 1)).safe fun _ hz1 => ?_
  refine (spec_sums hz1.spans ?_).safe fun _ hout2 => ?_
  · match partyID with
    | 0 | 1 | 2 | 3 =>
      simp [h12.spans, hr12.spans, hv.shares22.spans, hv.r21.spans, hv.r22.spans]
  refine (spec_binaryOp (hx 2) (hy 2)).safe fun _ hz2 => ?_
  refine (spec_sums hz2.spans ?_).safe fun _ hout3 => ?_
  · match partyID with
    | 0 | 1 | 2 | 3 => simp [h13.spans, hr13.spans, hv.shares21.spans]
  exact .pure (spans_three hout1 hout2 hout3)

/-- **A product fills three elements of its masks**, however many they have. -/
theorem spec_gate (hx : x.Spans s) (hy : y.Spans s) :
    Spec (3 ≤ s) (gate partyID x y) (·.Spans s) := by
  have hnew := whole_new s
  have hsecond := Second.whole_new s
  have hle : (1 ≤ s ∧ 2 ≤ s ∧ 3 ≤ s ∧ (partyID = 1 → 2 ≤ s)
      ∧ (if partyID = 0 ∨ partyID = 3 then 3 else 1) ≤ s) ↔ 3 ≤ s := by
    constructor
    · exact fun h => h.2.2.1
    · intro h
      split <;> omega
  rw [gate, (hx 0).size]
  refine Logged.Spec.iff ?_ hle
  refine (spec_getMultipleNext hnew 1).bind fun _ _ => ?_
  refine (spec_getMultipleNext hnew 2).bind fun _ _ => ?_
  refine (spec_getMultipleNext hnew 3).bind fun _ _ => ?_
  refine (spec_masked hx hy hnew.spans 0 1).safe fun _ h11 => ?_
  refine (spec_masked hx hy hnew.spans 1 2).safe fun _ h12 => ?_
  refine (spec_exchangeShares rfl h11.spans hnew.spans).safe fun _ _ => ?_
  refine (spec_exchangeShares rfl h12.spans hnew.spans).safe fun _ _ => ?_
  refine (spec_check hnew.spans hnew.spans).safe fun _ _ => ?_
  refine (spec_drawThird hsecond).bind fun _ _ => ?_
  refine (spec_sendSecond hx hy hsecond).andThen fun _ _ => ?_
  refine (spec_receiveSecond hsecond).safe fun _ _ => ?_
  exact spec_gateShares hx hy h11 hnew h12 hnew hnew hnew hsecond

theorem spec_notColumn (hx : x.Spans s) : Spec True (notColumn partyID x) (·.Spans s) :=
  match partyID with
  | 0 => (spec_unaryOp (hx 2)).safe fun _ hz => .pure (spans_three (hx 0) (hx 1) hz.spans)
  | 1 => (spec_unaryOp (hx 1)).safe fun _ hz => .pure (spans_three (hx 0) hz.spans (hx 2))
  | 2 => (spec_unaryOp (hx 0)).safe fun _ hz => .pure (spans_three hz.spans (hx 1) (hx 2))
  | 3 => .pure (spans_three (hx 0) (hx 1) (hx 2))

theorem spec_openSharesB (hx : x.Spans s) : Spec True (openSharesB x) (·.Spans s) := by
  have hnew := whole_new s
  rw [openSharesB, (hx 0).size]
  refine (spec_exchangeShares rfl (hx 0) hnew.spans).safe fun _ _ => ?_
  exact spec_sums (hx 0) (by simp [hx 1, hx 2, hnew.spans])

theorem spec_b2aLocal (ha : a.Spans s) (hb : b.Spans s) (hr : r.Spans s) :
    Spec True (b2aLocal a b r) fun _ => True := by
  refine (spec_unaryOp ha).safe fun _ hown => ?_
  refine (spec_unaryOp ha).safe fun _ htwice => ?_
  refine (spec_unaryOp htwice.spans).safe fun _ hsign => ?_
  refine (spec_binaryOp hr hsign.spans).safe fun _ hproduct => ?_
  refine (spec_binaryOp hown.spans hproduct.spans).safe fun _ hdifference => ?_
  refine (spec_unaryOp hdifference.spans).safe fun _ hbit => ?_
  exact spec_assign_safe hb hbit.spans

theorem spec_b2aBit (hx : x.Spans s) : Spec True (b2aBit d x) (·.Spans s) := by
  have hnew : EVectorShape.Whole (.new s : EVectorShape 3) s := EVectorShape.whole_new s
  have hopen := whole_new s
  rw [b2aBit, (hx 0).size]
  refine (EVectorShape.spec_binaryOp hx hnew.spans).safe fun _ hsum => ?_
  refine (EVectorShape.spec_unaryOp hsum.spans).safe fun _ hbits => ?_
  refine (EVectorShape.spec_assign_safe hnew.spans hbits.spans).safe fun _ _ => ?_
  refine (EVectorShape.spec_simpleBitCompress hnew.spans).safe fun _ hpacked => ?_
  refine (spec_openSharesB hpacked.spans).safe fun _ hpackedOpen => ?_
  refine (spec_simpleBitDecompress hopen.spans hpackedOpen).safe fun _ _ => ?_
  refine Logged.Spec.safe (Q := fun _ => True) ?_ fun _ _ => .pure hnew.spans
  exact .forM_safe fun c _ => spec_b2aLocal hopen.spans (hnew c).spans (hnew c).spans

theorem spec_inpB (partyID i j g h : Fin 4) (ha : a.Spans s) :
    Spec True (inpB partyID a i j g h) (·.Spans s) := by
  have hnew := whole_new s
  have hmask : ∀ v w : VectorShape, v.Whole s → w.Whole s →
      Spec True (do
        getMultipleNext v s
        let own ← a.binaryOp v
        w.assign own
        sendShares w w.size) fun _ => True := by
    intro v w hv hw
    refine (spec_getMultipleNext_safe rfl hv).safe fun _ _ => ?_
    refine (spec_binaryOp ha hv.spans).safe fun _ hown => ?_
    refine (spec_assign_safe hw.spans hown.spans).safe fun _ _ => ?_
    exact spec_sendShares hw.size hw.spans
  have hcompare : Spec True (do
        receiveShares (.new s) s
        receiveShares (.new s) s
        (VectorShape.new s).sameAs (.new s)) fun _ => True := by
    refine (spec_receiveShares rfl hnew.spans).safe fun _ _ => ?_
    refine (spec_receiveShares rfl hnew.spans).safe fun _ _ => ?_
    exact spec_sameAs hnew.spans hnew.spans
  rw [inpB, ha.size]
  have hres : Spec True (Pure.pure (EVectorShape.new s : EVectorShape 3)) (·.Spans s) :=
    .pure (EVectorShape.whole_new s).spans
  dsimp only
  split_ifs
  · exact (hmask _ _ hnew hnew).safe fun _ _ => hres
  · exact (hmask _ _ hnew hnew).safe fun _ _ => hres
  · exact hcompare.safe fun _ _ => hres
  · exact (spec_getMultipleNext_safe rfl hnew).safe fun _ _ => hres
  · exact hres

theorem spec_redistributeSharesB (partyID : Fin 4) (hx : x.Spans s) :
    Spec True (redistributeSharesB partyID x) fun res => res.1.Spans s ∧ res.2.Spans s := by
  have hnew : EVectorShape.Whole (.new s : EVectorShape 3) s := EVectorShape.whole_new s
  have hsum : Spec True (if partyID = 0 ∨ partyID = 2 then (x 0).binaryOp (x 1)
      else (x 1).binaryOp (x 2)) (·.Whole s) := by
    split
    · exact spec_binaryOp (hx 0) (hx 1)
    · exact spec_binaryOp (hx 1) (hx 2)
  rw [redistributeSharesB, (hx 0).size]
  refine hsum.safe fun _ hres => ?_
  refine (spec_inpB partyID 0 3 1 2 hres.spans).safe fun _ hfirst => ?_
  refine (EVectorShape.spec_assign_safe hnew.spans hfirst).safe fun _ _ => ?_
  refine (spec_inpB partyID 2 1 3 0 hres.spans).safe fun _ hsecond => ?_
  refine (EVectorShape.spec_assign_safe hnew.spans hsecond).safe fun _ _ => ?_
  exact .pure ⟨hnew.spans, hnew.spans⟩

theorem spec_secretShare (partyID dataParty : Fin 4) (ha : a.Spans s) :
    Spec True (secretShare partyID a dataParty) (·.Spans s) := by
  have hnew := whole_new s
  rw [secretShare]
  split
  · rw [sendSecret, ha.size]
    refine (spec_getMultipleNext_safe rfl hnew).safe fun _ _ => ?_
    refine (spec_getMultipleNext_safe rfl hnew).safe fun _ _ => ?_
    refine (spec_getMultipleNext_safe rfl hnew).safe fun _ _ => ?_
    refine (spec_sums ha (by simp [hnew.spans])).safe fun _ hfourth => ?_
    refine Logged.Spec.safe (Q := fun _ => True) (.forM_safe fun share hshare => ?_) fun _ _ =>
      .pure (spans_three hnew.spans hnew.spans hfourth)
    refine spec_sendShares rfl ?_
    simp only [List.mem_cons, List.not_mem_nil, or_false] at hshare
    rcases hshare with rfl | rfl | rfl | rfl | rfl | rfl | rfl | rfl | rfl <;>
      first | exact hnew.spans | exact hfourth
  · rw [receiveSecret, ha.size]
    refine (spec_receiveShares rfl hnew.spans).safe fun _ _ => ?_
    refine (spec_receiveShares rfl hnew.spans).safe fun _ _ => ?_
    refine (spec_receiveShares rfl hnew.spans).safe fun _ _ => ?_
    exact .pure (EVectorShape.whole_new s).spans

/-- **A batch of a product needs three elements under `Fantastic_4PC`.** -/
theorem lawful (d : DataType) (partyID : Fin 4) : (primitives d partyID).Lawful 3 where
  addA := spec_binary
  subA := spec_binary
  multiplyA := spec_gate
  xorB := spec_binary
  andB := spec_gate
  notB := spec_notColumn
  notB1 := spec_notColumn
  ltz := spec_unary
  b2aBit := spec_b2aBit
  redistributeSharesB := spec_redistributeSharesB partyID
  secretShareA := spec_secretShare partyID 0
  secretShareB := spec_secretShare partyID 0

end Spec

end Fantastic4pc

/-! ## A party of a protocol -/

/-- A party of one of the protocols, by the number of its components. -/
inductive PartyOf : ℕ → Type where
  | replicated3pc (partyID : Fin 3) : PartyOf 2
  | fantastic4pc (partyID : Fin 4) : PartyOf 3

namespace PartyOf

/-- The primitives of the party. -/
def primitives (d : DataType) : PartyOf ρ → Primitives ρ
  | replicated3pc partyID => Replicated3pc.primitives d partyID
  | fantastic4pc partyID => Fantastic4pc.primitives d partyID

/-- How many elements a batch of a product needs. -/
def least : PartyOf ρ → ℕ
  | replicated3pc _ => 0
  | fantastic4pc _ => 3

theorem lawful (d : DataType) (party : PartyOf ρ) : (party.primitives d).Lawful party.least :=
  match party with
  | replicated3pc partyID => Replicated3pc.lawful d partyID
  | fantastic4pc partyID => Fantastic4pc.lawful d partyID

end PartyOf

end Tva.Accesses
