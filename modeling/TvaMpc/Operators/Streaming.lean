import TvaMpc.Operators.Aggregation

/-!
# Operators/Streaming — session windows

`gapSessionWindow` and `thresholdSessionWindow` mark the rows that begin a session, put their
timestamps and `-1` elsewhere into the window column, and spread them by a maximum over the rows of
equal keys.
-/

namespace Tva.Operators

open Machinery

variable {N ρ n : ℕ} {d : DataType} {G : Type} [NeZero N] (P : Protocol N ρ d G)

/-- A vector of one secret-shared element, repeated. -/
def repeatedElement (n : ℕ) (x : EVector ρ 1 d) : EVector ρ n d := fun k =>
  ((VectorData.vectorData 1).repeatedSubsetReference n).read n (x k)

/-- The first assignment of `mark_gap_session`: the view has two elements if there are so many, the
vector one.  `pastEnd` is what is read behind it. -/
def markFirst (one : EVector ρ 1 d) (pastEnd : Fin ρ → Word d) (sessionStart : EVector ρ n d) :
    EVector ρ n d := fun k =>
  ((VectorData.vectorData n).simpleSubsetReference 0 1 1).write
    (fun i => if h : i < 1 then mask 1 (one k) ⟨i, h⟩ else pastEnd k) (sessionStart k)

/-- `mark_gap_session`. -/
def markGapSession (timestamp sessionStart : ℕ) (gap : Word d) (pastEnd : Fin ρ → Word d)
    (M : Memory ρ n d) : PartyM N d G (Memory ρ n d) := do
  let one ← P.secretShareB (fun _ : Fin 1 => 1) 0
  let M : Memory ρ n d :=
    Function.update M (.b sessionStart) (markFirst one pastEnd (M (.b sessionStart)))
  let sharedGapVec ← P.secretShareA (fun _ : Fin 1 => gap) 0
  let pairWiseGap := P.subA
    (P.addA (M.read (n - 1) ⟨.a timestamp, firstRows n 1⟩) (repeatedElement (n - 1) sharedGapVec))
    (M.read (n - 1) ⟨.a timestamp, secondRows n 1⟩)
  let pairWiseGapB ← P.a2b pairWiseGap
  return M.write ⟨.b sessionStart, secondRows n 1⟩ (P.ltz pairWiseGapB)

/-- What both windows do with the marks: the timestamps of the marked rows, `-1` elsewhere, and
their maximum. -/
def spreadMarks (keys : List ℕ) (timestampB windowId : ℕ) (selB : Option (EVector ρ n d))
    (M : Memory ρ n d) : PartyM N d G (Memory ρ n d) := do
  let sharedMinusOne ← P.secretShareB (fun _ : Fin 1 => -1) 0
  let z ← multiplexB P (M (.b windowId)) (repeatedElement n sharedMinusOne) (M (.b timestampB))
  let M : Memory ρ n d := Function.update M (.b windowId) z
  oddEvenAggregation P .bSharedVector keys [windowId] [windowId] (maxAggregation P) true selB M

/-- `gap_session_window`. -/
def gapSessionWindow (keys : List ℕ) (timestampA timestampB windowId : ℕ) (gap : Word d)
    (pastEnd : Fin ρ → Word d) (M : Memory ρ n d) : PartyM N d G (Memory ρ n d) := do
  let M ← markGapSession P timestampA windowId gap pastEnd M
  spreadMarks P keys timestampB windowId none M

/-- `mark_threshold_session`, with the vector that `potential_window` points to. -/
def markThresholdSession (functionRes sessionStart : ℕ) (threshold : Word d) (M : Memory ρ n d) :
    PartyM N d G (EVector ρ n d × Memory ρ n d) := do
  let sharedThresholdVec ← P.secretShareB (fun _ : Fin 1 => threshold) 0
  let potentialWindow ← P.gt (M (.b functionRes)) (repeatedElement n sharedThresholdVec)
  let second : EVector ρ (n - 1) d := fun k => (secondRows n 1).read (n - 1) (potentialWindow k)
  let first : EVector ρ (n - 1) d := fun k => (firstRows n 1).read (n - 1) (potentialWindow k)
  let starts ← P.andB second (P.xorB second first)
  return (potentialWindow, M.write ⟨.b sessionStart, secondRows n 1⟩ starts)

/-- `threshold_session_window`. -/
def thresholdSessionWindow (keys : List ℕ) (functionRes timestampB windowId : ℕ)
    (threshold : Word d) (M : Memory ρ n d) : PartyM N d G (Memory ρ n d) := do
  let (potentialWindow, M) ← markThresholdSession P functionRes windowId threshold M
  spreadMarks P keys timestampB windowId (some potentialWindow) M

/-! ## Ownership -/

section Ownership

variable {P} {i : Fin N} (hP : Protocol.OwnedBy i P)
include hP

theorem ownedBy_spreadMarks (keys : List ℕ) (timestampB windowId : ℕ)
    (selB : Option (EVector ρ n d)) (M : Memory ρ n d) :
    OwnedBy i (spreadMarks P keys timestampB windowId selB M) :=
  (hP.secretShareB _ _).bind fun _ => (ownedBy_multiplexB hP _ _ _).bind fun _ =>
    ownedBy_oddEvenAggregation hP _ _ _ _ (ownedBy_maxAggregationWith hP false) _ _ _

theorem ownedBy_gapSessionWindow (keys : List ℕ) (timestampA timestampB windowId : ℕ)
    (gap : Word d) (pastEnd : Fin ρ → Word d) (M : Memory ρ n d) :
    OwnedBy i (gapSessionWindow P keys timestampA timestampB windowId gap pastEnd M) := by
  refine Party.Owned.bind ?_ fun _ => ownedBy_spreadMarks hP _ _ _ _ _
  exact (hP.secretShareB _ _).bind fun _ => (hP.secretShareA _ _).bind fun _ =>
    (hP.a2b _).bind fun _ => .pure _

theorem ownedBy_thresholdSessionWindow (keys : List ℕ) (functionRes timestampB windowId : ℕ)
    (threshold : Word d) (M : Memory ρ n d) :
    OwnedBy i (thresholdSessionWindow P keys functionRes timestampB windowId threshold M) := by
  refine Party.Owned.bind ?_ fun _ => ownedBy_spreadMarks hP _ _ _ _ _
  exact (hP.secretShareB _ _).bind fun _ => (hP.gt _ _).bind fun _ => (hP.andB _ _).bind fun _ =>
    .pure _

end Ownership

end Tva.Operators
