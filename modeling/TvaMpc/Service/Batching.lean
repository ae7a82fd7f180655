import TvaMpc.Containers.VectorData
import TvaMpc.Machinery.Loops
import TvaMpc.Machinery.Tiling
import Mathlib.Data.List.GetD

/-!
# Service/Batching — how the runtime cuts a vector into batches

A call on a vector is cut into one range per thread (`getThreadBatchBoundary`), and each thread cuts
its range into batches (`Task.ranges`).  The arithmetic is that of `int`: a value that `int` cannot
represent is `none`.

`tiles_plan`: the batches of all threads tile the vector.  `writes_list`: so the writes of a call
reach every element once, and it does not matter in which order they are made.
-/

namespace Tva.Service

open Machinery

/-- A value of type `int`, if it is one. -/
def int (x : ℕ) : Option ℕ := if x < 2 ^ 31 then some x else none

/-- `getThreadBatchBoundary`: `start_ind` and `end_ind`. -/
def getThreadBatchBoundary (totalSize batchSize threadInd threadsNum : ℕ) : Option (ℕ × ℕ) := do
  let totalBatchesNumber := totalSize / batchSize
  let threadBatchesNumber := totalBatchesNumber / threadsNum
  let remainingBatches := totalBatchesNumber % threadsNum
  let thisThreadBatchesNumber ←
    (if threadInd ≥ remainingBatches then some threadBatchesNumber
      else int (threadBatchesNumber + 1))
  let previousBatchesNumberInc :=
    (if threadInd ≥ remainingBatches then remainingBatches else threadInd)
  let previousBatchesNumber ←
    int ((← int (threadInd * threadBatchesNumber)) + previousBatchesNumberInc)
  let startInd ← int (previousBatchesNumber * batchSize)
  let endInd ←
    (if threadInd = threadsNum - 1 then some totalSize
      else (int (thisThreadBatchesNumber * batchSize)).bind fun x => int (startInd + x))
  return (startInd, endInd)

/-- The ranges that `Task::execute` calls its function on: the rounds of
`for (int i = start; i < end; i += batch_size)`, of which there are no more than `fuel`. -/
def Task.ranges (stop batchSize : ℕ) : (fuel i : ℕ) → Option (List (ℕ × ℕ))
  | 0, _ => some []
  | fuel + 1, i =>
      if i < stop then do
        let next ← int (i + batchSize)
        let rest ← ranges stop batchSize fuel next
        return (i, min next stop) :: rest
      else some []

/-- The parameters of the runtime of a party. -/
structure RunTime where
  batchSize : ℕ
  threadsNum : ℕ

namespace RunTime

variable (rt : RunTime)

/-- The ranges that a thread executes. -/
def threadRanges (totalSize threadInd : ℕ) : Option (List (ℕ × ℕ)) := do
  let (start, stop) ← getThreadBatchBoundary totalSize rt.batchSize threadInd rt.threadsNum
  Task.ranges stop rt.batchSize (stop - start) start

/-- **What the threads execute** in a call on a vector of `totalSize` elements: the ranges, each
with its thread. -/
def plan (totalSize : ℕ) : Option (List (ℕ × ℕ × ℕ)) := do
  let parts ← (List.range rt.threadsNum).mapM fun t => do
    return (← rt.threadRanges totalSize t).map fun r => (t, r)
  return parts.flatten

end RunTime

/-! ## The bounds -/

section Bounds

variable {totalSize batchSize threadsNum t : ℕ}

/-- The number of batches before those of thread `t`. -/
def batchesBefore (totalSize batchSize threadsNum t : ℕ) : ℕ :=
  t * (totalSize / batchSize / threadsNum) + min t (totalSize / batchSize % threadsNum)

/-- Where the range of thread `t` starts; that of the last one ends with the vector. -/
def startOf (totalSize batchSize threadsNum t : ℕ) : ℕ :=
  if t = threadsNum then totalSize else batchesBefore totalSize batchSize threadsNum t * batchSize

/-- The threads together have all the batches that are full. -/
theorem batchesBefore_threadsNum (h : 0 < threadsNum) :
    batchesBefore totalSize batchSize threadsNum threadsNum = totalSize / batchSize := by
  rw [batchesBefore, min_eq_right (Nat.mod_lt _ h).le, Nat.div_add_mod]

theorem batchesBefore_mono {t t' : ℕ} (h : t ≤ t') : batchesBefore totalSize batchSize threadsNum t
    ≤ batchesBefore totalSize batchSize threadsNum t' :=
  Nat.add_le_add (Nat.mul_le_mul_right _ h) (min_le_min_right _ h)

theorem batchesBefore_mul_le (h : t ≤ threadsNum) (ht : 0 < threadsNum) :
    batchesBefore totalSize batchSize threadsNum t * batchSize ≤ totalSize := by
  have hle : batchesBefore totalSize batchSize threadsNum t ≤ totalSize / batchSize :=
    (batchesBefore_mono h).trans_eq (batchesBefore_threadsNum ht)
  exact (Nat.mul_le_mul_right _ hle).trans (Nat.div_mul_le_self _ _)

/-- The number of batches of thread `t`. -/
def batchesOf (totalSize batchSize threadsNum t : ℕ) : ℕ :=
  if t ≥ totalSize / batchSize % threadsNum then totalSize / batchSize / threadsNum
  else totalSize / batchSize / threadsNum + 1

theorem batchesBefore_succ : batchesBefore totalSize batchSize threadsNum (t + 1)
    = batchesBefore totalSize batchSize threadsNum t
      + batchesOf totalSize batchSize threadsNum t := by
  rw [batchesBefore, batchesBefore, batchesOf, Nat.succ_mul]
  split <;> omega

theorem int_eq_some {x : ℕ} (h : x < 2 ^ 31) : int x = some x := if_pos h

/-- **The bounds of a thread**: it starts where the one before it ends. -/
theorem getThreadBatchBoundary_eq (hsize : totalSize < 2 ^ 31) (hbatch : 0 < batchSize)
    (ht : t < threadsNum) : getThreadBatchBoundary totalSize batchSize t threadsNum
      = some (startOf totalSize batchSize threadsNum t,
          startOf totalSize batchSize threadsNum (t + 1)) := by
  have hpos : 0 < threadsNum := Nat.zero_lt_of_lt ht
  have hend : batchesBefore totalSize batchSize threadsNum (t + 1) * batchSize ≤ totalSize :=
    batchesBefore_mul_le ht hpos
  -- no value is larger than the size
  have hle : ∀ b ≤ batchesBefore totalSize batchSize threadsNum (t + 1), b * batchSize < 2 ^ 31 ∧
      b < 2 ^ 31 := by
    intro b hb
    have hmul := Nat.mul_le_mul_right batchSize hb
    have hself := Nat.le_mul_of_pos_right b hbatch
    omega
  have hsucc : batchesBefore totalSize batchSize threadsNum (t + 1) = _ := batchesBefore_succ
  have hthis : (if t ≥ totalSize / batchSize % threadsNum then
        some (totalSize / batchSize / threadsNum)
      else int (totalSize / batchSize / threadsNum + 1))
      = some (batchesOf totalSize batchSize threadsNum t) := by
    have hof := hle (batchesOf totalSize batchSize threadsNum t) (by omega)
    rw [batchesOf] at hof ⊢
    split
    · rfl
    · rename_i hlt
      rw [if_neg hlt] at hof
      exact int_eq_some hof.2
  have hinc : (if t ≥ totalSize / batchSize % threadsNum then totalSize / batchSize % threadsNum
      else t) = min t (totalSize / batchSize % threadsNum) := by
    split <;> omega
  have hbefore := hle (batchesBefore totalSize batchSize threadsNum t) (by omega)
  have hfirst := hle (t * (totalSize / batchSize / threadsNum)) (by
    rw [hsucc, batchesBefore]; omega)
  have hof := hle (batchesOf totalSize batchSize threadsNum t) (by omega)
  have hstop : batchesBefore totalSize batchSize threadsNum t * batchSize
      + batchesOf totalSize batchSize threadsNum t * batchSize
        = batchesBefore totalSize batchSize threadsNum (t + 1) * batchSize := by
    rw [hsucc, Nat.add_mul]
  have hlast : t = threadsNum - 1 ↔ t + 1 = threadsNum := by omega
  rw [getThreadBatchBoundary, hthis, hinc]
  simp only [Option.bind_eq_bind, Option.bind_some, int_eq_some hfirst.2]
  rw [← batchesBefore, int_eq_some hbefore.2]
  simp only [Option.bind_some, int_eq_some hbefore.1, int_eq_some hof.1, hstop,
    int_eq_some (hle _ le_rfl).1, hlast, startOf, if_neg ht.ne]
  split <;> rfl

/-- The bounds grow, up to the size of the vector. -/
theorem startOf_le_succ (ht : t < threadsNum) : startOf totalSize batchSize threadsNum t
    ≤ startOf totalSize batchSize threadsNum (t + 1) := by
  rw [startOf, if_neg ht.ne, startOf]
  split
  · exact batchesBefore_mul_le ht.le (Nat.zero_lt_of_lt ht)
  · exact Nat.mul_le_mul_right _ (batchesBefore_mono (Nat.le_succ t))

theorem startOf_zero (h : 0 < threadsNum) : startOf totalSize batchSize threadsNum 0 = 0 := by
  rw [startOf, if_neg h.ne, batchesBefore, Nat.zero_mul, Nat.zero_min, Nat.zero_add, Nat.zero_mul]

theorem startOf_threadsNum : startOf totalSize batchSize threadsNum threadsNum = totalSize :=
  if_pos rfl

theorem startOf_le (ht : t ≤ threadsNum) :
    startOf totalSize batchSize threadsNum t ≤ totalSize := by
  rw [startOf]
  split
  · exact le_rfl
  · exact batchesBefore_mul_le ht (by omega)

/-- **The batches of a thread tile its range.** -/
theorem tiles_ranges {stop : ℕ} (hbatch : 0 < batchSize) (hstop : stop + batchSize ≤ 2 ^ 31) :
    ∀ (fuel i : ℕ), stop - i ≤ fuel → i ≤ stop →
      ∃ l, Task.ranges stop batchSize fuel i = some l ∧ Tiles i stop l := by
  intro fuel
  induction fuel with
  | zero =>
    intro i hfuel hi
    obtain rfl : i = stop := by omega
    exact ⟨[], rfl, .nil i⟩
  | succ fuel ih =>
    intro i hfuel hi
    rw [Task.ranges]
    rcases hi.lt_or_eq with hlt | rfl
    · rw [if_pos hlt, int_eq_some (by omega), Option.bind_eq_bind, Option.bind_some]
      rcases le_or_gt stop (i + batchSize) with hover | hunder
      · -- the last batch
        have hnil : Task.ranges stop batchSize fuel (i + batchSize) = some [] := by
          cases fuel with
          | zero => rfl
          | succ fuel => rw [Task.ranges, if_neg (by omega)]
        rw [hnil, min_eq_right hover]
        exact ⟨_, rfl, .cons hlt (.nil stop)⟩
      · obtain ⟨l, hl, htiles⟩ := ih (i + batchSize) (by omega) hunder.le
        rw [hl, min_eq_left hunder.le]
        exact ⟨_, rfl, .cons (by omega) htiles⟩
    · rw [if_neg (lt_irrefl _)]
      exact ⟨[], rfl, .nil i⟩

end Bounds

/-- **The batches of all threads tile the vector**, in the order of the threads. -/
theorem tiles_plan {rt : RunTime} {totalSize : ℕ} (hbatch : 0 < rt.batchSize)
    (hthreads : 0 < rt.threadsNum) (hsize : totalSize + rt.batchSize < 2 ^ 31) :
    ∃ plan, rt.plan totalSize = some plan ∧ Tiles 0 totalSize (plan.map Prod.snd) ∧
      ∀ b ∈ plan, b.1 < rt.threadsNum := by
  have hpart : ∀ t < rt.threadsNum, ∃ l, rt.threadRanges totalSize t = some l ∧
      Tiles (startOf totalSize rt.batchSize rt.threadsNum t)
        (startOf totalSize rt.batchSize rt.threadsNum (t + 1)) l := by
    intro t ht
    have hle : startOf totalSize rt.batchSize rt.threadsNum (t + 1) ≤ totalSize := startOf_le ht
    rw [RunTime.threadRanges, getThreadBatchBoundary_eq (by omega) hbatch ht]
    exact tiles_ranges hbatch (by omega) _ _ le_rfl (startOf_le_succ ht)
  choose part hranges htiles using hpart
  let parts (t : ℕ) : List (ℕ × ℕ) := if ht : t < rt.threadsNum then part t ht else []
  have hparts : ∀ t (ht : t < rt.threadsNum), parts t = part t ht := fun t ht => dif_pos ht
  refine ⟨(List.range rt.threadsNum).flatMap fun t => (parts t).map fun r => (t, r), ?_, ?_, ?_⟩
  · rw [RunTime.plan, mapM_eq_some_map (g := fun t => (parts t).map fun r => (t, r))]
    · rfl
    · intro t ht
      rw [hranges t (List.mem_range.mp ht), hparts t (List.mem_range.mp ht)]
      rfl
  · have hsnd : ∀ t, ((parts t).map fun r => (t, r)).map Prod.snd = parts t := by
      intro t
      rw [List.map_map]
      exact List.map_id _
    have hflat : Tiles (startOf totalSize rt.batchSize rt.threadsNum 0)
        (startOf totalSize rt.batchSize rt.threadsNum rt.threadsNum)
        ((List.range rt.threadsNum).flatMap parts) :=
      Tiles.flatMap fun t ht => (hparts t ht).symm ▸ htiles t ht
    rw [startOf_zero hthreads, startOf_threadsNum] at hflat
    rw [List.map_flatMap]
    simpa only [hsnd] using hflat
  · intro b hb
    obtain ⟨t, ht, hb⟩ := List.mem_flatMap.mp hb
    obtain ⟨r, -, rfl⟩ := List.mem_map.mp hb
    exact List.mem_range.mp ht

/-! ## The work on the batches -/

section Work

variable {α β γ : Type*}

/-- `operator[]` of a vector: the element of the array that the view reaches. -/
def get? (base : List α) (v : VectorData) (i : ℕ) : Option α :=
  match v.index i with
  | .ofNat b => base[b]?
  | .negSucc _ => none

theorem get?_reads {base l : List α} {v : VectorData} (h : Reads base v l) {i : ℕ}
    (hi : i < l.length) : get? base v i = l[i]? := by
  obtain ⟨b, hb, hget⟩ := h.get hi
  rw [get?, hb, ← hget]

/-- What `Task_ARGS_RTR_1` computes at a place: an elementwise function of its argument. -/
def taskArgsRtr1 (func : α → γ) (x : ℕ → Option α) (i : ℕ) : Option γ := (x i).map func

/-- What `Task_ARGS_RTR_2` computes at a place. -/
def taskArgsRtr2 (func : α → β → γ) (x : ℕ → Option α) (y : ℕ → Option β) (i : ℕ) : Option γ :=
  (x i).bind fun a => (y i).map (func a)

/-- The writes of one batch: `set_batch` on the arguments and on the result, where the end is cut at
the size, and the assignment of the elements `elem` to the batch of the result. -/
def batchWrites (elem : ℕ → Option γ) (totalSize : ℕ) (range : ℕ × ℕ) : Option (List (ℕ × γ)) :=
  (List.range' range.1 (min range.2 totalSize - range.1)).mapM fun i => return (i, ← elem i)

/-- The writes of a runtime call to its result, batch by batch. -/
def RunTime.writes (rt : RunTime) (totalSize : ℕ) (elem : ℕ → Option γ) :
    Option (List (ℕ × γ)) :=
  (rt.plan totalSize).bind fun plan =>
    (plan.mapM fun b => batchWrites elem totalSize b.2).map List.flatten

theorem batchWrites_eq {elem : ℕ → Option γ} {value : ℕ → γ} {totalSize : ℕ} {range : ℕ × ℕ}
    (helem : ∀ i < totalSize, elem i = some (value i)) (hrange : range.2 ≤ totalSize) :
    batchWrites elem totalSize range
      = some ((List.range' range.1 (range.2 - range.1)).map fun i => (i, value i)) := by
  rw [batchWrites, min_eq_left hrange]
  refine mapM_eq_some_map fun i hi => ?_
  obtain ⟨hstart, hlt⟩ := List.mem_range'_1.mp hi
  rw [helem i (by omega)]
  rfl

/-- **The writes of a call**: one to every place of the result. -/
theorem writes_eq {rt : RunTime} {totalSize : ℕ} (hbatch : 0 < rt.batchSize)
    (hthreads : 0 < rt.threadsNum) (hsize : totalSize + rt.batchSize < 2 ^ 31)
    {elem : ℕ → Option γ} {value : ℕ → γ} (helem : ∀ i < totalSize, elem i = some (value i)) :
    rt.writes totalSize elem = some ((List.range totalSize).map fun i => (i, value i)) := by
  obtain ⟨plan, hplan, htiles, -⟩ := tiles_plan hbatch hthreads hsize
  have hbatches : plan.mapM (fun b => batchWrites elem totalSize b.2) = some (plan.map fun b =>
      (List.range' b.2.1 (b.2.2 - b.2.1)).map fun i => (i, value i)) :=
    mapM_eq_some_map fun b hb =>
      batchWrites_eq helem (htiles.mem (List.mem_map_of_mem hb)).2.2
  have hplaces := htiles.flatMap_range'
  rw [List.flatMap_map, Nat.sub_zero, ← List.range_eq_range'] at hplaces
  rw [RunTime.writes, hplan, Option.bind_some, hbatches, Option.map_some, ← hplaces,
    List.map_flatMap, List.flatMap]

/-- **In whatever order the threads write**, the result holds the values. -/
theorem writeAll_order {totalSize : ℕ} {value : ℕ → γ} {order : List (ℕ × γ)} {res : List γ}
    (horder : order.Perm ((List.range totalSize).map fun i => (i, value i)))
    (hres : res.length = totalSize) :
    writeAll order res = (List.range totalSize).map value := by
  have hplaces : (order.map Prod.fst).Perm (List.range totalSize) := by
    have hmap := horder.map Prod.fst
    rw [List.map_map] at hmap
    exact hmap.trans (.of_eq (List.map_id _))
  have hlen : (writeAll order res).length = totalSize := (length_writeAll order).trans hres
  refine List.ext_getElem? fun i => ?_
  rcases lt_or_ge i totalSize with hi | hi
  · have hmem : (i, value i) ∈ order :=
      horder.mem_iff.mpr (List.mem_map_of_mem (List.mem_range.mpr hi))
    rw [getElem?_writeAll (hplaces.nodup_iff.mpr List.nodup_range) hmem (hres.symm ▸ hi),
      List.getElem?_map, List.getElem?_range hi]
    rfl
  · rw [List.getElem?_eq_none (by omega), List.getElem?_eq_none (by simpa using hi)]

theorem taskArgsRtr1_eq {func : α → γ} {base l : List α} {v : VectorData} (h : Reads base v l)
    {i : ℕ} (hi : i < l.length) :
    taskArgsRtr1 func (get? base v) i = (l.map func)[i]? := by
  rw [taskArgsRtr1, get?_reads h hi, List.getElem?_map]

theorem taskArgsRtr2_eq {func : α → β → γ} {base l : List α} {base' l' : List β}
    {v v' : VectorData} (h : Reads base v l) (h' : Reads base' v' l') (hlen : l'.length = l.length)
    {i : ℕ} (hi : i < l.length) :
    taskArgsRtr2 func (get? base v) (get? base' v') i = (List.zipWith func l l')[i]? := by
  rw [taskArgsRtr2, get?_reads h hi, get?_reads h' (hlen.symm ▸ hi), List.getElem?_zipWith,
    List.getElem?_eq_getElem hi, List.getElem?_eq_getElem (hlen.symm ▸ hi)]
  rfl

/-- **A call whose elements are those of a list writes the list**, each element once, in whatever
order. -/
theorem writes_list {rt : RunTime} {l : List γ} (hbatch : 0 < rt.batchSize)
    (hthreads : 0 < rt.threadsNum) (hsize : l.length + rt.batchSize < 2 ^ 31)
    {elem : ℕ → Option γ} (helem : ∀ i < l.length, elem i = l[i]?) :
    ∃ writes, rt.writes l.length elem = some writes ∧
      (writes.map Prod.fst).Perm (List.range l.length) ∧
      ∀ order res, order.Perm writes → res.length = l.length → writeAll order res = l := by
  rcases isEmpty_or_nonempty γ with hempty | ⟨⟨a⟩⟩
  · -- no values: the list is empty, and so is the plan
    obtain rfl : l = [] := List.eq_nil_iff_forall_not_mem.mpr fun a => hempty.elim a
    obtain ⟨plan, hplan, htiles, -⟩ := tiles_plan hbatch hthreads hsize
    obtain rfl : plan = [] := List.eq_nil_iff_forall_not_mem.mpr fun b hb => by
      have hrange := htiles.mem (List.mem_map_of_mem hb)
      simp only [List.length_nil] at hrange
      omega
    refine ⟨[], by rw [RunTime.writes, hplan]; rfl, .refl _, fun order res _ hres => ?_⟩
    exact List.eq_nil_of_length_eq_zero ((length_writeAll order).trans hres)
  · have hvalue : ∀ i < l.length, elem i = some (l.getD i a) := fun i hi => by
      rw [helem i hi, List.getD_eq_getElem _ _ hi, List.getElem?_eq_getElem hi]
    refine ⟨_, writes_eq hbatch hthreads hsize hvalue, ?_, fun order res horder hres => ?_⟩
    · rw [List.map_map]
      exact .of_eq (List.map_id _)
    · rw [writeAll_order horder hres]
      refine List.ext_getElem (by simp) fun i hi hi' => ?_
      rw [List.getElem_map, List.getElem_range, List.getD_eq_getElem _ _ hi']

end Work

/-- **Batching is invisible**: the ranges of all threads lie in the vector, are disjoint and cover
it; a call on one or two vectors, views of arrays among them, writes every element of the result
once, and leaves the function of the elements there, in whatever order the threads write; and a
party with the same parameters executes the same ranges in the same threads. -/
theorem batching_invisible (rt : RunTime) (totalSize : ℕ) (hbatch : 1 ≤ rt.batchSize)
    (hthreads : 1 ≤ rt.threadsNum) (hsize : totalSize + rt.batchSize < 2 ^ 31) :
    ∃ plan, rt.plan totalSize = some plan ∧
      (∀ b ∈ plan, b.1 < rt.threadsNum ∧ b.2.1 < b.2.2 ∧ b.2.2 ≤ totalSize) ∧
      plan.Pairwise (fun b b' => b.2.2 ≤ b'.2.1) ∧
      (∀ i < totalSize, ∃ b ∈ plan, b.2.1 ≤ i ∧ i < b.2.2) ∧
      (∀ {α γ : Type} (func : α → γ) (base l : List α) (v : VectorData), Reads base v l →
        l.length = totalSize →
        ∃ writes, rt.writes totalSize (taskArgsRtr1 func (get? base v)) = some writes ∧
          (writes.map Prod.fst).Perm (List.range totalSize) ∧
          ∀ order res, order.Perm writes → res.length = totalSize →
            writeAll order res = l.map func) ∧
      (∀ {α β γ : Type} (func : α → β → γ) (base l : List α) (base' l' : List β)
        (v v' : VectorData), Reads base v l → Reads base' v' l' → l.length = totalSize →
        l'.length = totalSize →
        ∃ writes, rt.writes totalSize (taskArgsRtr2 func (get? base v) (get? base' v'))
            = some writes ∧
          (writes.map Prod.fst).Perm (List.range totalSize) ∧
          ∀ order res, order.Perm writes → res.length = totalSize →
            writeAll order res = List.zipWith func l l') ∧
      ∀ rt' : RunTime, rt'.batchSize = rt.batchSize → rt'.threadsNum = rt.threadsNum →
        rt'.plan totalSize = some plan := by
  obtain ⟨plan, hplan, htiles, hthread⟩ := tiles_plan hbatch hthreads hsize
  refine ⟨plan, hplan, fun b hb => ?_, ?_, fun i hi => ?_, ?_, ?_, ?_⟩
  · exact ⟨hthread b hb, (htiles.mem (List.mem_map_of_mem hb)).2⟩
  · exact List.pairwise_map.mp htiles.pairwise
  · obtain ⟨r, hr, hcover⟩ := htiles.cover i.zero_le hi
    obtain ⟨b, hb, rfl⟩ := List.mem_map.mp hr
    exact ⟨b, hb, hcover⟩
  · rintro α γ func base l v hv rfl
    have hlen : (l.map func).length = l.length := List.length_map _
    rw [← hlen] at hsize ⊢
    exact writes_list hbatch hthreads hsize fun i hi => taskArgsRtr1_eq hv (hlen ▸ hi)
  · rintro α β γ func base l base' l' v v' hv hv' rfl hlen'
    have hlen : (List.zipWith func l l').length = l.length := by
      rw [List.length_zipWith, hlen', min_self]
    rw [← hlen] at hsize ⊢
    exact writes_list hbatch hthreads hsize fun i hi => taskArgsRtr2_eq hv hv' hlen' (hlen ▸ hi)
  · intro rt' hsame hsame'
    obtain ⟨b, t⟩ := rt
    obtain ⟨b', t'⟩ := rt'
    obtain rfl : b' = b := hsame
    obtain rfl : t' = t := hsame'
    exact hplan

/-- Seven elements in batches of two, with two threads: the last one has the odd element. -/
theorem batching_invisible_seven : ∃ plan, RunTime.plan ⟨2, 2⟩ 7 = some plan ∧
    ∀ i < 7, ∃ b ∈ plan, b.2.1 ≤ i ∧ i < b.2.2 := by
  obtain ⟨plan, hplan, -, -, hcover, -⟩ :=
    batching_invisible ⟨2, 2⟩ 7 (by decide) (by decide) (by decide)
  exact ⟨plan, hplan, hcover⟩

example : RunTime.plan ⟨2, 2⟩ 7 = some [(0, 0, 2), (0, 2, 4), (1, 4, 6), (1, 6, 7)] := by decide

end Tva.Service
