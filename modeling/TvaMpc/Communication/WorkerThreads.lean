import TvaMpc.Communication.MpiCommunicator
import TvaMpc.Machinery.Matching
import Mathlib.Data.List.Basic

/-!
# Communication/WorkerThreads — the worker threads of all parties over one MPI communicator

`tva_init` gives worker thread `i` a communicator of its own, whose tags start at `700 + i * 10`.
Each call on it cuts its vector into `parallelism_factor` chunks, posts one request per chunk on
consecutive tags, and waits for all of them.  MPI knows only the parties and the tag of a request,
so threads whose tags overlap share a queue.

`threads_separate_iff`: whatever the threads do and however they interleave, every receive gets the
elements it is for exactly when the tags do not overlap — at most ten chunks, or one thread.

Elements are of any type, so that one run may mix vectors of several widths.  What a call sends is a
function of the program only: a thread that computes on what it received is the program with the
values it came to send.
-/

namespace Tva

open Machinery

variable {N T : ℕ} [NeZero N] {α : Type}

/-! ## The chunks of a call -/

/-- The part of a vector that one request is for. -/
structure Chunk where
  index : ℕ
  start : ℕ
  size : ℕ
  deriving DecidableEq

/-- The loop over the chunks of a call, from chunk `i` at `start` on. -/
def chunksFrom (size parallelismFactor : ℕ) : (rest i start : ℕ) → List Chunk
  | 0, _, _ => []
  | rest + 1, i, start =>
      let size' := if i = parallelismFactor - 1 then size - start else size / parallelismFactor
      ⟨i, start, size'⟩ :: chunksFrom size parallelismFactor rest (i + 1) (start + size')

/-- The chunks of a call for `size` elements. -/
def chunks (size parallelismFactor : ℕ) : List Chunk :=
  chunksFrom size parallelismFactor parallelismFactor 0 0

/-- Chunk `i`: an equal share, and for the last one what remains. -/
def chunk (size parallelismFactor i : ℕ) : Chunk where
  index := i
  start := i * (size / parallelismFactor)
  size := if i = parallelismFactor - 1 then size - i * (size / parallelismFactor)
    else size / parallelismFactor

theorem chunksFrom_eq {size p : ℕ} {rest i : ℕ} (h : i + rest = p) :
    chunksFrom size p rest i (i * (size / p)) = (List.range' i rest).map (chunk size p) := by
  induction rest generalizing i with
  | zero => rfl
  | succ rest ih =>
    rw [chunksFrom, List.range'_succ, List.map_cons]
    refine congrArg₂ List.cons rfl ?_
    obtain _ | rest := rest
    · rfl
    · have hi : i ≠ p - 1 := by omega
      rw [if_neg hi, ← Nat.succ_mul]
      exact ih (by omega)

theorem chunks_eq (size p : ℕ) : chunks size p = (List.range p).map (chunk size p) := by
  have h : chunksFrom size p p 0 (0 * (size / p)) = (List.range' 0 p).map (chunk size p) :=
    chunksFrom_eq (zero_add p)
  rw [zero_mul] at h
  rw [chunks, h, List.range_eq_range']

/-! ## The calls of a thread -/

/-- A request: the thread and its call that posted it, and the elements it is for. -/
structure Request (T : ℕ) where
  thread : Fin T
  call : ℕ
  start : ℕ
  size : ℕ
  deriving DecidableEq

/-- A message, with the request that sent it. -/
structure Message (T : ℕ) (α : Type) where
  request : Request T
  elements : List α
  deriving DecidableEq

/-- What a thread posts, for the requests and messages above. -/
abbrev Posting (N T : ℕ) (α : Type) := Operation (Channel N) (Message T α) (Request T)

/-- The elements of a range of a vector. -/
def elements (shares : ℕ → α) (start size : ℕ) : List α :=
  (List.range size).map fun e => shares (start + e)

/-- `MPICommunicator`, of `N` parties. -/
structure MPICommunicator (N : ℕ) where
  currentId : Fin N
  msgTag : ℕ
  parallelismFactor : ℕ

namespace MPICommunicator

variable (c : MPICommunicator N) (thread : Fin T) (call : ℕ)

omit [NeZero N] in
/-- `MPI_Isend` of a chunk. -/
def isend (shares : ℕ → α) (toInd : Fin N) (k : Chunk) : Posting N T α :=
  .isend ⟨c.currentId, toInd, c.msgTag + k.index⟩
    ⟨⟨thread, call, k.start, k.size⟩, elements shares k.start k.size⟩

omit [NeZero N] in
/-- `MPI_Irecv` of a chunk. -/
def irecv (fromInd : Fin N) (k : Chunk) : Posting N T α :=
  .irecv ⟨fromInd, c.currentId, c.msgTag + k.index⟩ ⟨thread, call, k.start, k.size⟩

/-- `sendShares(shares, id, size)`. -/
def sendShares (shares : ℕ → α) (id : ℤ) (size : ℕ) : List (Posting N T α) :=
  (chunks size c.parallelismFactor).map
    (c.isend thread call shares (partyIndex c.currentId id))

/-- `receiveShares(shareVector, id, size)`. -/
def receiveShares (id : ℤ) (size : ℕ) : List (Posting N T α) :=
  (chunks size c.parallelismFactor).map (c.irecv thread call (partyIndex c.currentId id))

/-- `exchangeShares(sent_shares, received_shares, to_id, from_id, size)`. -/
def exchangeShares (sentShares : ℕ → α) (toId fromId : ℤ) (size : ℕ) : List (Posting N T α) :=
  (chunks size c.parallelismFactor).flatMap fun k =>
    [c.irecv thread call (partyIndex c.currentId fromId) k,
      c.isend thread call sentShares (partyIndex c.currentId toId) k]

end MPICommunicator

/-- A call on the communicator of a thread. -/
inductive SharesCall (α : Type) where
  | sendShares (shares : ℕ → α) (id : ℤ) (size : ℕ)
  | receiveShares (id : ℤ) (size : ℕ)
  | exchangeShares (sentShares : ℕ → α) (toId fromId : ℤ) (size : ℕ)

/-- What a call posts, before it waits for all of it. -/
def SharesCall.postings (c : MPICommunicator N) (thread : Fin T) (call : ℕ) :
    SharesCall α → List (Posting N T α)
  | .sendShares shares id size => c.sendShares thread call shares id size
  | .receiveShares id size => c.receiveShares thread call id size
  | .exchangeShares sentShares toId fromId size =>
      c.exchangeShares thread call sentShares toId fromId size

/-- The communicators that `tva_init` makes for the worker threads. -/
def tvaInit (rank : Fin N) (threadsNum pFactor : ℕ) : Fin threadsNum → MPICommunicator N :=
  fun i => ⟨rank, 700 + i * 10, pFactor⟩

/-- **The programs of all threads of all parties**: each makes its calls in order. -/
def program (pFactor : ℕ) (calls : Fin N → Fin T → List (SharesCall α)) (w : Fin N × Fin T) :
    List (Action (Channel N) (Message T α) (Request T)) :=
  (calls w.1 w.2).zipIdx.flatMap fun x =>
    Operation.run (x.1.postings (tvaInit w.1 T pFactor w.2) w.2 x.2)

/-! ## Which calls belong together -/

/-- What a call sends to party `dest`: the vector and its size. -/
def SharesCall.sent (currentId dest : Fin N) : SharesCall α → Option ((ℕ → α) × ℕ)
  | .sendShares shares id size =>
      if partyIndex currentId id = dest then some (shares, size) else none
  | .receiveShares _ _ => none
  | .exchangeShares shares toId _ size =>
      if partyIndex currentId toId = dest then some (shares, size) else none

/-- How many elements a call receives from party `source`. -/
def SharesCall.received (currentId source : Fin N) : SharesCall α → Option ℕ
  | .sendShares _ _ _ => none
  | .receiveShares id size => if partyIndex currentId id = source then some size else none
  | .exchangeShares _ _ fromId size =>
      if partyIndex currentId fromId = source then some size else none

/-- The vectors that a thread of `source` sends to `dest`, each with the number of its call. -/
def sentTo (source dest : Fin N) (calls : List (SharesCall α)) : List (ℕ × (ℕ → α) × ℕ) :=
  calls.zipIdx.filterMap fun x => (x.1.sent source dest).map (x.2, ·)

/-- What a thread of `dest` receives from `source`: the calls, and how many elements. -/
def receivedFrom (source dest : Fin N) (calls : List (SharesCall α)) : List (ℕ × ℕ) :=
  calls.zipIdx.filterMap fun x => (x.1.received dest source).map (x.2, ·)

/-- **The same calls with equal lengths**: the `j`-th time that thread `t` of a party receives from
another, it is for as many elements as thread `t` of that one sends to it the `j`-th time. -/
def EqualLengths (calls : Fin N → Fin T → List (SharesCall α)) : Prop :=
  ∀ (t : Fin T) (source dest : Fin N) (j call call' size size' : ℕ) (shares : ℕ → α),
    (sentTo source dest (calls source t))[j]? = some (call, shares, size) →
    (receivedFrom source dest (calls dest t))[j]? = some (call', size') → size' = size

/-- **The receive `r` got its own elements**: if it belongs to the `j`-th call of its thread that
receives from `source`, then these elements of the `j`-th vector that the same thread of `source`
sends to `dest`. -/
def Filled (calls : Fin N → Fin T → List (SharesCall α)) (source dest : Fin N) (r : Request T)
    (m : Message T α) : Prop :=
  ∃ (j call size : ℕ) (shares : ℕ → α),
    (receivedFrom source dest (calls dest r.thread))[j]? = some (r.call, size) ∧
    (sentTo source dest (calls source r.thread))[j]? = some (call, shares, size) ∧
    m.elements = elements shares r.start r.size

/-! ## What a call puts on a queue -/

section Postings

/-- `MPI_Isend` of the chunk `k`, as a message. -/
def message (t : Fin T) (call : ℕ) (shares : ℕ → α) (k : Chunk) : Message T α :=
  ⟨⟨t, call, k.start, k.size⟩, elements shares k.start k.size⟩

/-- What a call posts for one chunk. -/
def SharesCall.posting (c : MPICommunicator N) (t : Fin T) (n : ℕ) (k : Chunk) :
    SharesCall α → List (Posting N T α)
  | .sendShares shares id _ => [c.isend t n shares (partyIndex c.currentId id) k]
  | .receiveShares id _ => [c.irecv t n (partyIndex c.currentId id) k]
  | .exchangeShares sentShares toId fromId _ =>
      [c.irecv t n (partyIndex c.currentId fromId) k,
        c.isend t n sentShares (partyIndex c.currentId toId) k]

/-- `_size`. -/
def SharesCall.size : SharesCall α → ℕ
  | .sendShares _ _ size => size
  | .receiveShares _ size => size
  | .exchangeShares _ _ _ size => size

variable {c : MPICommunicator N} {t : Fin T} {n : ℕ} {call : SharesCall α}

theorem postings_eq : call.postings c t n
    = (List.range c.parallelismFactor).flatMap fun i =>
        call.posting c t n (chunk call.size c.parallelismFactor i) := by
  cases call with
  | sendShares shares id size =>
    rw [SharesCall.postings, MPICommunicator.sendShares, chunks_eq, List.map_map,
      List.map_eq_flatMap]
    rfl
  | receiveShares id size =>
    rw [SharesCall.postings, MPICommunicator.receiveShares, chunks_eq, List.map_map,
      List.map_eq_flatMap]
    rfl
  | exchangeShares sentShares toId fromId size =>
    rw [SharesCall.postings, MPICommunicator.exchangeShares, chunks_eq, List.flatMap_map]
    rfl

theorem sends_posting {p q : Fin N} {tag : ℕ} {k : Chunk} :
    Operation.sends ⟨p, q, tag⟩ (call.posting c t n k)
      = if c.currentId = p ∧ c.msgTag + k.index = tag then
          (call.sent c.currentId q).toList.map fun v => message t n v.1 k
        else [] := by
  cases call with
  | sendShares shares id size =>
    simp only [SharesCall.posting, Operation.sends, MPICommunicator.isend, SharesCall.sent]
    split_ifs <;> simp_all [message]
  | receiveShares id size =>
    simp [SharesCall.posting, Operation.sends, MPICommunicator.irecv, SharesCall.sent]
  | exchangeShares sentShares toId fromId size =>
    simp only [SharesCall.posting, Operation.sends, MPICommunicator.irecv, MPICommunicator.isend,
      SharesCall.sent]
    split_ifs <;> simp_all [message]

theorem receives_posting {p q : Fin N} {tag : ℕ} {k : Chunk} :
    Operation.receives ⟨p, q, tag⟩ (call.posting c t n k)
      = if c.currentId = q ∧ c.msgTag + k.index = tag then
          (call.received c.currentId p).toList.map fun _ => (⟨t, n, k.start, k.size⟩ : Request T)
        else [] := by
  cases call with
  | sendShares shares id size =>
    simp [SharesCall.posting, Operation.receives, MPICommunicator.isend, SharesCall.received]
  | receiveShares id size =>
    simp only [SharesCall.posting, Operation.receives, MPICommunicator.irecv, SharesCall.received]
    split_ifs <;> simp_all
  | exchangeShares sentShares toId fromId size =>
    simp only [SharesCall.posting, Operation.receives, MPICommunicator.irecv, MPICommunicator.isend,
      SharesCall.received]
    split_ifs <;> simp_all

theorem size_of_sent {p q : Fin N} {v : (ℕ → α) × ℕ} (hv : call.sent p q = some v) :
    v.2 = call.size := by
  cases call <;> grind [SharesCall.sent, SharesCall.size]

theorem size_of_received {p q : Fin N} {size : ℕ} (hv : call.received p q = some size) :
    size = call.size := by
  cases call <;> grind [SharesCall.received, SharesCall.size]

omit [NeZero N] in
/-- Only one chunk of a call has the tag. -/
theorem flatMap_range_single {X : Type*} {p i : ℕ} (hi : i < p) {f : ℕ → List X}
    (hf : ∀ j, j ≠ i → f j = []) : (List.range p).flatMap f = f i := by
  induction p with
  | zero => exact absurd hi (Nat.not_lt_zero _)
  | succ p ih =>
    rw [List.range_succ, List.flatMap_append, List.flatMap_singleton]
    rcases eq_or_ne i p with rfl | hip
    · have hnil : (List.range i).flatMap f = [] :=
        List.flatMap_eq_nil_iff.mpr fun j hj => hf j (List.mem_range.mp hj).ne
      rw [hnil, List.nil_append]
    · rw [ih (by omega), hf p hip.symm, List.append_nil]

variable {p q : Fin N} {i tag : ℕ}

/-- **On the `i`-th tag, a call sends the `i`-th chunk of its vector.** -/
theorem sends_postings (hi : i < c.parallelismFactor) :
    Operation.sends ⟨c.currentId, q, c.msgTag + i⟩ (call.postings c t n)
      = (call.sent c.currentId q).toList.map fun v =>
          message t n v.1 (chunk v.2 c.parallelismFactor i) := by
  rw [postings_eq, Operation.sends_flatMap, flatMap_range_single hi, sends_posting,
    if_pos ⟨rfl, rfl⟩]
  · refine List.map_congr_left fun v hv => ?_
    rw [size_of_sent (Option.mem_toList.mp hv)]
  · intro j hj
    rw [sends_posting, if_neg fun h => hj (Nat.add_left_cancel h.2)]

theorem receives_postings (hi : i < c.parallelismFactor) :
    Operation.receives ⟨p, c.currentId, c.msgTag + i⟩ (call.postings c t n)
      = (call.received c.currentId p).toList.map fun size =>
          (⟨t, n, (chunk size c.parallelismFactor i).start,
            (chunk size c.parallelismFactor i).size⟩ : Request T) := by
  rw [postings_eq, Operation.receives_flatMap, flatMap_range_single hi, receives_posting,
    if_pos ⟨rfl, rfl⟩]
  · refine List.map_congr_left fun v hv => ?_
    rw [size_of_received (Option.mem_toList.mp hv)]
  · intro j hj
    rw [receives_posting, if_neg fun h => hj (Nat.add_left_cancel h.2)]

theorem sends_postings_eq_nil
    (h : c.currentId = p → ∀ i < c.parallelismFactor, c.msgTag + i ≠ tag) :
    Operation.sends ⟨p, q, tag⟩ (call.postings c t n) = [] := by
  rw [postings_eq, Operation.sends_flatMap]
  refine List.flatMap_eq_nil_iff.mpr fun i hi => ?_
  rw [sends_posting, if_neg fun hk => h hk.1 i (List.mem_range.mp hi) hk.2]

theorem receives_postings_eq_nil
    (h : c.currentId = q → ∀ i < c.parallelismFactor, c.msgTag + i ≠ tag) :
    Operation.receives ⟨p, q, tag⟩ (call.postings c t n) = [] := by
  rw [postings_eq, Operation.receives_flatMap]
  refine List.flatMap_eq_nil_iff.mpr fun i hi => ?_
  rw [receives_posting, if_neg fun hk => h hk.1 i (List.mem_range.mp hi) hk.2]

end Postings

/-! ## What a thread puts on a queue -/

section Program

variable {pFactor : ℕ} {calls : Fin N → Fin T → List (SharesCall α)} {p q : Fin N} {t : Fin T}
variable {i tag : ℕ}

theorem posts_program (w : Fin N × Fin T) : Action.posts (program pFactor calls w)
    = (calls w.1 w.2).zipIdx.flatMap fun x => x.1.postings (tvaInit w.1 T pFactor w.2) w.2 x.2 := by
  rw [program, Action.posts_flatMap]
  simp only [Action.posts_run]

/-- **On its `i`-th tag a thread sends the `i`-th chunks of its vectors**, … -/
theorem sends_program (hi : i < pFactor) :
    Operation.sends ⟨p, q, 700 + t * 10 + i⟩ (Action.posts (program pFactor calls (p, t)))
      = (sentTo p q (calls p t)).map fun x => message t x.1 x.2.1 (chunk x.2.2 pFactor i) := by
  rw [posts_program, Operation.sends_flatMap, sentTo, List.filterMap_eq_flatMap_toList,
    List.map_flatMap]
  refine congrArg (List.flatMap · _) (funext fun x => ?_)
  have hsends : Operation.sends ⟨p, q, 700 + t * 10 + i⟩
      (x.1.postings (tvaInit p T pFactor t) t x.2)
        = (x.1.sent p q).toList.map fun v => message t x.2 v.1 (chunk v.2 pFactor i) :=
    sends_postings (c := tvaInit p T pFactor t) hi
  rw [hsends]
  cases x.1.sent p q <;> rfl

/-- … and so it receives. -/
theorem receives_program (hi : i < pFactor) :
    Operation.receives ⟨p, q, 700 + t * 10 + i⟩ (Action.posts (program pFactor calls (q, t)))
      = (receivedFrom p q (calls q t)).map fun x =>
          (⟨t, x.1, (chunk x.2 pFactor i).start, (chunk x.2 pFactor i).size⟩ : Request T) := by
  rw [posts_program, Operation.receives_flatMap, receivedFrom, List.filterMap_eq_flatMap_toList,
    List.map_flatMap]
  refine congrArg (List.flatMap · _) (funext fun x => ?_)
  have hreceives : Operation.receives ⟨p, q, 700 + t * 10 + i⟩
      (x.1.postings (tvaInit q T pFactor t) t x.2)
        = (x.1.received q p).toList.map fun size =>
            (⟨t, x.2, (chunk size pFactor i).start, (chunk size pFactor i).size⟩ : Request T) :=
    receives_postings (c := tvaInit q T pFactor t) hi
  rw [hreceives]
  cases x.1.received q p <;> rfl

theorem sends_program_eq_nil {w : Fin N × Fin T}
    (h : w.1 = p → ∀ i < pFactor, 700 + w.2 * 10 + i ≠ tag) :
    Operation.sends ⟨p, q, tag⟩ (Action.posts (program pFactor calls w)) = [] := by
  rw [posts_program, Operation.sends_flatMap]
  exact List.flatMap_eq_nil_iff.mpr fun x _ => sends_postings_eq_nil h

theorem receives_program_eq_nil {w : Fin N × Fin T}
    (h : w.1 = q → ∀ i < pFactor, 700 + w.2 * 10 + i ≠ tag) :
    Operation.receives ⟨p, q, tag⟩ (Action.posts (program pFactor calls w)) = [] := by
  rw [posts_program, Operation.receives_flatMap]
  exact List.flatMap_eq_nil_iff.mpr fun x _ => receives_postings_eq_nil h

end Program

/-! ## Threads with tags of their own -/

section Separate

variable {pFactor : ℕ} {calls : Fin N → Fin T → List (SharesCall α)} {mode : SendMode}
variable {s : Workers (Fin N × Fin T) (Channel N) (Message T α) (Request T)}

omit [NeZero N] in
/-- **No two threads share a tag.** -/
theorem thread_of_tag (hsep : pFactor ≤ 10 ∨ T ≤ 1) {t t' : Fin T} {i i' : ℕ} (hi : i < pFactor)
    (hi' : i' < pFactor) (htag : 700 + t * 10 + i = 700 + t' * 10 + i') : t = t' := by
  have ht := t.isLt
  have ht' := t'.isLt
  exact Fin.ext (by omega)

/-- Nothing is matched on a tag that no thread uses. -/
theorem used_tag (h : Workers.Reaches mode (.start (program pFactor calls)) s) {p q : Fin N}
    {tag : ℕ} {x : Request T × Message T α} (hx : x ∈ (s.queue ⟨p, q, tag⟩).matched) :
    ∃ t : Fin T, ∃ i < pFactor, 700 + t * 10 + i = tag := by
  by_contra hused
  have hno : ∀ t : Fin T, ∀ i < pFactor, 700 + t * 10 + i ≠ tag :=
    fun t i hi htag => hused ⟨t, i, hi, htag⟩
  have hsrc : ∀ w : Fin N × Fin T,
      Operation.sends ⟨p, q, tag⟩ (Action.posts (program pFactor calls w)) = [] :=
    fun w => sends_program_eq_nil fun _ => hno w.2
  have hdst : ∀ w : Fin N × Fin T,
      Operation.receives ⟨p, q, tag⟩ (Action.posts (program pFactor calls w)) = [] :=
    fun w => receives_program_eq_nil fun _ => hno w.2
  rcases h.cases_tail with rfl | ⟨_, -, hs⟩
  · cases hx
  · obtain @⟨w, a, rest, htodo, -⟩ := hs
    have hsole : ∀ v ≠ w,
        Operation.sends ⟨p, q, tag⟩ (Action.posts (program pFactor calls v)) = [] :=
      fun v _ => hsrc v
    have hsole' : ∀ v ≠ w,
        Operation.receives ⟨p, q, tag⟩ (Action.posts (program pFactor calls v)) = [] :=
      fun v _ => hdst v
    obtain ⟨j, hj, -⟩ := Workers.Reaches.matched hsole hsole' h hx
    rw [hdst w] at hj
    cases hj

/-- **A receive gets its own elements**, when no two threads share a tag. -/
theorem filled_of_separate (hsep : pFactor ≤ 10 ∨ T ≤ 1) (hlen : EqualLengths calls)
    (h : Workers.Reaches mode (.start (program pFactor calls)) s) {key : Channel N} {r : Request T}
    {m : Message T α} (hrm : (r, m) ∈ (s.queue key).matched) :
    Filled calls key.source key.dest r m := by
  obtain ⟨p, q, tag⟩ := key
  obtain ⟨t, i, hi, rfl⟩ := used_tag h hrm
  have hsrc : ∀ w ≠ (p, t), Operation.sends ⟨p, q, 700 + t * 10 + i⟩
      (Action.posts (program pFactor calls w)) = [] := fun w hw =>
    sends_program_eq_nil fun hp i' hi' htag =>
      hw (Prod.ext hp (thread_of_tag hsep hi' hi htag))
  have hdst : ∀ w ≠ (q, t), Operation.receives ⟨p, q, 700 + t * 10 + i⟩
      (Action.posts (program pFactor calls w)) = [] := fun w hw =>
    receives_program_eq_nil fun hq i' hi' htag =>
      hw (Prod.ext hq (thread_of_tag hsep hi' hi htag))
  obtain ⟨j, hr, hm⟩ := Workers.Reaches.matched hsrc hdst h hrm
  rw [receives_program hi, List.getElem?_map, Option.map_eq_some_iff] at hr
  rw [sends_program hi, List.getElem?_map, Option.map_eq_some_iff] at hm
  obtain ⟨⟨call', size'⟩, hr, rfl⟩ := hr
  obtain ⟨⟨call, shares, size⟩, hm, rfl⟩ := hm
  obtain rfl := hlen t p q j call call' size size' shares hm hr
  exact ⟨j, call, size', shares, hr, hm, rfl⟩

end Separate

/-! ## Threads that share a tag -/

section Shared

variable {pFactor : ℕ} {v : Fin T → α} {t₀ t₁ : Fin T}

/-- Every thread of every party exchanges one vector with its neighbours: thread `t` sends the
element `v t`, as often as there are chunks. -/
def exchangeOnce (pFactor : ℕ) (v : Fin T → α) : Fin N → Fin T → List (SharesCall α) := fun _ t =>
  [.exchangeShares (fun _ => v t) 1 (-1) pFactor]

theorem sentTo_exchangeOnce {p q p' : Fin N} {t : Fin T} {j : ℕ} {x : ℕ × (ℕ → α) × ℕ}
    (h : (sentTo p q (exchangeOnce pFactor v p' t))[j]? = some x) :
    x.2.1 = (fun _ => v t) ∧ x.2.2 = pFactor := by
  have hx := List.mem_of_getElem? h
  simp only [sentTo, exchangeOnce, List.zipIdx_singleton, List.mem_filterMap, List.mem_singleton,
    exists_eq_left, SharesCall.sent, Option.map_eq_some_iff] at hx
  obtain ⟨y, hy, rfl⟩ := hx
  rw [Option.ite_none_right_eq_some] at hy
  obtain ⟨-, hy⟩ := hy
  obtain rfl := Option.some.inj hy
  exact ⟨rfl, rfl⟩

theorem receivedFrom_exchangeOnce {p q p' : Fin N} {t : Fin T} {j : ℕ} {x : ℕ × ℕ}
    (h : (receivedFrom p q (exchangeOnce pFactor v p' t))[j]? = some x) : x.2 = pFactor := by
  have hx := List.mem_of_getElem? h
  simp only [receivedFrom, exchangeOnce, List.zipIdx_singleton, List.mem_filterMap,
    List.mem_singleton, exists_eq_left, SharesCall.received, Option.map_eq_some_iff] at hx
  obtain ⟨y, hy, rfl⟩ := hx
  rw [Option.ite_none_right_eq_some] at hy
  obtain ⟨-, hy⟩ := hy
  exact (Option.some.inj hy).symm

theorem equalLengths_exchangeOnce : EqualLengths (exchangeOnce (N := N) pFactor v) :=
  fun _ _ _ _ _ _ _ _ _ hsent hreceived =>
    (receivedFrom_exchangeOnce hreceived).trans (sentTo_exchangeOnce hsent).2.symm

theorem program_exchangeOnce (w : Fin N × Fin T) : program pFactor (exchangeOnce pFactor v) w
    = Operation.run ((SharesCall.exchangeShares (fun _ => v w.2) 1 (-1) pFactor).postings
        (tvaInit w.1 T pFactor w.2) w.2 0) := by
  simp [program, exchangeOnce]

omit [NeZero N] in
/-- Chunks of one element. -/
theorem chunk_self {p i : ℕ} (hi : i < p) : chunk p p i = ⟨i, i, 1⟩ := by
  have hp : p / p = 1 := Nat.div_self (by omega)
  rw [chunk, hp, mul_one]
  split
  next h => rw [h, Nat.sub_sub_self (by omega)]
  next => rfl

/-- The neighbour of party `0`. -/
theorem partyIndex_neighbour (hN : 2 ≤ N) : partyIndex (0 : Fin N) 1 ≠ 0 ∧
    partyIndex (partyIndex (0 : Fin N) 1) (-1) = 0 := by
  have hone : ((partyIndex (0 : Fin N) 1 : Fin N) : ℕ) = 1 := by
    have hmod : ((N : ℤ) + 1).tmod N = 1 := by
      rw [Int.tmod_eq_emod_of_nonneg (by omega), Int.add_emod_left, Int.emod_eq_of_lt] <;> omega
    simp [partyIndex, hmod, Nat.mod_eq_of_lt (show 1 < N by omega)]
  refine ⟨fun h => ?_, ?_⟩
  · rw [h] at hone
    exact absurd hone (by simp)
  · rw [partyIndex, hone]
    simp

/-- **A thread that is ahead fills another thread's receive**: the eleventh tag of thread `0` is the
first one of thread `1`. -/
theorem steals (mode : SendMode) (v : Fin T → α) (hN : 2 ≤ N) (hp : 11 ≤ pFactor)
    (h₀ : (t₀ : ℕ) = 0) (h₁ : (t₁ : ℕ) = 1) :
    ∃ s, Workers.Reaches mode (.start (program pFactor (exchangeOnce pFactor v))) s ∧
      ((⟨t₀, 0, 10, 1⟩ : Request T), (⟨⟨t₁, 0, 0, 1⟩, [v t₁]⟩ : Message T α))
        ∈ (s.queue ⟨(0 : Fin N), partyIndex 0 1, 710⟩).matched := by
  obtain ⟨hne, hback⟩ := partyIndex_neighbour hN
  generalize hq : partyIndex (0 : Fin N) 1 = q at hne hback ⊢
  -- thread 1 of party 0 posts all of its call before anyone else starts, then thread 0 of `q` does
  let prog := program pFactor (exchangeOnce (N := N) pFactor v)
  let call (t : Fin T) : SharesCall α := .exchangeShares (fun _ => v t) 1 (-1) pFactor
  let ahead := (call t₁).postings (tvaInit (0 : Fin N) T pFactor t₁) t₁ 0
  let behind := (call t₀).postings (tvaInit q T pFactor t₀) t₀ 0
  have hahead : Workers.Reaches mode (.start prog)
      ⟨Function.update prog (0, t₁) (ahead.map .wait),
        ahead.foldl Operation.effect fun _ => .empty⟩ :=
    Workers.reaches_posts (program_exchangeOnce _)
  have hother : Function.update prog (0, t₁) (ahead.map .wait) (q, t₀)
      = behind.map .post ++ behind.map .wait := by
    rw [Function.update_of_ne fun h => hne (Prod.ext_iff.mp h).1]
    exact program_exchangeOnce _
  refine ⟨_, hahead.trans (Workers.reaches_posts hother), ?_⟩
  have hof := (Queue.Of.effects (q := fun _ => .empty) (k := (⟨0, q, 710⟩ : Channel N))
    Queue.of_empty ahead).effects behind
  -- on the shared tag the first has sent its chunk 0, and the second receives its chunk 10
  have hsent : Operation.sends ⟨0, q, 710⟩ ahead = [⟨⟨t₁, 0, 0, 1⟩, [v t₁]⟩] := by
    have hlt : 0 < pFactor := by omega
    have h : Operation.sends ⟨0, q, 700 + t₁ * 10 + 0⟩ ahead
        = ((call t₁).sent 0 q).toList.map fun x => message t₁ 0 x.1 (chunk x.2 pFactor 0) :=
      sends_postings (c := tvaInit (0 : Fin N) T pFactor t₁) hlt
    simpa [h₁, call, SharesCall.sent, hq, message, elements, chunk_self hlt] using h
  have hposted : Operation.receives ⟨0, q, 710⟩ behind = [⟨t₀, 0, 10, 1⟩] := by
    have hlt : 10 < pFactor := by omega
    have h : Operation.receives ⟨0, q, 700 + t₀ * 10 + 10⟩ behind
        = ((call t₀).received q 0).toList.map fun size =>
            ⟨t₀, 0, (chunk size pFactor 10).start, (chunk size pFactor 10).size⟩ :=
      receives_postings (c := tvaInit q T pFactor t₀) hlt
    simpa [h₀, call, SharesCall.received, hback, chunk_self hlt] using h
  have hsent' : Operation.sends ⟨0, q, 710⟩ behind = [] :=
    sends_postings_eq_nil fun h => absurd h hne
  have hposted' : Operation.receives ⟨0, q, 710⟩ ahead = [] :=
    receives_postings_eq_nil fun h => absurd h.symm hne
  rw [hsent, hsent', hposted, hposted'] at hof
  rw [hof.matched]
  exact List.mem_singleton_self _

/-- Its own elements are others, if the threads send different ones. -/
theorem not_filled_of_steals (hv : v t₀ ≠ v t₁) (p q : Fin N) :
    ¬Filled (exchangeOnce pFactor v) p q (⟨t₀, 0, 10, 1⟩ : Request T)
      ⟨⟨t₁, 0, 0, 1⟩, [v t₁]⟩ := by
  rintro ⟨j, call, size, shares, -, hsent, helements⟩
  obtain rfl : shares = fun _ => v t₀ := (sentTo_exchangeOnce hsent).1
  exact hv (List.singleton_injective helements).symm

end Shared

/-- **Threads do not steal each other's messages exactly when their tags do not overlap**: whatever
calls they make with equal lengths, however they interleave, every receive gets the elements it is
for if and only if a call has at most ten chunks or there is one thread. -/
theorem threads_separate_iff [Nontrivial α] (hN : 2 ≤ N) (T pFactor : ℕ) :
    (∀ (mode : SendMode) (calls : Fin N → Fin T → List (SharesCall α)), EqualLengths calls →
      ∀ s, Workers.Reaches mode (.start (program pFactor calls)) s →
      ∀ key r m, (r, m) ∈ (s.queue key).matched → Filled calls key.source key.dest r m) ↔
    pFactor ≤ 10 ∨ T ≤ 1 := by
  refine ⟨fun h => ?_, fun hsep mode calls hlen s hs key r m hrm =>
    filled_of_separate hsep hlen hs hrm⟩
  by_contra hno
  obtain ⟨hp, hT⟩ := not_or.mp hno
  obtain ⟨x, y, hxy⟩ := exists_pair_ne α
  let t₀ : Fin T := ⟨0, by omega⟩
  let t₁ : Fin T := ⟨1, by omega⟩
  let v : Fin T → α := fun t => if (t : ℕ) = 0 then x else y
  have hv : v t₀ ≠ v t₁ := by simpa [v, t₀, t₁] using hxy
  have h₀ : (t₀ : ℕ) = 0 := rfl
  have h₁ : (t₁ : ℕ) = 1 := rfl
  obtain ⟨s, hs, hstolen⟩ := steals .buffered v hN (by omega : 11 ≤ pFactor) h₀ h₁
  exact not_filled_of_steals hv _ _
    (h .buffered _ equalLengths_exchangeOnce s hs _ _ _ hstolen)

/-- Three parties with two threads and ten chunks: no receive gets elements of others. -/
theorem threads_separate_ten :
    ¬∃ (mode : SendMode) (calls : Fin 3 → Fin 2 → List (SharesCall (Word .int32_t)))
      (s : Workers (Fin 3 × Fin 2) (Channel 3) (Message 2 (Word .int32_t)) (Request 2))
      (key : Channel 3) (r : Request 2) (m : Message 2 (Word .int32_t)),
      EqualLengths calls ∧ Workers.Reaches mode (.start (program 10 calls)) s ∧
        (r, m) ∈ (s.queue key).matched ∧ ¬Filled calls key.source key.dest r m := by
  have : Nontrivial (Word .int32_t) := ⟨0, 1, by decide⟩
  rintro ⟨mode, calls, s, key, r, m, hlen, hs, hrm, hstolen⟩
  have hfilled :=
    (threads_separate_iff (by decide) 2 10).mpr (by decide) mode calls hlen s hs key r m
  exact hstolen (hfilled hrm)

/-- With eleven chunks, thread `0` of party `1` gets as its last element the first one that thread
`1` of party `0` sent. -/
theorem threads_steal_eleven :
    EqualLengths (N := 3) (exchangeOnce 11 ![(0 : Word .int32_t), 1]) ∧
    ∃ s, Workers.Reaches .buffered (.start (program (N := 3) (T := 2) 11
        (exchangeOnce 11 ![(0 : Word .int32_t), 1]))) s ∧
      (⟨0, 0, 10, 1⟩, ⟨⟨1, 0, 0, 1⟩, [1]⟩) ∈ (s.queue ⟨0, 1, 710⟩).matched ∧
      ¬Filled (N := 3) (exchangeOnce 11 ![(0 : Word .int32_t), 1]) 0 1 ⟨0, 0, 10, 1⟩
        ⟨⟨1, 0, 0, 1⟩, [1]⟩ := by
  have hN : 2 ≤ 3 := by decide
  have h₀ : ((0 : Fin 2) : ℕ) = 0 := rfl
  have h₁ : ((1 : Fin 2) : ℕ) = 1 := rfl
  obtain ⟨s, hs, hstolen⟩ := steals .buffered ![(0 : Word .int32_t), 1] hN (le_refl 11) h₀ h₁
  exact ⟨equalLengths_exchangeOnce, s, hs, hstolen,
    not_filled_of_steals (by decide) (0 : Fin 3) 1⟩

end Tva
