import TvaMpc.Machinery.Network
import Mathlib.Data.List.Basic
import Mathlib.Data.List.Zip

/-!
# Machinery/Matching — nonblocking messages, matched in the order of posting

Workers post sends and receives on keys and wait for what they posted.  A key matches each receive
with the earliest message that no receive has taken, and each message with the earliest receive
that waits: the pairs it has made are its receives against its messages, in the order of posting
(`Queue.Of`).

When one worker alone sends on a key and one alone receives, that order is the order of their
programs, and no interleaving changes what a receive gets (`Reaches.matched`).
-/

namespace Machinery

open Function Relation

variable {W K M R : Type*}

/-! ## One key -/

/-- What is pending on a key, and the pairs made so far. -/
structure Queue (M R : Type*) where
  messages : List M
  receives : List R
  matched : List (R × M)

namespace Queue

/-- Nothing was posted yet. -/
def empty : Queue M R := ⟨[], [], []⟩

/-- A message goes to the earliest waiting receive, if there is one. -/
def accept (q : Queue M R) (m : M) : Queue M R :=
  match q.receives with
  | [] => { q with messages := q.messages ++ [m] }
  | r :: rs => { q with receives := rs, matched := q.matched ++ [(r, m)] }

/-- A receive takes the earliest unmatched message, if there is one. -/
def post (q : Queue M R) (r : R) : Queue M R :=
  match q.messages with
  | [] => { q with receives := q.receives ++ [r] }
  | m :: ms => { q with messages := ms, matched := q.matched ++ [(r, m)] }

/-- **The queue after the messages `sent` and the receives `posted`**, in whatever order they
came. -/
structure Of (q : Queue M R) (sent : List M) (posted : List R) : Prop where
  messages : q.messages = sent.drop posted.length
  receives : q.receives = posted.drop sent.length
  matched : q.matched = posted.zip sent

variable {q : Queue M R} {sent : List M} {posted : List R}

theorem of_empty : (empty : Queue M R).Of [] [] := ⟨rfl, rfl, rfl⟩

/-- Pairing off one more message, whose receive is there. -/
theorem zip_append_of_drop {A B : Type*} {as : List A} {bs : List B} {a : A} {rest : List A}
    (h : as.drop bs.length = a :: rest) (b : B) : as.zip (bs ++ [b]) = as.zip bs ++ [(a, b)] := by
  induction bs generalizing as with
  | nil =>
    obtain rfl : as = a :: rest := h
    simp
  | cons b' bs ih =>
    cases as with
    | nil => simp at h
    | cons a' as =>
      rw [List.cons_append, List.zip_cons_cons, List.zip_cons_cons, List.cons_append,
        ih (by simpa using h)]

/-- Nothing more to pair off. -/
theorem zip_append_of_drop_eq_nil {A B : Type*} {as : List A} {bs : List B}
    (h : as.drop bs.length = []) (b : B) : as.zip (bs ++ [b]) = as.zip bs := by
  have hlen : as.length ≤ bs.length := List.drop_eq_nil_iff.mp h
  conv_lhs => rw [← List.append_nil as]
  induction as generalizing bs with
  | nil => simp
  | cons a as ih =>
    cases bs with
    | nil => simp at hlen
    | cons b' bs =>
      rw [List.cons_append, List.cons_append, List.zip_cons_cons, List.zip_cons_cons,
        ih (by simpa using h) (by simpa using hlen)]

/-- **A message keeps the order of posting**, … -/
theorem Of.accept (h : q.Of sent posted) (m : M) : (q.accept m).Of (sent ++ [m]) posted := by
  have hreceives := h.receives
  unfold Queue.accept
  split
  next he =>
    have hle : posted.length ≤ sent.length := List.drop_eq_nil_iff.mp (hreceives.symm.trans he)
    refine ⟨?_, ?_, ?_⟩
    · simp only [h.messages]
      rw [List.drop_append_of_le_length hle]
    · simp only
      rw [he, List.length_append, List.drop_eq_nil_of_le (by omega)]
    · simp only [h.matched]
      exact (zip_append_of_drop_eq_nil (hreceives.symm.trans he) m).symm
  next r rs he =>
    have hdrop : posted.drop sent.length = r :: rs := hreceives.symm.trans he
    have hlt : sent.length < posted.length := by
      by_contra hge
      rw [List.drop_eq_nil_of_le (by omega)] at hdrop
      cases hdrop
    refine ⟨?_, ?_, ?_⟩
    · have hlt' : (sent ++ [m]).length ≤ posted.length := by
        rw [List.length_append, List.length_singleton]
        exact hlt
      simp only [h.messages]
      rw [List.drop_eq_nil_of_le hlt.le, List.drop_eq_nil_of_le hlt']
    · simp only
      rw [List.length_append, List.length_singleton, ← List.drop_drop, hdrop, List.drop_one,
        List.tail_cons]
    · simp only [h.matched]
      exact (zip_append_of_drop hdrop m).symm

/-- Receives and messages in each other's places. -/
def swap (q : Queue M R) : Queue R M := ⟨q.receives, q.messages, q.matched.map Prod.swap⟩

theorem Of.swap (h : q.Of sent posted) : q.swap.Of posted sent :=
  ⟨h.receives, h.messages, by rw [Queue.swap, h.matched, List.zip_swap]⟩

theorem post_eq_swap (q : Queue M R) (r : R) : q.post r = (q.swap.accept r).swap := by
  obtain ⟨messages, receives, matched⟩ := q
  cases messages with
  | nil => simp [post, accept, Queue.swap, Function.comp_def]
  | cons m ms => simp [post, accept, Queue.swap, Function.comp_def]

/-- … and so does a receive. -/
theorem Of.post (h : q.Of sent posted) (r : R) : (q.post r).Of sent (posted ++ [r]) := by
  rw [post_eq_swap]
  exact (h.swap.accept r).swap

end Queue

/-! ## Workers -/

/-- A nonblocking operation: a message sent or a receive posted, on a key. -/
inductive Operation (K M R : Type*) where
  | isend (key : K) (message : M)
  | irecv (key : K) (receive : R)

/-- A worker posts an operation, or waits for one it has posted. -/
inductive Action (K M R : Type*) where
  | post (o : Operation K M R)
  | wait (o : Operation K M R)

/-- Post all operations, then wait for each of them. -/
def Operation.run (l : List (Operation K M R)) : List (Action K M R) :=
  l.map .post ++ l.map .wait

section Operations

variable [DecidableEq K]

/-- What an operation does to the queues. -/
def Operation.effect (q : K → Queue M R) : Operation K M R → K → Queue M R
  | .isend k m => update q k ((q k).accept m)
  | .irecv k r => update q k ((q k).post r)

/-- The messages that a list of operations sends on a key. -/
def Operation.sends (k : K) (l : List (Operation K M R)) : List M :=
  l.filterMap fun
    | .isend k' m => if k' = k then some m else none
    | .irecv _ _ => none

/-- The receives that a list of operations posts on a key. -/
def Operation.receives (k : K) (l : List (Operation K M R)) : List R :=
  l.filterMap fun
    | .isend _ _ => none
    | .irecv k' r => if k' = k then some r else none

/-- The operations that a list of actions posts. -/
def Action.posts (l : List (Action K M R)) : List (Operation K M R) :=
  l.filterMap fun
    | .post o => some o
    | .wait _ => none

@[simp] theorem Operation.sends_append (k : K) (l l' : List (Operation K M R)) :
    sends k (l ++ l') = sends k l ++ sends k l' := List.filterMap_append ..

@[simp] theorem Operation.receives_append (k : K) (l l' : List (Operation K M R)) :
    receives k (l ++ l') = receives k l ++ receives k l' := List.filterMap_append ..

theorem Operation.sends_flatMap {X : Type*} (k : K) (l : List X) (f : X → List (Operation K M R)) :
    sends k (l.flatMap f) = l.flatMap fun x => sends k (f x) := List.filterMap_flatMap

theorem Operation.receives_flatMap {X : Type*} (k : K) (l : List X)
    (f : X → List (Operation K M R)) :
    receives k (l.flatMap f) = l.flatMap fun x => receives k (f x) := List.filterMap_flatMap

omit [DecidableEq K] in
theorem Action.posts_flatMap {X : Type*} (l : List X) (f : X → List (Action K M R)) :
    posts (l.flatMap f) = l.flatMap fun x => posts (f x) := List.filterMap_flatMap

omit [DecidableEq K] in
@[simp] theorem Action.posts_append (l l' : List (Action K M R)) :
    posts (l ++ l') = posts l ++ posts l' := List.filterMap_append ..

omit [DecidableEq K] in
@[simp] theorem Action.posts_run (l : List (Operation K M R)) : posts (Operation.run l) = l := by
  have hpost : posts (l.map Action.post) = l := by
    rw [posts, List.filterMap_map]
    exact List.filterMap_some
  have hwait : posts (l.map (Action.wait (K := K) (M := M) (R := R))) = [] := by
    rw [posts, List.filterMap_map]
    exact List.filterMap_eq_nil_iff.mpr fun _ _ => rfl
  rw [Operation.run, posts_append, hpost, hwait, List.append_nil]

variable {q : K → Queue M R} {k : K} {sent : List M} {posted : List R}

/-- **An operation adds what it posts.** -/
theorem Queue.Of.effect (h : (q k).Of sent posted) (o : Operation K M R) :
    (o.effect q k).Of (sent ++ Operation.sends k [o]) (posted ++ Operation.receives k [o]) := by
  cases o with
  | isend k' m =>
    rcases eq_or_ne k' k with rfl | hk
    · simpa [Operation.effect, Operation.sends, Operation.receives] using h.accept m
    · simpa [Operation.effect, Operation.sends, Operation.receives, hk, hk.symm] using h
  | irecv k' r =>
    rcases eq_or_ne k' k with rfl | hk
    · simpa [Operation.effect, Operation.sends, Operation.receives] using h.post r
    · simpa [Operation.effect, Operation.sends, Operation.receives, hk, hk.symm] using h

theorem Queue.Of.effects (h : (q k).Of sent posted) (l : List (Operation K M R)) :
    (l.foldl Operation.effect q k).Of (sent ++ Operation.sends k l)
      (posted ++ Operation.receives k l) := by
  induction l generalizing q sent posted with
  | nil => simpa [Operation.sends, Operation.receives] using h
  | cons o l ih =>
    have hstep := ih (h.effect o)
    rwa [List.append_assoc, List.append_assoc, ← Operation.sends_append,
      ← Operation.receives_append] at hstep

end Operations

/-! ## Interleavings -/

/-- What every worker has still to do, and the queues. -/
structure Workers (W K M R : Type*) where
  todo : W → List (Action K M R)
  queue : K → Queue M R

/-- The workers at the start of their programs. -/
def Workers.start (prog : W → List (Action K M R)) : Workers W K M R := ⟨prog, fun _ => .empty⟩

/-- **Whether an action can happen now**: a receive is waited for until it has a message, and a send
as the mode has it. -/
def Action.Ready (mode : SendMode) (q : K → Queue M R) : Action K M R → Prop
  | .post _ => True
  | .wait (.isend k m) => mode = .rendezvous → ∃ r, (r, m) ∈ (q k).matched
  | .wait (.irecv k r) => ∃ m, (r, m) ∈ (q k).matched

variable [DecidableEq W] [DecidableEq K]

/-- What an action does to the queues. -/
def Action.effect (q : K → Queue M R) : Action K M R → K → Queue M R
  | .post o => o.effect q
  | .wait _ => q

/-- **A step**: some worker does the first of its remaining actions. -/
inductive Workers.Step (mode : SendMode) (s : Workers W K M R) : Workers W K M R → Prop where
  | act (w : W) {a : Action K M R} {rest : List (Action K M R)} (htodo : s.todo w = a :: rest)
      (hready : a.Ready mode s.queue) :
      Step mode s ⟨update s.todo w rest, a.effect s.queue⟩

/-- Finitely many steps, of any workers. -/
abbrev Workers.Reaches (mode : SendMode) : Workers W K M R → Workers W K M R → Prop :=
  ReflTransGen (Workers.Step mode)

variable {mode : SendMode} {s : Workers W K M R} {k : K}

/-- **Posting never waits**: a worker can be ahead of all others. -/
theorem Workers.reaches_posts {w : W} {l : List (Operation K M R)} {rest : List (Action K M R)}
    (htodo : s.todo w = l.map .post ++ rest) :
    Workers.Reaches mode s ⟨update s.todo w rest, l.foldl Operation.effect s.queue⟩ := by
  induction l generalizing s with
  | nil =>
    obtain rfl : s.todo w = rest := htodo
    rw [update_eq_self]
    exact .refl
  | cons o l ih =>
    have hstep : Workers.Step mode s ⟨update s.todo w (l.map .post ++ rest), o.effect s.queue⟩ :=
      .act w htodo trivial
    have hrest := ih (s := ⟨update s.todo w (l.map .post ++ rest), o.effect s.queue⟩)
      (update_self ..)
    simp only [update_idem] at hrest
    exact .head hstep hrest

section Sole

variable {prog : W → List (Action K M R)} {src dst : W}

/-- What the sole sender and the sole receiver of `k` have done so far explains its queue. -/
def Workers.Explained (prog : W → List (Action K M R)) (k : K) (src dst : W)
    (s : Workers W K M R) : Prop :=
  ∃ past : W → List (Action K M R), (∀ w, past w ++ s.todo w = prog w) ∧
    (s.queue k).Of (Operation.sends k (Action.posts (past src)))
      (Operation.receives k (Action.posts (past dst)))

omit [DecidableEq K] in
/-- The history of `v` grows by what `w` does, if only `v` does such things. -/
theorem append_update {A X : Type*} {f : List A → List X} (hf : ∀ l l', f (l ++ l') = f l ++ f l')
    {past : W → List A} {w v : W} {a : A} (ha : w ≠ v → f [a] = []) :
    f (update past w (past w ++ [a]) v) = f (past v) ++ f [a] := by
  rcases eq_or_ne w v with rfl | h
  · rw [update_self, hf]
  · rw [update_of_ne h.symm, ha h, List.append_nil]

/-- **A step keeps it.** -/
theorem Workers.Step.explained
    (hsrc : ∀ w ≠ src, Operation.sends k (Action.posts (prog w)) = [])
    (hdst : ∀ w ≠ dst, Operation.receives k (Action.posts (prog w)) = [])
    {s' : Workers W K M R} (hs : Workers.Step mode s s')
    (h : s.Explained prog k src dst) : s'.Explained prog k src dst := by
  obtain ⟨past, hpast, hq⟩ := h
  obtain @⟨w, a, rest, htodo, -⟩ := hs
  have hprog : past w ++ a :: rest = prog w := by rw [← htodo, hpast]
  -- nobody else sends or receives here, so `a` counts for nothing unless `w` is that worker
  have hsent : w ≠ src → Operation.sends k (Action.posts [a]) = [] := fun hw => by
    have hnil := hsrc w hw
    rw [← hprog, List.append_cons, Action.posts_append, Action.posts_append,
      Operation.sends_append, Operation.sends_append] at hnil
    exact (List.append_eq_nil_iff.mp (List.append_eq_nil_iff.mp hnil).1).2
  have hposted : w ≠ dst → Operation.receives k (Action.posts [a]) = [] := fun hw => by
    have hnil := hdst w hw
    rw [← hprog, List.append_cons, Action.posts_append, Action.posts_append,
      Operation.receives_append, Operation.receives_append] at hnil
    exact (List.append_eq_nil_iff.mp (List.append_eq_nil_iff.mp hnil).1).2
  refine ⟨update past w (past w ++ [a]), fun v => ?_, ?_⟩
  · rcases eq_or_ne v w with rfl | hv
    · simp only [update_self]
      rw [← hprog, List.append_assoc, List.singleton_append]
    · simp only [update_of_ne hv]
      exact hpast v
  · rw [append_update (f := fun l => Operation.sends k (Action.posts l)) (by simp) hsent,
      append_update (f := fun l => Operation.receives k (Action.posts l)) (by simp) hposted]
    cases a with
    | post o => exact hq.effect o
    | wait o => simpa [Action.effect, Action.posts, Operation.sends, Operation.receives] using hq

/-- **What a receive gets**: if one worker alone sends on `k` and one alone receives, the `j`-th
receive of the latter gets the `j`-th message of the former, in every interleaving. -/
theorem Workers.Reaches.matched
    (hsrc : ∀ w ≠ src, Operation.sends k (Action.posts (prog w)) = [])
    (hdst : ∀ w ≠ dst, Operation.receives k (Action.posts (prog w)) = [])
    (h : Workers.Reaches mode (.start prog) s) {r : R} {m : M}
    (hrm : (r, m) ∈ (s.queue k).matched) :
    ∃ j : ℕ, (Operation.receives k (Action.posts (prog dst)))[j]? = some r ∧
      (Operation.sends k (Action.posts (prog src)))[j]? = some m := by
  have hexp : s.Explained prog k src dst := by
    clear hrm
    induction h with
    | refl => exact ⟨fun _ => [], fun w => rfl, Queue.of_empty⟩
    | tail _ hs ih => exact hs.explained hsrc hdst ih
  obtain ⟨past, hpast, hq⟩ := hexp
  rw [hq.matched] at hrm
  obtain ⟨j, hj⟩ := List.mem_iff_getElem?.mp hrm
  obtain ⟨hr, hm⟩ := List.getElem?_zip_eq_some.mp hj
  refine ⟨j, ?_, ?_⟩
  · rw [← hpast dst, Action.posts_append, Operation.receives_append,
      List.getElem?_append_left (List.getElem?_eq_some_iff.mp hr).1, hr]
  · rw [← hpast src, Action.posts_append, Operation.sends_append,
      List.getElem?_append_left (List.getElem?_eq_some_iff.mp hm).1, hm]

end Sole

end Machinery
