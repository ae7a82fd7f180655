import TvaMpc.Machinery.Play
import TvaMpc.Machinery.Triple
import TvaMpc.Containers.Vector
import Mathlib.Data.Fin.VecNotation

/-!
# Communication/MpiCommunicator — sending and receiving vectors of shares

A message is one vector, on the channel given by its sender, its receiver and the tag.  Sends and
receives name the other party relative to the current one.

`sendShares` is `MPI_Isend` and `MPI_Wait`, `receiveShares` is `MPI_Irecv` and `MPI_Wait`, and
`exchangeShares` posts both before it waits for either: one communication block each.
-/

namespace Tva

open Machinery

variable {N : ℕ} [NeZero N] {d : DataType} {n : ℕ} {G : Type}

/-- A message queue between two parties. -/
structure Channel (N : ℕ) where
  source : Fin N
  dest : Fin N
  tag : ℕ
  deriving DecidableEq

/-- Why a party stops: it accuses two others, a message did not fit the posted receive, an assertion
failed, or a division trapped.  After a write outside of a vector its behaviour is undefined. -/
inductive Exit where
  | accuses (partyID a b : ℕ)
  | truncated
  | assertion
  | trap
  | undefined
  deriving DecidableEq

/-- The code of a party with a generator in state `G`. -/
abbrev PartyM (N : ℕ) (d : DataType) (G : Type) := Party G (Channel N) (List (Word d)) Exit

/-- `_msg_tag`. -/
def msgTag : ℕ := 7

/-- `(numParties + _id + this->currentId) % numParties`. -/
def partyIndex (currentId : Fin N) (id : ℤ) : Fin N :=
  Fin.ofNat N (((N : ℤ) + id + (currentId : ℕ)).tmod N).toNat

/-- The channel from `i` to `j`. -/
def chan (i j : Fin N) : Channel N := ⟨i, j, msgTag⟩

/-- Put the one message of a receive into the posted buffer of `n` elements. -/
def unpack (n : ℕ) : List (List (Word d)) → Proc (Channel N) (List (Word d)) Exit (Vec n d)
  | [m] => if h : m.length = n then .ret fun j => m.get (j.cast h.symm) else .exit .truncated
  | _ => .exit .truncated

/-- `sendShares(shares, id, size)`. -/
def sendShares (currentId : Fin N) (shares : Vec n d) (id : ℤ) : PartyM N d G Unit :=
  StateT.lift (.comm [(chan currentId (partyIndex currentId id), List.ofFn shares)] [] fun _ =>
    .ret ())

/-- `receiveShares(shares, id, size)`. -/
def receiveShares (currentId : Fin N) (n : ℕ) (id : ℤ) : PartyM N d G (Vec n d) :=
  StateT.lift (.comm [] [chan (partyIndex currentId id) currentId] (unpack n))

/-- `exchangeShares(sent_shares, received_shares, to_id, from_id, size)`. -/
def exchangeShares (currentId : Fin N) (sentShares : Vec n d) (toId fromId : ℤ) :
    PartyM N d G (Vec n d) :=
  StateT.lift (.comm [(chan currentId (partyIndex currentId toId), List.ofFn sentShares)]
    [chan (partyIndex currentId fromId) currentId] (unpack n))

omit [NeZero N] in
@[simp] theorem chan_inj {i i' j j' : Fin N} : chan i j = chan i' j' ↔ i = i' ∧ j = j' := by
  simp [chan]

omit [NeZero N] in
@[simp] theorem unpack_ofFn (v : Vec n d) : (unpack n [List.ofFn v] :
    Proc (Channel N) (List (Word d)) Exit (Vec n d)) = .ret v := by
  simp [unpack]

/-! ### What the primitives do to the process -/

section Run

variable {α : Type} {i : Fin N} {v : Vec n d} {g : G}

theorem run_receiveShares_bind {id : ℤ} (f : Vec n d → PartyM N d G α) :
    (receiveShares i n id >>= f).run g
      = .comm [] [chan (partyIndex i id) i] fun ms => unpack n ms >>= fun v => (f v).run g :=
  congrArg _ <| funext fun ms => Proc.bind_assoc' (unpack n ms) _ _

theorem run_exchangeShares_bind {toId fromId : ℤ} (f : Vec n d → PartyM N d G α) :
    (exchangeShares i v toId fromId >>= f).run g
      = .comm [(chan i (partyIndex i toId), List.ofFn v)] [chan (partyIndex i fromId) i]
          fun ms => unpack n ms >>= fun v => (f v).run g :=
  congrArg _ <| funext fun ms => Proc.bind_assoc' (unpack n ms) _ _

/-- A blocking receive, once its message is there. -/
theorem consumes_receiveShares {id : ℤ} {f : Vec n d → PartyM N d G α} {ms : List (List (Word d))}
    {r : Proc (Channel N) (List (Word d)) Exit (α × G)}
    (hf : Consumes (chan (partyIndex i id) i) ms ((f v).run g) r) :
    Consumes (chan (partyIndex i id) i) (List.ofFn v :: ms)
      ((receiveShares i n id >>= f).run g) r := by
  refine ⟨_, run_receiveShares_bind f, ?_⟩
  simp only [unpack_ofFn]
  exact hf

/-- The same for a message taken in as one of several. -/
theorem gathers_receiveShares {id : ℤ} {f : Vec n d → PartyM N d G α}
    {l : List (Channel N × List (Word d))} {r : Proc (Channel N) (List (Word d)) Exit (α × G)}
    (hf : Gathers l ((f v).run g) r) :
    Gathers ((chan (partyIndex i id) i, List.ofFn v) :: l) ((receiveShares i n id >>= f).run g)
      r := by
  refine ⟨_, run_receiveShares_bind f, ?_⟩
  simp only [unpack_ofFn]
  exact hf

end Run

/-! ### What the primitives do against an inbox -/

section Play

variable {α : Type} {i : Fin N} {v w : Vec n d} {g : G}
variable {q : Channel N → List (List (Word d))} {rest : List (List (Word d))}

theorem play_receiveShares_bind {id : ℤ} (f : Vec n d → PartyM N d G α)
    (hq : q (chan (partyIndex i id) i) = List.ofFn w :: rest) :
    ((receiveShares i n id >>= f).run g).play q
      = ((f w).run g).play (Function.update q (chan (partyIndex i id) i) rest) := by
  rw [run_receiveShares_bind, Proc.play]
  simp only [List.map_cons, List.map_nil, serve, hq, Except.map, unpack_ofFn, Proc.ret_bind,
    List.nil_append]

theorem play_receiveShares_waits {id : ℤ} (f : Vec n d → PartyM N d G α)
    (hq : q (chan (partyIndex i id) i) = []) :
    ((receiveShares i n id >>= f).run g).play q = (.waits (chan (partyIndex i id) i), []) := by
  rw [run_receiveShares_bind, Proc.play]
  simp only [List.map_cons, List.map_nil, serve, hq]

theorem play_exchangeShares_bind {toId fromId : ℤ} (f : Vec n d → PartyM N d G α)
    (hq : q (chan (partyIndex i fromId) i) = List.ofFn w :: rest) :
    ((exchangeShares i v toId fromId >>= f).run g).play q
      = ((((f w).run g).play (Function.update q (chan (partyIndex i fromId) i) rest)).1,
        (chan i (partyIndex i toId), List.ofFn v) ::
          (((f w).run g).play (Function.update q (chan (partyIndex i fromId) i) rest)).2) := by
  rw [run_exchangeShares_bind, Proc.play]
  simp only [List.map_cons, List.map_nil, serve, hq, Except.map, unpack_ofFn, Proc.ret_bind,
    List.singleton_append]

omit [NeZero N] in
/-- A received message is taken or stops the party. -/
theorem posts_unpack_bind {β : Type} {f : Vec n d → Proc (Channel N) (List (Word d)) Exit β}
    {l : List (Channel N × List (Word d))} (hf : ∀ v, (f v).Posts l)
    (ms : List (List (Word d))) : (unpack n ms >>= f).Posts l := by
  unfold unpack
  split
  · split
    · exact hf _
    · exact .exit _ _
  · exact .exit _ _

theorem posts_exchangeShares_bind {toId fromId : ℤ} {f : Vec n d → PartyM N d G α}
    {l : List (Channel N × List (Word d))} (hf : ∀ v, ((f v).run g).Posts l) :
    ((exchangeShares i v toId fromId >>= f).run g).Posts
      ((chan i (partyIndex i toId), List.ofFn v) :: l) := by
  rw [run_exchangeShares_bind]
  exact .comm _ _ fun ms => posts_unpack_bind hf ms

theorem posts_receiveShares_bind {id : ℤ} {f : Vec n d → PartyM N d G α}
    {l : List (Channel N × List (Word d))} (hf : ∀ v, ((f v).run g).Posts l) :
    ((receiveShares i n id >>= f).run g).Posts l := by
  rw [run_receiveShares_bind]
  exact .comm [] _ fun ms => posts_unpack_bind hf ms

end Play

omit [NeZero N] in
/-- Messages of one length are vectors of that length. -/
theorem exists_vectors {l : List (List (Word d))} {m : ℕ}
    (hl : l.map List.length = List.replicate m n) :
    ∃ vs : List (Vec n d), vs.length = m ∧ l = vs.map List.ofFn := by
  induction l generalizing m with
  | nil => exact ⟨[], by simpa using congrArg List.length hl, rfl⟩
  | cons x l ih =>
    obtain _ | m := m
    · simp at hl
    · rw [List.map_cons, List.replicate_succ, List.cons.injEq] at hl
      obtain ⟨vs, hvs, rfl⟩ := ih hl.2
      obtain rfl := hl.1
      exact ⟨x.get :: vs, by rw [List.length_cons, hvs], by rw [List.map_cons, List.ofFn_get]⟩

/-! ## Ownership -/

/-- The code of party `i` writes to its own channels and reads those that lead to it. -/
abbrev OwnedBy {α : Type} (i : Fin N) (m : PartyM N d G α) : Prop :=
  Party.Owned Channel.source Channel.dest i m

omit [NeZero N] in
theorem owned_unpack {i : Fin N} (ms : List (List (Word d))) :
    (unpack n ms : Proc (Channel N) (List (Word d)) Exit (Vec n d)).Owned
      Channel.source Channel.dest i := by
  unfold unpack
  split
  · split <;> trivial
  · trivial

theorem ownedBy_sendShares (i : Fin N) (v : Vec n d) (id : ℤ) :
    OwnedBy (G := G) i (sendShares i v id) :=
  Party.Owned.lift ⟨by simp [chan], by simp, fun _ => trivial⟩

theorem ownedBy_receiveShares (i : Fin N) (id : ℤ) :
    OwnedBy (d := d) (G := G) i (receiveShares i n id) :=
  Party.Owned.lift ⟨by simp, by simp [chan], owned_unpack⟩

theorem ownedBy_exchangeShares (i : Fin N) (v : Vec n d) (toId fromId : ℤ) :
    OwnedBy (G := G) i (exchangeShares i v toId fromId) :=
  Party.Owned.lift ⟨by simp [chan], by simp [chan], owned_unpack⟩

/-! ## The exchange -/

/-- The messages of an exchange: one from every party. -/
def exchangeLog (v : Fin N → Vec n d) (toId : ℤ) : Channel N → List (List (Word d)) :=
  roundLog Channel.source (fun i => chan i (partyIndex i toId)) fun i => List.ofFn (v i)

/-- **The exchange rule**: every party ends up with what the party at `fromId` sent. -/
theorem yields_exchangeShares {mode : SendMode} {v : Fin N → Vec n d} {g : Fin N → G}
    {toId fromId : ℤ} (hinv : ∀ i : Fin N, partyIndex (partyIndex i fromId) toId = i) :
    Yields mode (fun i => exchangeShares i (v i) toId fromId) g
      (fun i => v (partyIndex i fromId)) g (exchangeLog v toId) := by
  have hk : Runs mode (fun i : Fin N => (unpack n [List.ofFn (v (partyIndex i fromId))] :
      Proc (Channel N) (List (Word d)) Exit (Vec n d)) >>= fun a => .ret (a, g i))
      (fun i => (v (partyIndex i fromId), g i)) fun _ => [] := by
    simp only [unpack_ofFn, Proc.ret_bind]
    exact .ret _
  have hsnd : ∀ i : Fin N, chan (partyIndex i fromId) i
      = chan (partyIndex i fromId) (partyIndex (partyIndex i fromId) toId) := fun i => by rw [hinv]
  have h := Runs.round Channel.source Channel.dest (fun i => chan i (partyIndex i toId))
    (fun i => partyIndex i fromId) (fun i => List.ofFn (v i))
    (fun i ms => (unpack n ms : Proc (Channel N) (List (Word d)) Exit (Vec n d)) >>=
      fun a => .ret (a, g i)) (fun _ => rfl) hinv hk
  simp only [← hsnd, List.append_nil] at h
  exact h

end Tva
