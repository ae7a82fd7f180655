import Mathlib.Control.Basic
import Mathlib.Data.List.Basic

/-!
# Machinery/Process — sequential processes that communicate over channels

A process returns, exits with a reason, or performs one **communication block**: it posts all its
sends and all its receives, waits for them, and goes on with the received messages.  A plain send,
a plain receive and a simultaneous exchange are the blocks with one entry on one or both sides.

Sequencing is `bind`, so a party's code is written in `do` notation and a whole run of operations is
one process.
-/

namespace Machinery

universe u v

/-- A process over channels `C`, messages `M` and exit reasons `E` that returns an `α`. -/
inductive Proc (C M E : Type u) (α : Type v) where
  | ret (a : α)
  | exit (e : E)
  /-- Post every send and every receive, wait for all of them, continue with what was received. -/
  | comm (sends : List (C × M)) (recvs : List C) (k : List M → Proc C M E α)

namespace Proc

variable {C M E : Type u} {α β γ : Type v}

/-- Sequencing: the continuation takes over at every `ret`. -/
def bind : Proc C M E α → (α → Proc C M E β) → Proc C M E β
  | ret a, f => f a
  | exit e, _ => exit e
  | comm sends recvs k, f => comm sends recvs fun ms => (k ms).bind f

instance : Monad (Proc C M E) where
  pure := ret
  bind := bind

@[simp] theorem pure_eq (a : α) : (pure a : Proc C M E α) = ret a := rfl

@[simp] theorem ret_bind (a : α) (f : α → Proc C M E β) : (ret a >>= f) = f a := rfl

@[simp] theorem exit_bind (e : E) (f : α → Proc C M E β) :
    ((exit e : Proc C M E α) >>= f) = exit e := rfl

@[simp] theorem comm_bind (sends : List (C × M)) (recvs : List C) (k : List M → Proc C M E α)
    (f : α → Proc C M E β) :
    (comm sends recvs k >>= f) = comm sends recvs fun ms => k ms >>= f := rfl

theorem bind_ret (p : Proc C M E α) : (p >>= ret) = p := by
  induction p with
  | ret a => rfl
  | exit e => rfl
  | comm sends recvs k ih =>
    rw [comm_bind]
    exact congrArg _ (funext ih)

theorem bind_assoc' (p : Proc C M E α) (f : α → Proc C M E β) (g : β → Proc C M E γ) :
    ((p >>= f) >>= g) = (p >>= fun a => f a >>= g) := by
  induction p with
  | ret a => rfl
  | exit e => rfl
  | comm sends recvs k ih =>
    rw [comm_bind, comm_bind, comm_bind]
    exact congrArg _ (funext ih)

instance : LawfulMonad (Proc C M E) :=
  LawfulMonad.mk' (Proc C M E) bind_ret (fun _ _ => rfl) bind_assoc'

/-! ## Ownership

A channel has one end to write to and one to read from.  A process **owns** its channels when it
only ever writes to channels it is the source of and only reads channels it is the destination
of. -/

/-- `Owned i p`: process `p` writes only to channels with source `i` and reads only channels with
destination `i`. -/
def Owned {I : Type*} (src dst : C → I) (i : I) : Proc C M E α → Prop
  | ret _ => True
  | exit _ => True
  | comm sends recvs k =>
      (∀ s ∈ sends, src s.1 = i) ∧ (∀ c ∈ recvs, dst c = i) ∧ ∀ ms, Owned src dst i (k ms)

theorem Owned.bind {I : Type*} {src dst : C → I} {i : I} {p : Proc C M E α}
    {f : α → Proc C M E β} (hp : p.Owned src dst i) (hf : ∀ a, (f a).Owned src dst i) :
    (p >>= f).Owned src dst i := by
  induction p with
  | ret a => exact hf a
  | exit e => trivial
  | comm sends recvs k ih => exact ⟨hp.1, hp.2.1, fun ms => ih ms (hp.2.2 ms)⟩

end Proc

end Machinery
