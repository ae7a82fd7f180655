import Mathlib.Data.List.FinRange
import Mathlib.Tactic.TypeStar

/-!
# Machinery/Logged — computations that log what they touch

`Spec P c m Q`: every entry that `m` logs satisfies `P` exactly if the condition `c` holds, and the
value of `m` satisfies `Q`.  The condition of a sequence is the conjunction of those of its parts.
-/

namespace Machinery

universe u

variable {ε ι : Type*} {α β : Type u}

/-- A computation with the entries that it logs. -/
structure Logged (ε : Type*) (α : Type u) where
  value : α
  log : List ε

namespace Logged

instance : Monad (Logged ε) where
  pure a := ⟨a, []⟩
  bind m f := ⟨(f m.value).value, m.log ++ (f m.value).log⟩

/-- Log one entry. -/
def tell (e : ε) : Logged ε Unit := ⟨(), [e]⟩

/-- One computation for each index. -/
def family {n : ℕ} (f : Fin n → Logged ε α) : Logged ε (Fin n → α) :=
  ⟨fun i => (f i).value, (List.finRange n).flatMap fun i => (f i).log⟩

variable (P : ε → Prop)

/-- Every entry satisfies `P`. -/
def Within (m : Logged ε α) : Prop := ∀ e ∈ m.log, P e

instance [DecidablePred P] (m : Logged ε α) : Decidable (m.Within P) :=
  inferInstanceAs (Decidable (∀ e ∈ m.log, P e))

/-- The entries satisfy `P` exactly if `c`, and the value satisfies `Q`. -/
structure Spec (c : Prop) (m : Logged ε α) (Q : α → Prop) : Prop where
  within : m.Within P ↔ c
  value : Q m.value

namespace Spec

variable {P} {c c' : Prop} {m : Logged ε α} {Q Q' : α → Prop} {R : β → Prop}

theorem pure {a : α} (h : Q a) : Spec P True (Pure.pure a : Logged ε α) Q :=
  ⟨by simp [Within, Pure.pure], h⟩

theorem tell (e : ε) : Spec P (P e) (Logged.tell e) fun _ => True :=
  ⟨by simp [Within, Logged.tell], trivial⟩

theorem bind {f : α → Logged ε β} (hm : Spec P c m Q) (hf : ∀ a, Q a → Spec P c' (f a) R) :
    Spec P (c ∧ c') (m >>= f) R := by
  obtain ⟨hwithin, hvalue⟩ := hf m.value hm.value
  refine ⟨?_, hvalue⟩
  rw [← hm.within, ← hwithin]
  exact List.forall_mem_append

theorem iff (hm : Spec P c m Q) (h : c ↔ c') : Spec P c' m Q := ⟨hm.within.trans h, hm.value⟩

/-- A part that is always within `P` adds no condition. -/
theorem safe {f : α → Logged ε β} (hm : Spec P True m Q) (hf : ∀ a, Q a → Spec P c' (f a) R) :
    Spec P c' (m >>= f) R :=
  (hm.bind hf).iff (iff_of_eq (true_and _))

/-- …nor does one whose condition follows from that of the part before. -/
theorem absorb {f : α → Logged ε β} (hm : Spec P c m Q) (hf : ∀ a, Q a → Spec P c' (f a) R)
    (h : c → c') : Spec P c (m >>= f) R :=
  (hm.bind hf).iff (and_iff_left_of_imp h)

theorem andThen {f : α → Logged ε β} (hm : Spec P c m Q) (hf : ∀ a, Q a → Spec P True (f a) R) :
    Spec P c (m >>= f) R :=
  hm.absorb hf fun _ => trivial

/-- Two parts with one condition. -/
theorem same {f : α → Logged ε β} (hm : Spec P c m Q) (hf : ∀ a, Q a → Spec P c (f a) R) :
    Spec P c (m >>= f) R :=
  hm.absorb hf id

theorem post (hm : Spec P c m Q) (h : ∀ a, Q a → Q' a) : Spec P c m Q' := ⟨hm.within, h _ hm.value⟩

/-- The loop rule. -/
theorem forM {l : List ι} {f : ι → Logged ε Unit} {c : ι → Prop}
    (h : ∀ i ∈ l, Spec P (c i) (f i) fun _ => True) :
    Spec P (∀ i ∈ l, c i) (l.forM f) fun _ => True := by
  induction l with
  | nil => exact (pure trivial).iff (by simp)
  | cons i l ih =>
    change Spec P _ (f i >>= fun _ => l.forM f) _
    exact ((h i List.mem_cons_self).bind fun _ _ => ih fun j hj => h j
      (List.mem_cons_of_mem _ hj)).iff List.forall_mem_cons.symm

/-- A loop whose rounds have one condition. -/
theorem forM_same {l : List ι} {f : ι → Logged ε Unit}
    (h : ∀ i ∈ l, Spec P c (f i) fun _ => True) :
    Spec P (l ≠ [] → c) (l.forM f) fun _ => True :=
  (forM h).iff ⟨fun hall hl => hall _ (List.head_mem hl),
    fun hc _ hi => hc (List.ne_nil_of_mem hi)⟩

/-- A loop whose rounds are within `P`. -/
theorem forM_safe {l : List ι} {f : ι → Logged ε Unit}
    (h : ∀ i ∈ l, Spec P True (f i) fun _ => True) : Spec P True (l.forM f) fun _ => True :=
  (forM h).iff (by simp)

theorem family {n : ℕ} {f : Fin n → Logged ε α} {c : Fin n → Prop}
    (h : ∀ i, Spec P (c i) (f i) Q) :
    Spec P (∀ i, c i) (Logged.family f) fun v => ∀ i, Q (v i) := by
  refine ⟨?_, fun i => (h i).value⟩
  simp only [← (h _).within, Within, Logged.family, List.mem_flatMap, List.mem_finRange, true_and]
  exact ⟨fun hall i e he => hall e ⟨i, he⟩, fun hall e ⟨i, he⟩ => hall i e he⟩

theorem family_safe {n : ℕ} {f : Fin n → Logged ε α} (h : ∀ i, Spec P True (f i) Q) :
    Spec P True (Logged.family f) fun v => ∀ i, Q (v i) := (family h).iff (by simp)

end Spec

end Logged

end Machinery
