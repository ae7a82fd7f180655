import TvaMpc.Machinery.Play

/-!
# Machinery/Adversary — runs in which one process follows no protocol

`Attacked src dst m p s`: with buffered sends, `s` is the end of a run in which every process but
`p` runs `m`, and `p` does anything on its own channels.  Where the others stand is their play
against what went over the channels (`Attacked.play`), and there is an attack for every list of
messages (`exists_attacked`).
-/

namespace Machinery

open Function Relation

universe u v

variable {I : Type*} {C M E : Type u} {α : Type v} [DecidableEq I] [DecidableEq C]
variable {src dst : C → I} {m : I → Proc C M E α} {p : I} {s : Net I C M E α}

/-- **The end of a run attacked by `p`.** -/
def Attacked (src dst : C → I) (m : I → Proc C M E α) (p : I) (s : Net I C M E α) : Prop :=
  ∃ P : I → Proc C M E α, (∀ i, (P i).Owned src dst i) ∧ (∀ i, i ≠ p → P i = m i) ∧
    Star .buffered (Net.init P) s ∧ s.Terminal .buffered

/-- **The others stand where their code ends**, against what was sent, and sent what it posts. -/
theorem Attacked.play (h : Attacked src dst m p s) {i : I} (hi : i ≠ p) :
    s.EndsAt i ((m i).play s.log).1 ∧
      ∀ c, src c = i → s.log c = msgsOn c ((m i).play s.log).2 := by
  obtain ⟨P, howned, hP, hs, ht⟩ := h
  obtain ⟨hends, hlog⟩ := hs.play howned ht
  rw [← hP i hi]
  refine ⟨hends i, fun c hc => ?_⟩
  rw [hlog, hc]

/-- **Any messages can be sent in an attack.** -/
theorem exists_attacked [Finite I] (hm : ∀ i, (m i).Owned src dst i) {l : List (C × M)}
    (hl : ∀ x ∈ l, src x.1 = p) (e : E) :
    ∃ s, Attacked src dst m p s ∧ ∀ c, src c = p → s.log c = msgsOn c l := by
  let sender : Proc C M E α := .comm l [] fun _ => .exit e
  have howned : ∀ i, (update m p sender i).Owned src dst i := by
    intro i
    by_cases hi : i = p
    · subst hi
      rw [update_self]
      exact ⟨hl, fun c hc => absurd hc List.not_mem_nil, fun _ => trivial⟩
    · rw [update_of_ne hi]
      exact hm i
  obtain ⟨s, hs, ht⟩ := exists_terminal .buffered (Net.init (update m p sender))
  refine ⟨s, ⟨_, howned, fun i hi => update_of_ne hi .., hs, ht⟩, fun c hc => ?_⟩
  rw [(hs.play howned ht).2, hc, update_self]
  exact congrArg (msgsOn c) (List.append_nil l)

end Machinery
