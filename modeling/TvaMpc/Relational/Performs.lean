import TvaMpc.Machinery.Hiding
import TvaMpc.Relational.TableRuns

/-!
# Relational/Performs — what the parties send each other in a program

A statement that does not stop makes the parties run code, and this code gives the tables after it
(`Statement.Runs`); its steps are those of `Step` (`step_iff`).  `Performs` puts the statements of a
program together, with all messages on the way, up to the end of the program or to the first
statement at which the parties do not go on.
-/

namespace Tva.Relational

open Machinery

variable {N ρ n : ℕ} {d : DataType} {G : Type}
variable [NeZero N] {P : Fin N → Protocol N ρ d G} {mode : SendMode} {g g' g'' : Fin N → G}
variable {ts ts' : List (Table N ρ d)} {st : Statement N ρ d} {prog : List (Statement N ρ d)}

/-- **The steps of the parties are those of the code.** -/
theorem step_iff : Step P mode g ts st g' (some ts') ↔ ∃ c a sent, st.Runs P ts c ∧
    Yields mode c.program g a g' sent ∧ c.finish a = ts' := by
  constructor
  · intro hs
    cases hs with
    | create h => exact ⟨_, fun _ => (), _, .create h, .pure _, rfl⟩
    | secretShare h hne hy => exact ⟨_, _, _, .secretShare h hne, hy, rfl⟩
    | assign ht hj hx hv hy => exact ⟨_, _, _, .assign ht hj hx hv, hy, rfl⟩
    | call ht hm hy => exact ⟨_, _, _, .call ht hm, hy, rfl⟩
  · rintro ⟨c, a, sent, hc, hy, rfl⟩
    cases hc with
    | create h =>
      have hown : ∀ i, OwnedBy i (return () : PartyM N d G Unit) := fun _ => .pure _
      obtain ⟨-, rfl⟩ := Ensures.unique hy (.pure a) hown
      exact .create h
    | secretShare h hne => exact .secretShare h hne hy
    | assign ht hj hx hv => exact .assign ht hj hx hv hy
    | call ht hm => exact .call ht hm hy

/-- **The steps after which anything may happen**: a method casts to the wrong class, or the code
writes outside of a vector. -/
theorem step_none (hs : Step P mode g ts st g' none) :
    (∃ table method t i, st = .call table method ∧ ts[table]? = some t ∧
        method.run (P i) i t = .error .undefined) ∨
      ∃ c, st.Runs P ts c ∧ ExitsWith mode (fun i => (c.program i).run (g i)) .undefined := by
  cases hs with
  | undefined ht hm => exact .inl ⟨_, _, _, _, rfl, ht, hm⟩
  | ruined hc he => exact .inr ⟨_, hc, he⟩

/-- **A statement is one code.** -/
theorem Statement.Runs.unique {c c' : Code N ρ d G} (hc : st.Runs P ts c) (hc' : st.Runs P ts c') :
    c' = c := by
  cases hc with
  | create =>
    cases hc'
    rfl
  | secretShare =>
    cases hc'
    rfl
  | assign ht hj hx hv =>
    cases hc' with
    | assign ht' hj' _ hv' =>
      obtain rfl := Option.some.inj (ht.symm.trans ht')
      obtain rfl := Option.some.inj (hj.symm.trans hj')
      obtain rfl := Option.some.inj (hv.symm.trans hv')
      rfl
  | @call _ _ t m ht hm =>
    cases hc' with
    | @call _ _ _ m' ht' hm' =>
      obtain rfl := Option.some.inj (ht.symm.trans ht')
      obtain rfl : m' = m := funext fun i => Except.ok.inj ((hm' i).symm.trans (hm i))
      rfl

/-! ## Programs -/

/-- Where a program ends: the statements that are left, the generators and the tables. -/
structure Ending (N ρ : ℕ) (d : DataType) (G : Type) where
  left : List (Statement N ρ d)
  generators : Fin N → G
  tables : List (Table N ρ d)

/-- **The parties perform a program**, as far as they go on. -/
inductive Performs (P : Fin N → Protocol N ρ d G) (mode : SendMode) :
    List (Statement N ρ d) → List (Table N ρ d) →
      Behaviour (Fin N) G (Channel N) (List (Word d)) (Ending N ρ d G)
  | done {ts : List (Table N ρ d)} {g : Fin N → G} : Performs P mode [] ts g ⟨[], g, ts⟩ fun _ => []
  | halt {st : Statement N ρ d} {prog : List (Statement N ρ d)} {ts : List (Table N ρ d)}
      {g : Fin N → G} (h : ∀ c, ¬st.Runs P ts c) :
      Performs P mode (st :: prog) ts g ⟨st :: prog, g, ts⟩ fun _ => []
  | step {st : Statement N ρ d} {prog : List (Statement N ρ d)} {ts : List (Table N ρ d)}
      {g g' : Fin N → G} {c : Code N ρ d G} {a : Fin N → c.α} {e : Ending N ρ d G}
      {h h' : Channel N → List (List (Word d))} (hc : st.Runs P ts c)
      (hy : Yields mode c.program g a g' h) (hr : Performs P mode prog (c.finish a) g' e h') :
      Performs P mode (st :: prog) ts g e fun k => h k ++ h' k

/-- One more statement. -/
theorem Performs.snoc {h : Channel N → List (List (Word d))} {c : Code N ρ d G} {a : Fin N → c.α}
    {sent : Channel N → List (List (Word d))} (hr : Performs P mode prog ts g ⟨[], g', ts'⟩ h)
    (hc : st.Runs P ts' c) (hy : Yields mode c.program g' a g'' sent) :
    Performs P mode (prog ++ [st]) ts g ⟨[], g'', c.finish a⟩ fun k => h k ++ sent k := by
  generalize he : (⟨[], g', ts'⟩ : Ending N ρ d G) = e at hr
  induction hr with
  | done =>
    cases he
    simpa using Performs.step hc hy .done
  | halt => cases he
  | step hc' hy' _ ih =>
    simpa only [List.append_assoc, List.cons_append] using Performs.step hc' hy' (ih he)

/-- A run goes on with what is performed from its tables. -/
theorem Performs.reaches {s : List (Statement N ρ d)} {e : Ending N ρ d G}
    {h : Channel N → List (List (Word d))} (hr : Performs P mode prog ts g e h) (hend : e.left = [])
    {g₀ : Fin N → G} (hs : (program P mode (fun _ _ => True) g₀).Reaches (g, some ts) s) :
    (program P mode (fun _ _ => True) g₀).Reaches (e.generators, some e.tables) (s ++ prog) := by
  induction hr generalizing s with
  | done => simpa using hs
  | halt => simp at hend
  | step hc hy _ ih =>
    simpa using ih hend (hs.step ⟨_, _, rfl, rfl, trivial, step_iff.mpr ⟨_, _, _, hc, hy, rfl⟩⟩)

/-- **What the parties perform to its end are the runs of the program.** -/
theorem performs_iff : (∃ h, Performs P mode prog [] g ⟨[], g', ts⟩ h) ↔
    (program P mode (fun _ _ => True) g).Reaches (g', some ts) prog := by
  constructor
  · rintro ⟨h, hr⟩
    exact hr.reaches rfl .init
  · intro hs
    generalize he : ((g', some ts) : (Fin N → G) × Option (List (Table N ρ d))) = s at hs
    induction hs generalizing g' ts with
    | init =>
      cases he
      exact ⟨_, .done⟩
    | @step s s' prog x hr hs ih =>
      obtain ⟨ts₀, st, hs₀, rfl, -, hstep⟩ := hs
      subst he
      obtain ⟨c, a, sent, hc, hy, rfl⟩ := step_iff.mp hstep
      obtain ⟨h, hperforms⟩ := ih (Prod.ext rfl hs₀.symm)
      exact ⟨_, hperforms.snoc hc hy⟩

end Tva.Relational
