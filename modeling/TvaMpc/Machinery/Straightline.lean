import TvaMpc.Machinery.Deadlock

/-!
# Machinery/Straightline — typed straight-line programs and their joint runs

A program is a list of operations; each reads variables of the context it finds and appends its
results.  Variables are typed references into the context, so a program that names a missing or
ill-typed variable cannot be written down.

A program has a **plaintext meaning** (`Prog.eval`) and a **joint run** (`Prog.run`, one copy per
party).  `Prog.refines` lifts an operation-by-operation agreement of the two to whole programs.
-/

namespace Machinery

universe u v w

section Syntax

variable {T : Type v}

/-- A reference to a variable of type `t` in the context `Γ`. -/
inductive Var : List T → T → Type v where
  | here {Γ : List T} {t : T} : Var (t :: Γ) t
  | there {Γ : List T} {s t : T} (x : Var Γ t) : Var (s :: Γ) t
  deriving DecidableEq

/-- Which part of an appended context a variable lives in. -/
def Var.split {Γ : List T} {t : T} : (ts : List T) → Var (ts ++ Γ) t → Var ts t ⊕ Var Γ t
  | [], x => .inr x
  | _ :: _, .here => .inl .here
  | _ :: ts, .there x => (Var.split ts x).map .there id

/-- The values of the variables of a context. -/
abbrev Env (V : T → Type u) (Γ : List T) : Type (max u v) := ∀ ⦃t : T⦄, Var Γ t → V t

namespace Env

variable {V : T → Type u} {Γ ts : List T} {t : T}

/-- Put the results of an operation in front of a context. -/
def append (out : Env V ts) (e : Env V Γ) : Env V (ts ++ Γ) := fun _ x =>
  (x.split ts).elim (fun y => out y) fun y => e y

/-- The environment of no variables. -/
def nil : Env V [] := fun _ x => nomatch x

/-- The environment of one variable. -/
def one (a : V t) : Env V [t]
  | _, .here => a

/-- The environment of two variables. -/
def two {s : T} (a : V s) (b : V t) : Env V [s, t]
  | _, .here => a
  | _, .there .here => b

end Env

/-- A straight-line program over the operations `Op`, from context `Γ` to context `Δ`. -/
inductive Prog (Op : List T → List T → Type w) : List T → List T → Type (max v w) where
  | done {Γ : List T} : Prog Op Γ Γ
  | step {Γ ts Δ : List T} (op : Op Γ ts) (rest : Prog Op (ts ++ Γ) Δ) : Prog Op Γ Δ

namespace Prog

variable {Op : List T → List T → Type w} {V : T → Type u} {Γ Δ Θ : List T}

/-- Every operation of a program satisfies `P`. -/
def All (P : ∀ {Γ ts : List T}, Op Γ ts → Prop) {Γ Δ : List T} : Prog Op Γ Δ → Prop
  | done => True
  | step op rest => P op ∧ All P rest

theorem all_of_forall {P : ∀ {Γ ts : List T}, Op Γ ts → Prop}
    (h : ∀ {Γ ts : List T} (op : Op Γ ts), P op) (prog : Prog Op Γ Δ) : prog.All P := by
  induction prog with
  | done => trivial
  | step op rest ih => exact ⟨h op, ih⟩

theorem All.and {P Q : ∀ {Γ ts : List T}, Op Γ ts → Prop} {prog : Prog Op Γ Δ} (hp : prog.All P)
    (hq : prog.All Q) : prog.All fun op => P op ∧ Q op := by
  induction prog with
  | done => trivial
  | step op rest ih => exact ⟨⟨hp.1, hq.1⟩, ih hp.2 hq.2⟩

/-- The plaintext meaning of a program, given that of its operations. -/
def eval (f : ∀ {Γ ts : List T}, Op Γ ts → Env V Γ → Env V ts) {Γ Δ : List T} :
    Prog Op Γ Δ → Env V Γ → Env V Δ
  | done, e => e
  | step op rest, e => eval f rest ((f op e).append e)

/-- Number the operations of a program. -/
def number {Γ Δ : List T} : ℕ → Prog Op Γ Δ → Prog (fun Γ ts => ℕ × Op Γ ts) Γ Δ
  | _, done => done
  | l, step op rest => step (l, op) (number (l + 1) rest)

end Prog

end Syntax

section Run

variable {T : Type} {Op : List T → List T → Type w} {V : T → Type} {Γ Δ : List T}

/-- One party's run of a program. -/
def Prog.run {m : Type → Type u} [Monad m]
    (f : ∀ {Γ ts : List T}, Op Γ ts → Env V Γ → m (Env V ts)) {Γ Δ : List T} :
    Prog Op Γ Δ → Env V Γ → m (Env V Δ)
  | done, e => pure e
  | step op rest, e => f op e >>= fun out => run f rest (out.append e)

theorem Prog.owned_run {I C M E G : Type} {src dst : C → I} {i : I}
    {f : ∀ {Γ ts : List T}, Op Γ ts → Env V Γ → Party G C M E (Env V ts)}
    (hf : ∀ {Γ ts : List T} (op : Op Γ ts) (e : Env V Γ), Party.Owned src dst i (f op e))
    (prog : Prog Op Γ Δ) (e : Env V Γ) : Party.Owned src dst i (prog.run f e) := by
  induction prog with
  | done => exact .pure _
  | step op rest ih => exact (hf op e).bind fun _ => ih _

variable {I C M E G : Type} [DecidableEq I] [DecidableEq C] {mode : SendMode}
variable {f : I → ∀ {Γ ts : List T}, Op Γ ts → Env V Γ → Party G C M E (Env V ts)}

variable {U : T → Type u} {ev : ∀ {Γ ts : List T}, Op Γ ts → Env U Γ → Env U ts}

/-- Every variable of the joint environment `e` represents its plaintext value in `d`. -/
def Env.Rel (R : ∀ t : T, (I → V t) → U t → Prop) (e : I → Env V Γ) (d : Env U Γ) : Prop :=
  ∀ ⦃t : T⦄ (x : Var Γ t), R t (fun i => e i x) (d x)

omit [DecidableEq I] in
theorem Env.Rel.append {R : ∀ t : T, (I → V t) → U t → Prop} {ts : List T} {e : I → Env V Γ}
    {d : Env U Γ} {out : I → Env V ts} {res : Env U ts} (ho : Env.Rel R out res)
    (he : Env.Rel R e d) : Env.Rel R (fun i => (out i).append (e i)) (res.append d) := by
  intro t x
  simp only [Env.append]
  cases x.split ts with
  | inl y => exact ho y
  | inr y => exact he y

/-- **Refinement of programs**: where every operation of the parties computes its plaintext meaning,
so does every program. -/
theorem Prog.refines {R : ∀ t : T, (I → V t) → U t → Prop} {Good : (I → G) → Prop}
    {P : ∀ {Γ ts : List T}, Op Γ ts → Prop}
    (hstep : ∀ {Γ ts : List T} (op : Op Γ ts) (e : I → Env V Γ) (d : Env U Γ) (g : I → G), P op →
      Env.Rel R e d → Good g → Ensures mode (fun i => f i op (e i)) g fun out g' _ =>
        Env.Rel R out (ev op d) ∧ Good g')
    (prog : Prog Op Γ Δ) (hp : prog.All P) {e : I → Env V Γ} {d : Env U Γ} {g : I → G}
    (he : Env.Rel R e d) (hg : Good g) :
    Ensures mode (fun i => prog.run (f i) (e i)) g fun e' g' _ =>
      Env.Rel R e' (prog.eval ev d) ∧ Good g' := by
  induction prog generalizing g with
  | done => exact Ensures.pure ⟨he, hg⟩
  | step op rest ih =>
    exact (hstep op e d g hp.1 he hg).bind fun out g' _ hout =>
      (ih hp.2 (hout.1.append he) hout.2).mono fun _ _ _ => id

variable (mode f) in
/-- **Along the joint run** from `e` and `g`, every operation finds inputs that meet `P`. -/
def Prog.Along (P : ∀ {Γ ts : List T}, Op Γ ts → (I → Env V Γ) → Prop) {Γ Δ : List T} :
    Prog Op Γ Δ → (I → Env V Γ) → (I → G) → Prop
  | done, _, _ => True
  | step op rest, e, g => P op e ∧ ∀ out g' h, Yields mode (fun i => f i op (e i)) g out g' h →
      Along P rest (fun i => (out i).append (e i)) g'

variable {P : ∀ {Γ ts : List T}, Op Γ ts → (I → Env V Γ) → Prop}

theorem Prog.along_of_all {A : ∀ {Γ ts : List T}, Op Γ ts → Prop}
    (h : ∀ {Γ ts : List T} (op : Op Γ ts) (e : I → Env V Γ), A op → P op e) {prog : Prog Op Γ Δ}
    (ha : prog.All A) (e : I → Env V Γ) (g : I → G) : prog.Along mode f P e g := by
  induction prog generalizing g with
  | done => trivial
  | step op rest ih => exact ⟨h op e ha.1, fun _ g' _ _ => ih ha.2 _ g'⟩

/-- **Programs that finish meet the condition all along**, if an operation that does not meet it
keeps the parties. -/
theorem Prog.along_of_yields [Finite I] {src dst : C → I}
    (hown : ∀ i {Γ ts : List T} (op : Op Γ ts) (e : Env V Γ), Party.Owned src dst i (f i op e))
    (hstuck : ∀ {Γ ts : List T} (op : Op Γ ts) (e : I → Env V Γ) (g : I → G), ¬P op e →
      Sticks src dst mode (fun i => f i op (e i)) g)
    (prog : Prog Op Γ Δ) {e : I → Env V Γ} {g g' : I → G} {b : I → Env V Δ} {h : C → List M}
    (hy : Yields mode (fun i => prog.run (f i) (e i)) g b g' h) : prog.Along mode f P e g := by
  induction prog generalizing g h with
  | done => trivial
  | step op rest ih =>
    have hrest : ∀ i out, Party.Owned src dst i (rest.run (f i) (Env.append out (e i))) :=
      fun i out => rest.owned_run (hown i) _
    refine ⟨by_contra fun hp => hstuck op e g hp _ hrest b g' h hy, fun out g₁ h₁ hy₁ => ?_⟩
    obtain ⟨h₂, hy₂⟩ := hy₁.of_bind (fun i => (hown i op (e i)).bind (hrest i)) hy
    exact ih hy₂

end Run

end Machinery
