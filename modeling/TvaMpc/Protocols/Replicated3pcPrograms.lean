import TvaMpc.Protocols.Replicated3pcCorrect

/-!
# Protocols/Replicated3pcPrograms — three parties compute the plaintext program

With masks that cancel, chosen freely for every call, every straight-line program of the three
parties finishes in every interleaving with well-formed sharings of the plaintext results, and every
variable opens to its plaintext.
-/

namespace Tva.Replicated3pc

open Machinery

variable {n : ℕ} {d : DataType} {Γ Δ : List Ty} {t : Ty} {mode : SendMode}

/-- **Masks that cancel**: the parties make the same calls, and what they draw in a call from
channel `2` adds up to zero, from channel `5` cancels under `^`. -/
def CancellingMasks (g : Fin 3 → MaskGenerator d) : Prop :=
  (∀ i, (g i).nextCalls = (g 0).nextCalls) ∧ ∀ t n,
    (g 0).next t 2 n + (g 1).next t 2 n + (g 2).next t 2 n = 0 ∧
      (g 0).next t 5 n ^^^ (g 1).next t 5 n ^^^ (g 2).next t 5 n = 0

theorem mask_maskGenerator (id n : ℕ) (g : MaskGenerator d) :
    mask d id n g = g.next g.nextCalls id n :=
  funext fun j => if_pos j.isLt

theorem CancellingMasks.afterNext {g : Fin 3 → MaskGenerator d} (hg : CancellingMasks g)
    (id n : ℕ) : CancellingMasks fun i => afterNext d id n (g i) :=
  ⟨fun i => congrArg (· + 1) (hg.1 i), hg.2⟩

theorem zeroSharing_maskGenerator : ZeroSharing d (CancellingMasks (d := d)) where
  masksA {g} hg n := by
    simp only [mask_maskGenerator, hg.1, Fin.sum_univ_three]
    exact (hg.2 _ n).1
  masksB {g} hg n := by
    simp only [mask_maskGenerator, hg.1 1, hg.1 2]
    exact (hg.2 _ n).2
  afterA hg n := hg.afterNext 2 n
  afterB hg n := hg.afterNext 5 n
  afterDeal {g} hg n p := by
    have hnext : ∀ i, (afterDeal d n p g i).next = (g i).next ∧
        (afterDeal d n p g i).nextCalls = (g i).nextCalls := by
      intro i
      by_cases hi : i = p
      · subst hi
        rw [afterDeal, Function.update_self]
        exact ⟨rfl, rfl⟩
      · rw [afterDeal, Function.update_of_ne hi]
        exact ⟨rfl, rfl⟩
    refine ⟨fun i => ?_, fun t m => ?_⟩
    · rw [(hnext i).2, (hnext 0).2, hg.1 i]
    · rw [(hnext 0).1, (hnext 1).1, (hnext 2).1]
      exact hg.2 t m

theorem from_any (prog : Program 3 d Γ Δ) : prog.All (Op.From fun _ => True) :=
  Prog.all_of_forall (fun op => by cases op <;> trivial) prog

/-- **The three-party protocol computes the plaintext program**: in every interleaving all parties
finish, with well-formed sharings of the plaintext values in every variable, and the program
followed by the opening of any variable gives each party the plaintext of that variable. -/
theorem computes_plaintext (prog : Program 3 d [] Δ) (g : Fin 3 → MaskGenerator d)
    (hg : CancellingMasks g) :
    Finishes mode (fun i => (prog.run (protocol d (MaskGenerator d) i) Env.nil).run (g i))
        (fun out _ => Env.Rel (Holds layout) (fun i => (out i).1) (prog.eval Env.nil)) ∧
      ∀ (t : Ty) (x : Var Δ t), Finishes mode
        (fun i => (prog.run (protocol d (MaskGenerator d) i) Env.nil >>= fun out =>
          openVar (protocol d (MaskGenerator d) i) (out x)).run (g i))
        fun a _ => ∀ i, (a i).1 = prog.eval Env.nil x := by
  have hP : Protocol.Correct (protocol d (MaskGenerator d)) layout 0 (fun _ => True)
    CancellingMasks mode := correct zeroSharing_maskGenerator
  have hnil : Env.Rel (Holds layout) (fun _ : Fin 3 => (Env.nil : Env (Ty.Share 2 d) []))
      (Env.nil : Env (Ty.Val d) []) := fun _ x => nomatch x
  have hsized : prog.All (Op.Sized 0) := Prog.all_of_forall Op.sized_zero prog
  refine ⟨?_, fun t x => ?_⟩
  · exact ((hP.ensures_program prog (from_any prog) hsized hnil hg).mono
      fun _ _ _ h => h.1).finishes fun i => (ownedBy_protocol i).program prog _
  · exact (hP.ensures_program_open prog (from_any prog) hsized hnil hg x).finishes
      fun i => ((ownedBy_protocol i).program prog _).bind fun _ => (ownedBy_protocol i).openVar _

/-- The product of two inputs, `5` from party `0` and `7` from party `2`. -/
def productProgram : Program 3 .int8_t [] [.arith 1, .arith 1, .arith 1] :=
  .step (.secretShareA 0 fun _ => 5) <| .step (.secretShareA 2 fun _ => 7) <|
    .step (.multiplyA (.there .here) .here) .done

/-- Constant masks that cancel: `1 + 2 + (-3) = 0` and `1 ^ 2 ^ 3 = 0`. -/
def constantMasks (i : Fin 3) : MaskGenerator .int8_t where
  next _ id _ _ := ![1, 2, if id = 2 then -3 else 3] i
  random _ _ _ := 9
  nextCalls := 0
  randomCalls := 0

theorem computes_plaintext_product : Finishes .rendezvous
    (fun i => (productProgram.run (protocol _ _ i) Env.nil >>= fun out =>
      openVar (protocol .int8_t (MaskGenerator .int8_t) i) (out .here)).run (constantMasks i))
    fun a _ => ∀ i, (a i).1 = fun _ => 35 := by
  have hg : CancellingMasks constantMasks :=
    ⟨fun _ => rfl, fun _ _ => ⟨funext fun _ => show (1 + 2 + -3 : Word .int8_t) = 0 by decide,
      funext fun _ => show (1 ^^^ 2 ^^^ 3 : Word .int8_t) = 0 by decide⟩⟩
  exact (computes_plaintext productProgram constantMasks hg).2 _ .here

end Tva.Replicated3pc
