import TvaMpc.Machinery.Sharing
import TvaMpc.Protocols.Program
import Mathlib.Tactic.Ring

/-!
# Protocols/Correct — programs compute their plaintext, for every correct protocol

`Protocol.Correct` is the contract of the primitives: on well-formed sharings they finish, and give
well-formed sharings of the plaintext result.  The products are only asked for vectors of `least`
elements or more.  From the contract alone follow the boolean adder (`ensures_parallelPrefixAdder`),
the conversion `a2b`, and whole programs (`ensures_program`).
-/

namespace Tva

open Machinery

variable {N ρ n m least : ℕ} [NeZero ρ] {d : DataType} {G : Type}

/-- Elementwise `|`. -/
instance : OrOp (Vec n d) := ⟨fun x y j => x j ||| y j⟩

/-- A sharing under addition. -/
abbrev SharesA (layout : Fin N → Fin ρ → Fin N) (x : Fin N → EVector ρ n d) (v : Vec n d) : Prop :=
  Shares (W := Word d) layout x v

/-- A sharing under `^`. -/
abbrev SharesB (layout : Fin N → Fin ρ → Fin N) (x : Fin N → EVector ρ n d) (v : Vec n d) : Prop :=
  @Shares (Word d) (boolRing d) N ρ n _ layout x v

variable {layout : Fin N → Fin ρ → Fin N}

/-- **Linear maps act on boolean sharings**, column by column. -/
theorem SharesB.map {x : Fin N → EVector ρ n d} {v : Vec n d} (hx : SharesB layout x v)
    (f : Vec n d → Vec m d) (hf : ∀ a b, f (a ^^^ b) = f a ^^^ f b) :
    SharesB layout (fun i k => f (x i k)) (f v) :=
  letI := boolRing d
  Shares.map hx (AddMonoidHom.mk' f hf)

theorem SharesB.xor {x y : Fin N → EVector ρ n d} {u v : Vec n d} (hx : SharesB layout x u)
    (hy : SharesB layout y v) : SharesB layout (fun i k => x i k ^^^ y i k) (u ^^^ v) :=
  letI := boolRing d
  Shares.add hx hy

/-- **Linear maps of two vectors** act on boolean sharings. -/
theorem SharesB.map₂ {l : ℕ} {x : Fin N → EVector ρ n d} {y : Fin N → EVector ρ m d} {u : Vec n d}
    {v : Vec m d} (hx : SharesB layout x u) (hy : SharesB layout y v)
    (f : Vec n d → Vec m d → Vec l d)
    (hf : ∀ a b a' b', f (a ^^^ b) (a' ^^^ b') = f a a' ^^^ f b b') :
    SharesB layout (fun i k => f (x i k) (y i k)) (f u v) := by
  have hzero : ∀ {m} (w : Vec m d), w ^^^ 0 = w ∧ 0 ^^^ w = w := fun w =>
    ⟨funext fun _ => BitVec.xor_zero, funext fun _ => BitVec.zero_xor⟩
  have hsplit : ∀ a b, f a b = f a 0 ^^^ f 0 b := fun a b => by
    rw [← hf, (hzero a).1, (hzero b).2]
  have hleft := hx.map (fun a => f a 0) fun a b => by rw [← hf, (hzero 0).1]
  have hright := hy.map (fun b => f 0 b) fun a b => by rw [← hf, (hzero 0).1]
  have hcomponents : (fun i k => f (x i k) (y i k)) = fun i k => f (x i k) 0 ^^^ f 0 (y i k) :=
    funext fun _ => funext fun _ => hsplit _ _
  rw [hcomponents, hsplit u]
  exact hleft.xor hright

theorem SharesB.zero : SharesB layout (fun _ _ => (0 : Vec n d)) 0 :=
  letI := boolRing d
  Shares.zero

theorem SharesB.unique {x : Fin N → EVector ρ n d} {u v : Vec n d} (hx : SharesB layout x u)
    (hx' : SharesB layout x v) : u = v :=
  letI := boolRing d
  Shares.unique hx hx'

/-- **The contract of a protocol**: `P i` is the table of party `i`, `Good` what the generators
keep, `dataParty` says who may input, and `least` is the least size of a product. -/
structure Protocol.Correct (P : Fin N → Protocol N ρ d G) (layout : Fin N → Fin ρ → Fin N)
    (least : ℕ) (dataParty : Fin N → Prop) (Good : (Fin N → G) → Prop) (mode : SendMode) :
    Prop where
  addA {n : ℕ} (i : Fin N) (x y : EVector ρ n d) : (P i).addA x y = fun k => x k + y k
  subA {n : ℕ} (i : Fin N) (x y : EVector ρ n d) : (P i).subA x y = fun k => x k - y k
  negA {n : ℕ} (i : Fin N) (x : EVector ρ n d) : (P i).negA x = fun k => -x k
  xorB {n : ℕ} (i : Fin N) (x y : EVector ρ n d) : (P i).xorB x y = fun k => x k ^^^ y k
  ltz {n : ℕ} (i : Fin N) (x : EVector ρ n d) : (P i).ltz x = fun k => Tva.ltz (x k)
  notB {n : ℕ} {x : Fin N → EVector ρ n d} {v : Vec n d} (hx : SharesB layout x v) :
    SharesB layout (fun i => (P i).notB (x i)) (~~~v)
  multiplyA {n : ℕ} {x y : Fin N → EVector ρ n d} {u v : Vec n d} {g : Fin N → G} (hg : Good g)
    (hx : SharesA layout x u) (hy : SharesA layout y v) (hn : least ≤ n) :
    Ensures mode (fun i => (P i).multiplyA (x i) (y i)) g fun z g' _ =>
      SharesA layout z (u * v) ∧ Good g'
  andB {n : ℕ} {x y : Fin N → EVector ρ n d} {u v : Vec n d} {g : Fin N → G} (hg : Good g)
    (hx : SharesB layout x u) (hy : SharesB layout y v) (hn : least ≤ n) :
    Ensures mode (fun i => (P i).andB (x i) (y i)) g fun z g' _ =>
      SharesB layout z (u &&& v) ∧ Good g'
  b2aBit {n : ℕ} {x : Fin N → EVector ρ n d} {v : Vec n d} {g : Fin N → G} (hg : Good g)
    (hx : SharesB layout x v) :
    Ensures mode (fun i => (P i).b2aBit (x i)) g fun z g' _ => SharesA layout z (lowBit v) ∧ Good g'
  redistributeSharesB {n : ℕ} {x : Fin N → EVector ρ n d} {v : Vec n d} {g : Fin N → G}
    (hg : Good g) (hx : SharesA layout x v) :
    Ensures mode (fun i => (P i).redistributeSharesB (x i)) g fun z g' _ =>
      (∃ u u', SharesB layout (fun i => (z i).1) u ∧ SharesB layout (fun i => (z i).2) u' ∧
        u + u' = v) ∧ Good g'
  openSharesA {n : ℕ} {x : Fin N → EVector ρ n d} {v : Vec n d} {g : Fin N → G}
    (hx : SharesA layout x v) :
    Ensures mode (fun i => (P i).openSharesA (x i)) g fun a _ _ => ∀ i, a i = v
  openSharesB {n : ℕ} {x : Fin N → EVector ρ n d} {v : Vec n d} {g : Fin N → G}
    (hx : SharesB layout x v) :
    Ensures mode (fun i => (P i).openSharesB (x i)) g fun a _ _ => ∀ i, a i = v
  secretShareA {n : ℕ} {p : Fin N} {data : Vec n d} {g : Fin N → G} (hp : dataParty p)
    (hg : Good g) :
    Ensures mode (fun i => (P i).secretShareA data p) g fun z g' _ =>
      SharesA layout z data ∧ Good g'
  secretShareB {n : ℕ} {p : Fin N} {data : Vec n d} {g : Fin N → G} (hp : dataParty p)
    (hg : Good g) :
    Ensures mode (fun i => (P i).secretShareB data p) g fun z g' _ =>
      SharesB layout z data ∧ Good g'

/-! ## Linear maps of the adder -/

theorem bitLeftShift_xor (s : ℕ) (x y : Vec n d) :
    bitLeftShift s (x ^^^ y) = bitLeftShift s x ^^^ bitLeftShift s y :=
  funext fun _ => BitVec.shiftLeft_xor_distrib _ _ _

theorem reverseBitLevelShift_xor {s : ℕ} (hs : 0 < s) (hd : 2 * s ∣ d.bits) (x y : Vec n d) :
    reverseBitLevelShift (2 * s) (x ^^^ y)
      = reverseBitLevelShift (2 * s) x ^^^ reverseBitLevelShift (2 * s) y := by
  funext j
  refine BitVec.eq_of_getLsbD_eq fun b hb => ?_
  simp only [reverseBitLevelShift, Vec.xor_apply, BitVec.getLsbD_xor,
    getLsbD_reverseBitLevelShiftWord hs hd _ hb]
  split <;> rfl

theorem ltz_apply (x : Vec n d) (j : Fin n) : Tva.ltz x j = if (x j).msb then 1 else 0 := by
  have h0 : (0 : Word d) = 0#d.bits := rfl
  rw [Tva.ltz, h0, BitVec.slt_zero_eq_msb]

theorem ltz_xor (x y : Vec n d) : Tva.ltz (x ^^^ y) = Tva.ltz x ^^^ Tva.ltz y := by
  funext j
  rw [Vec.xor_apply, ltz_apply, ltz_apply, ltz_apply, Vec.xor_apply, BitVec.msb_xor]
  cases (x j).msb <;> cases (y j).msb <;> simp

/-! ## The adder -/

namespace Protocol.Correct

variable {P : Fin N → Protocol N ρ d G} {dataParty : Fin N → Prop} {Good : (Fin N → G) → Prop}
variable {mode : SendMode} {x y : Fin N → EVector ρ n d} {u v : Vec n d} {g : Fin N → G}

theorem ensures_or (hP : Correct P layout least dataParty Good mode) (hg : Good g)
    (hx : SharesB layout x u) (hy : SharesB layout y v) (hn : least ≤ n) :
    Ensures mode (fun i => (P i).or (x i) (y i)) g fun z g' _ =>
      SharesB layout z (u ||| v) ∧ Good g' := by
  refine (hP.andB hg (hP.notB hx) (hP.notB hy) hn).bind fun z g' _ hz => Ensures.pure ⟨?_, hz.2⟩
  have hor : ~~~(~~~u &&& ~~~v) = u ||| v := funext fun j => by
    refine BitVec.eq_of_getLsbD_eq fun b hb => ?_
    change (~~~(~~~(u j) &&& ~~~(v j))).getLsbD b = (u j ||| v j).getLsbD b
    simp [hb]
  exact hor ▸ hP.notB hz.1

theorem ensures_prefixSum (hP : Correct P layout least dataParty Good mode) (hg : Good g)
    {gp gp' : Fin N → EVector ρ n d × EVector ρ n d} {vg vp vg' vp' : Vec n d}
    (h₁ : SharesB layout (fun i => (gp i).1) vg) (h₂ : SharesB layout (fun i => (gp i).2) vp)
    (h₁' : SharesB layout (fun i => (gp' i).1) vg')
    (h₂' : SharesB layout (fun i => (gp' i).2) vp') (hn : least ≤ n) :
    Ensures mode (fun i => (P i).prefixSum (gp i) (gp' i)) g fun z g' _ =>
      SharesB layout (fun i => (z i).1) (vg ||| (vp &&& vg')) ∧
        SharesB layout (fun i => (z i).2) (vp &&& vp') ∧ Good g' :=
  (hP.andB hg h₂ h₁' hn).bind fun _ _ _ hc => (hP.ensures_or hc.2 h₁ hc.1 hn).bind fun _ _ _ hgo =>
    (hP.andB hgo.2 h₂ h₂' hn).bind fun _ _ _ hpo => Ensures.pure ⟨hgo.1, hpo.1, hpo.2⟩

/-- One level joins the segments in pairs. -/
theorem segments_level {a b vg vp : Vec n d} {s : ℕ} (hs : 0 < s) (hd : 2 * s ∣ d.bits)
    (h : ∀ j, Segments (a j) (b j) (vg j) (vp j) s) (j : Fin n) :
    Segments (a j) (b j) ((vg ||| (vp &&& reverseBitLevelShift (2 * s) vg)) j)
      ((vp &&& reverseBitLevelShift (2 * s) vp) j) (2 * s) := by
  refine (h j).double hs (fun t ht hpar => ?_) fun t ht hpar => ?_
  all_goals
    change (vg j ||| (vp j &&& reverseBitLevelShiftWord (2 * s) (vg j))).getLsbD t = _ ∧
      (vp j &&& reverseBitLevelShiftWord (2 * s) (vp j)).getLsbD t = _
    simp only [BitVec.getLsbD_or, BitVec.getLsbD_and, getLsbD_reverseBitLevelShiftWord hs hd _ ht,
      hpar]
  · simp only [Nat.zero_ne_one, if_false, Bool.and_self, and_true]
    cases (vg j).getLsbD t <;> simp
  · exact ⟨rfl, rfl⟩

/-- **The loop over the levels**: from blocks of `s` to one block of the whole word. -/
theorem ensures_levels (hP : Correct P layout least dataParty Good mode) (hn : least ≤ n)
    {a b : Vec n d} (k : ℕ) :
    ∀ (fuel s : ℕ) (gp : Fin N → EVector ρ n d × EVector ρ n d) {g : Fin N → G} {vg vp : Vec n d},
      0 < s → d.bits = s * 2 ^ k → k ≤ fuel → Good g →
      SharesB layout (fun i => (gp i).1) vg → SharesB layout (fun i => (gp i).2) vp →
      (∀ j, Segments (a j) (b j) (vg j) (vp j) s) →
      Ensures mode (fun i => (Protocol.adderLevels d.bits fuel (2 * s)).foldlM (fun gp l => do
        let gShift := fun k => reverseBitLevelShift l (gp.1 k)
        let pShift := fun k => reverseBitLevelShift l (gp.2 k)
        (P i).prefixSum gp (gShift, pShift)) (gp i)) g fun z g' _ =>
        (∃ vg, SharesB layout (fun i => (z i).1) vg ∧
          ∃ vp : Vec n d, ∀ j, Segments (a j) (b j) (vg j) (vp j) d.bits) ∧ Good g' := by
  induction k with
  | zero =>
    intro fuel s gp g vg vp hs hbits _ hg h₁ _ hseg
    have hlevels : Protocol.adderLevels d.bits fuel (2 * s) = [] := by
      cases fuel with
      | zero => rfl
      | succ fuel => rw [Protocol.adderLevels, if_neg (by omega)]
    rw [hlevels]
    rw [Nat.pow_zero, Nat.mul_one] at hbits
    exact Ensures.pure ⟨⟨vg, h₁, vp, hbits ▸ hseg⟩, hg⟩
  | succ k ih =>
    intro fuel s gp g vg vp hs hbits hfuel hg h₁ h₂ hseg
    obtain ⟨fuel, rfl⟩ : ∃ f, fuel = f + 1 := ⟨fuel - 1, by omega⟩
    have hbits' : d.bits = 2 * s * 2 ^ k := by rw [hbits, Nat.pow_succ]; ring
    have hle : 2 * s ≤ d.bits := hbits' ▸ Nat.le_mul_of_pos_right _ (Nat.two_pow_pos k)
    have hdvd : 2 * s ∣ d.bits := ⟨2 ^ k, hbits'⟩
    have hshift : (2 * s) <<< 1 = 2 * (2 * s) := by rw [Nat.shiftLeft_eq]; ring
    have hlevels : Protocol.adderLevels d.bits (fuel + 1) (2 * s)
        = 2 * s :: Protocol.adderLevels d.bits fuel (2 * (2 * s)) := by
      rw [Protocol.adderLevels, if_pos hle, hshift]
    simp only [hlevels, List.foldlM_cons]
    have hmap := fun {w : Fin N → EVector ρ n d} {z : Vec n d} (hw : SharesB layout w z) =>
      hw.map (reverseBitLevelShift (2 * s)) (reverseBitLevelShift_xor hs hdvd)
    refine (hP.ensures_prefixSum hg h₁ h₂ (hmap h₁) (hmap h₂) hn).bind fun z g' h hz => ?_
    exact (ih fuel (2 * s) z (by omega) hbits' (by omega) hz.2.2 hz.1 hz.2.1
      (segments_level hs hdvd hseg)).mono fun _ _ _ => id

/-- **The boolean adder adds.** -/
theorem ensures_parallelPrefixAdder (hP : Correct P layout least dataParty Good mode) (hg : Good g)
    (hx : SharesB layout x u) (hy : SharesB layout y v) (hn : least ≤ n) :
    Ensures mode (fun i => (P i).parallelPrefixAdder (x i) (y i)) g fun z g' _ =>
      SharesB layout z (u + v) ∧ Good g' := by
  obtain ⟨k, hk, hkb⟩ : ∃ k, d.bits = 1 * 2 ^ k ∧ k ≤ d.bits := by
    cases d
    exacts [⟨3, rfl, by decide⟩, ⟨5, rfl, by decide⟩, ⟨6, rfl, by decide⟩]
  have hp : SharesB layout (fun i => (P i).xorB (x i) (y i)) (u ^^^ v) := by
    simp only [hP.xorB]
    exact hx.xor hy
  refine (hP.andB hg hx hy hn).bind fun gen g' _ hgen => ?_
  rw [d.maxBitsNumber_eq]
  have hlevels := hP.ensures_levels hn k d.bits 1 (fun i => (gen i, (P i).xorB (x i) (y i))) one_pos
    hk hkb hgen.2 hgen.1 hp fun j => Segments.one (u j) (v j)
  refine hlevels.bind fun res g'' _ hres => ?_
  obtain ⟨⟨vg, hvg, vp, hseg⟩, hg''⟩ := hres
  refine Ensures.pure ⟨?_, hg''⟩
  have hsum : (u ^^^ v) ^^^ bitLeftShift 1 vg = u + v := funext fun j => (hseg j).sum
  simp only [hP.xorB] at hp ⊢
  exact hsum ▸ hp.xor (hvg.map (bitLeftShift 1) (bitLeftShift_xor 1))

/-- **The conversion from arithmetic to boolean shares keeps the value.** -/
theorem ensures_a2b (hP : Correct P layout least dataParty Good mode) (hg : Good g)
    (hx : SharesA layout x v) (hn : least ≤ n) :
    Ensures mode (fun i => (P i).a2b (x i)) g fun z g' _ => SharesB layout z v ∧ Good g' := by
  refine (hP.redistributeSharesB hg hx).bind fun z g' _ hz => ?_
  obtain ⟨⟨u, u', h₁, h₂, rfl⟩, hg'⟩ := hz
  exact (hP.ensures_parallelPrefixAdder hg' h₁ h₂ hn).mono fun _ _ _ => id

end Protocol.Correct

/-! ## Programs -/

/-- The joint variable `x` is a well-formed sharing of `v`, or `v` itself at every party. -/
def Holds (layout : Fin N → Fin ρ → Fin N) :
    (t : Ty) → (Fin N → t.Share ρ d) → t.Val d → Prop
  | .arith _, x, v => SharesA layout x v
  | .bool _, x, v => SharesB layout x v
  | .plain _, x, v => ∀ i, x i = v

namespace Protocol.Correct

variable {P : Fin N → Protocol N ρ d G} {dataParty : Fin N → Prop} {Good : (Fin N → G) → Prop}
variable {mode : SendMode} {g : Fin N → G} {Γ Δ ts : List Ty} {t : Ty}

/-- Storing the result of a step. -/
theorem ensures_one {m : Fin N → PartyM N d G (t.Share ρ d)} {v : t.Val d}
    (hm : Ensures mode m g fun z g' _ => Holds layout t z v ∧ Good g') :
    Ensures mode (fun i => m i >>= fun z => return (Env.one z : Env (Ty.Share ρ d) [t])) g
      fun out g' _ => Env.Rel (Holds layout) out (Env.one v : Env (Ty.Val d) [t]) ∧ Good g' :=
  hm.bind fun _ _ _ hz => Ensures.pure ⟨fun | _, .here => hz.1, hz.2⟩

/-- Storing a result that a party computes on its own. -/
theorem ensures_local {z : Fin N → t.Share ρ d} {v : t.Val d} (hz : Holds layout t z v)
    (hg : Good g) :
    Ensures mode (fun i => (return Env.one (z i) : PartyM N d G (Env (Ty.Share ρ d) [t]))) g
      fun out g' _ => Env.Rel (Holds layout) out (Env.one v : Env (Ty.Val d) [t]) ∧ Good g' :=
  Ensures.pure ⟨fun | _, .here => hz, hg⟩

/-- **Every step computes its plaintext meaning.** -/
theorem ensures_op (hP : Correct P layout least dataParty Good mode) (op : Op N d Γ ts)
    (hop : op.From dataParty) (hsize : op.Sized least) {e : Fin N → Env (Ty.Share ρ d) Γ}
    {v : Env (Ty.Val d) Γ} (he : Env.Rel (Holds layout) e v) (hg : Good g) :
    Ensures mode (fun i => op.run (P i) (e i)) g fun out g' _ =>
      Env.Rel (Holds layout) out (op.eval v) ∧ Good g' := by
  cases op with
  | secretShareA p data => exact ensures_one (hP.secretShareA hop hg)
  | secretShareB p data => exact ensures_one (hP.secretShareB hop hg)
  | addA x y => exact ensures_local (by simp only [Holds, hP.addA]; exact (he x).add (he y)) hg
  | subA x y => exact ensures_local (by simp only [Holds, hP.subA]; exact (he x).sub (he y)) hg
  | negA x => exact ensures_local (by simp only [Holds, hP.negA]; exact (he x).neg) hg
  | multiplyA x y => exact ensures_one (hP.multiplyA hg (he x) (he y) (hsize _ rfl))
  | xorB x y =>
    exact ensures_local (by simp only [Holds, hP.xorB]; exact SharesB.xor (he x) (he y)) hg
  | andB x y => exact ensures_one (hP.andB hg (he x) (he y) (hsize _ rfl))
  | notB x => exact ensures_local (hP.notB (he x)) hg
  | ltz x =>
    exact ensures_local (by simp only [Holds, hP.ltz]; exact SharesB.map (he x) _ ltz_xor) hg
  | a2b x => exact ensures_one (hP.ensures_a2b hg (he x) (hsize _ rfl))
  | b2aBit x => exact ensures_one (hP.b2aBit hg (he x))

/-- **Every program computes its plaintext meaning.** -/
theorem ensures_program (hP : Correct P layout least dataParty Good mode) (prog : Program N d Γ Δ)
    (hprog : prog.All (Op.From dataParty)) (hsize : prog.All (Op.Sized least))
    {e : Fin N → Env (Ty.Share ρ d) Γ} {v : Env (Ty.Val d) Γ} (he : Env.Rel (Holds layout) e v)
    (hg : Good g) :
    Ensures mode (fun i => prog.run (P i) (e i)) g fun out g' _ =>
      Env.Rel (Holds layout) out (prog.eval v) ∧ Good g' :=
  Prog.refines (fun op _ _ _ hop he hg => hP.ensures_op op hop.1 hop.2 he hg) prog
    (hprog.and hsize) he hg

/-- **Opening gives every party the plaintext.** -/
theorem ensures_openVar (hP : Correct P layout least dataParty Good mode) {x : Fin N → t.Share ρ d}
    {v : t.Val d} (hx : Holds layout t x v) :
    Ensures mode (fun i => openVar (P i) (x i)) g fun a _ _ => ∀ i, a i = v := by
  cases t with
  | arith n => exact hP.openSharesA hx
  | bool n => exact hP.openSharesB hx
  | plain n => exact Ensures.pure hx

/-- **A program and the opening of any of its variables.** -/
theorem ensures_program_open (hP : Correct P layout least dataParty Good mode)
    (prog : Program N d Γ Δ) (hprog : prog.All (Op.From dataParty))
    (hsize : prog.All (Op.Sized least)) {e : Fin N → Env (Ty.Share ρ d) Γ} {v : Env (Ty.Val d) Γ}
    (he : Env.Rel (Holds layout) e v) (hg : Good g) (x : Var Δ t) :
    Ensures mode (fun i => prog.run (P i) (e i) >>= fun out => openVar (P i) (out x)) g
      fun a _ _ => ∀ i, a i = prog.eval v x :=
  (hP.ensures_program prog hprog hsize he hg).bind fun _ _ _ hout =>
    (hP.ensures_openVar (hout.1 x)).mono fun _ _ _ => id

end Protocol.Correct

/-! ## What a result opens to -/

/-- **The boolean vector that the parties compute opens to `v`**: in every interleaving, at every
party. -/
def OpensB (P : Fin N → Protocol N ρ d G) (mode : SendMode)
    (m : Fin N → PartyM N d G (EVector ρ n d)) (g : Fin N → G) (v : Vec n d) : Prop :=
  Finishes mode (fun i => (m i >>= (P i).openSharesB).run (g i)) fun out _ => ∀ i, (out i).1 = v

/-- The same for an arithmetic vector. -/
def OpensA (P : Fin N → Protocol N ρ d G) (mode : SendMode)
    (m : Fin N → PartyM N d G (EVector ρ n d)) (g : Fin N → G) (v : Vec n d) : Prop :=
  Finishes mode (fun i => (m i >>= (P i).openSharesA).run (g i)) fun out _ => ∀ i, (out i).1 = v

section Opens

variable {P : Fin N → Protocol N ρ d G} {dataParty : Fin N → Prop} {Good : (Fin N → G) → Prop}
variable {mode : SendMode} {m : Fin N → PartyM N d G (EVector ρ n d)} {g : Fin N → G}
    {v w : Vec n d}

namespace Protocol.Correct

theorem ensures_openB (hP : Correct P layout least dataParty Good mode)
    (hm : Ensures mode m g fun z _ _ => SharesB layout z v) :
    Ensures mode (fun i => m i >>= (P i).openSharesB) g fun a _ _ => ∀ i, a i = v :=
  hm.bind fun _ _ _ hz => (hP.openSharesB hz).mono fun _ _ _ => id

theorem ensures_openA (hP : Correct P layout least dataParty Good mode)
    (hm : Ensures mode m g fun z _ _ => SharesA layout z v) :
    Ensures mode (fun i => m i >>= (P i).openSharesA) g fun a _ _ => ∀ i, a i = v :=
  hm.bind fun _ _ _ hz => (hP.openSharesA hz).mono fun _ _ _ => id

/-- **What is shared is what is opened.** -/
theorem opensB_iff [NeZero N] (hP : Correct P layout least dataParty Good mode)
    (hown : ∀ i, OwnedBy i (P i)) (hm : Ensures mode m g fun z _ _ => SharesB layout z v)
    (hmown : ∀ i, Tva.OwnedBy i (m i)) : OpensB P mode m g w ↔ v = w := by
  refine (hP.ensures_openB hm).finishes_iff
    (fun i => (hmown i).bind fun _ => (hown i).openSharesB _) fun b _ hb => ?_
  simp only [hb, forall_const]

theorem opensB (hP : Correct P layout least dataParty Good mode) (hown : ∀ i, OwnedBy i (P i))
    (hm : Ensures mode m g fun z _ _ => SharesB layout z v) (hmown : ∀ i, Tva.OwnedBy i (m i)) :
    OpensB P mode m g v :=
  (hP.ensures_openB hm).finishes fun i => (hmown i).bind fun _ => (hown i).openSharesB _

theorem opensA_iff [NeZero N] (hP : Correct P layout least dataParty Good mode)
    (hown : ∀ i, OwnedBy i (P i)) (hm : Ensures mode m g fun z _ _ => SharesA layout z v)
    (hmown : ∀ i, Tva.OwnedBy i (m i)) : OpensA P mode m g w ↔ v = w := by
  refine (hP.ensures_openA hm).finishes_iff
    (fun i => (hmown i).bind fun _ => (hown i).openSharesA _) fun b _ hb => ?_
  simp only [hb, forall_const]

end Protocol.Correct

end Opens

end Tva
