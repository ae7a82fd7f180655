import TvaMpc.Containers.BSharedVector
import TvaMpc.Machinery.Replicated
import TvaMpc.Protocols.Division

/-!
# Protocols/Replicates — everything the parties compute stays replicated

`Protocol.Replicates` is the part of the contract that speaks of the copies of the components only:
from equal copies the primitives make equal copies, whatever they share, unless a division traps.
So do the operators of the shared vectors.  Three parties keep the copies equal with **any**
generators.
-/

namespace Tva

open Machinery

variable {N ρ n least : ℕ} [NeZero ρ] {d : DataType} {G : Type}

/-- Equal copies in both vectors. -/
def ReplicatedPair (layout : Fin N → Fin ρ → Fin N) (z : Fin N → EVector ρ n d × EVector ρ n d) :
    Prop :=
  Replicated layout (fun i => (z i).1) ∧ Replicated layout fun i => (z i).2

/-- **The primitives keep the copies equal**, and openings combine the components. -/
structure Protocol.Replicates (P : Fin N → Protocol N ρ d G) (layout : Fin N → Fin ρ → Fin N)
    (least : ℕ) (dataParty : Fin N → Prop) (Good : (Fin N → G) → Prop) (mode : SendMode) :
    Prop where
  addA {n : ℕ} {x y : Fin N → EVector ρ n d} (hx : Replicated layout x) (hy : Replicated layout y) :
    Replicated layout fun i => (P i).addA (x i) (y i)
  subA {n : ℕ} {x y : Fin N → EVector ρ n d} (hx : Replicated layout x) (hy : Replicated layout y) :
    Replicated layout fun i => (P i).subA (x i) (y i)
  negA {n : ℕ} {x : Fin N → EVector ρ n d} (hx : Replicated layout x) :
    Replicated layout fun i => (P i).negA (x i)
  multiplyA {n : ℕ} {x y : Fin N → EVector ρ n d} (hx : Replicated layout x)
    (hy : Replicated layout y) (hn : least ≤ n) :
    Keeps mode Good (Replicated layout) fun i => (P i).multiplyA (x i) (y i)
  divConstA {n : ℕ} {x : Fin N → EVector ρ n d} (hx : Replicated layout x) (c : Word d) :
    Keeps mode Good (ReplicatedPair layout) (fun i => (P i).divConstA (x i) c) ∨
      Trapped fun i => (P i).divConstA (x i) c
  xorB {n : ℕ} {x y : Fin N → EVector ρ n d} (hx : Replicated layout x) (hy : Replicated layout y) :
    Replicated layout fun i => (P i).xorB (x i) (y i)
  andB {n : ℕ} {x y : Fin N → EVector ρ n d} (hx : Replicated layout x) (hy : Replicated layout y)
    (hn : least ≤ n) :
    Keeps mode Good (Replicated layout) fun i => (P i).andB (x i) (y i)
  notB {n : ℕ} {x : Fin N → EVector ρ n d} (hx : Replicated layout x) :
    Replicated layout fun i => (P i).notB (x i)
  notB1 {n : ℕ} {x : Fin N → EVector ρ n d} (hx : Replicated layout x) :
    Replicated layout fun i => (P i).notB1 (x i)
  ltz {n : ℕ} {x : Fin N → EVector ρ n d} (hx : Replicated layout x) :
    Replicated layout fun i => (P i).ltz (x i)
  b2aBit {n : ℕ} {x : Fin N → EVector ρ n d} (hx : Replicated layout x) :
    Keeps mode Good (Replicated layout) fun i => (P i).b2aBit (x i)
  redistributeSharesB {n : ℕ} {x : Fin N → EVector ρ n d} (hx : Replicated layout x) :
    Keeps mode Good (ReplicatedPair layout) fun i => (P i).redistributeSharesB (x i)
  secretShareA {n : ℕ} {p : Fin N} (hp : dataParty p) (data : Vec n d) :
    Keeps mode Good (Replicated layout) fun i => (P i).secretShareA data p
  secretShareB {n : ℕ} {p : Fin N} (hp : dataParty p) (data : Vec n d) :
    Keeps mode Good (Replicated layout) fun i => (P i).secretShareB data p
  openSharesA {n : ℕ} {x : Fin N → EVector ρ n d} {v : Vec n d} {g : Fin N → G}
    (hx : SharesA layout x v) :
    Ensures mode (fun i => (P i).openSharesA (x i)) g fun a _ _ => ∀ i, a i = v
  openSharesB {n : ℕ} {x : Fin N → EVector ρ n d} {v : Vec n d} {g : Fin N → G}
    (hx : SharesB layout x v) :
    Ensures mode (fun i => (P i).openSharesB (x i)) g fun a _ _ => ∀ i, a i = v

variable {layout : Fin N → Fin ρ → Fin N}

theorem exists_sharesB {x : Fin N → EVector ρ n d} (hx : Replicated layout x) :
    ∃ v, SharesB layout x v :=
  ⟨_, @Replicated.shares N ρ _ layout (Word d) (boolRing d) n x hx⟩

theorem SharesB.isReplicated {x : Fin N → EVector ρ n d} {v : Vec n d} (hx : SharesB layout x v) :
    Replicated layout x :=
  @Shares.replicated (Word d) (boolRing d) N ρ n _ layout x v hx

/-- **A protocol that meets the contract on values keeps the copies equal**, if its negation of bits
and its division do. -/
theorem Protocol.Correct.replicates {P : Fin N → Protocol N ρ d G} {dataParty : Fin N → Prop}
    {Good : (Fin N → G) → Prop} {mode : SendMode} (hP : Correct P layout least dataParty Good mode)
    (notB1 : ∀ {n : ℕ} {x : Fin N → EVector ρ n d}, Replicated layout x →
      Replicated layout fun i => (P i).notB1 (x i))
    (divConstA : ∀ {n : ℕ} {x : Fin N → EVector ρ n d}, Replicated layout x → ∀ c : Word d,
      Keeps mode Good (ReplicatedPair layout) (fun i => (P i).divConstA (x i) c) ∨
        Trapped fun i => (P i).divConstA (x i) c) :
    Replicates P layout least dataParty Good mode where
  addA hx hy := by simp only [hP.addA]; exact hx.map₂ hy (· + ·)
  subA hx hy := by simp only [hP.subA]; exact hx.map₂ hy (· - ·)
  negA hx := by simp only [hP.negA]; exact hx.map (-·)
  multiplyA hx hy hn _ hg := (hP.multiplyA hg hx.shares hy.shares hn).mono fun _ _ _ h =>
    ⟨h.1.isReplicated, h.2⟩
  divConstA := divConstA
  xorB hx hy := by simp only [hP.xorB]; exact hx.map₂ hy (· ^^^ ·)
  andB hx hy hn g hg := by
    obtain ⟨u, hu⟩ := exists_sharesB hx
    obtain ⟨v, hv⟩ := exists_sharesB hy
    exact (hP.andB hg hu hv hn).mono fun _ _ _ h => ⟨SharesB.isReplicated h.1, h.2⟩
  notB hx := by
    obtain ⟨v, hv⟩ := exists_sharesB hx
    exact SharesB.isReplicated (hP.notB hv)
  notB1 := notB1
  ltz hx := by simp only [hP.ltz]; exact hx.map Tva.ltz
  b2aBit hx g hg := by
    obtain ⟨v, hv⟩ := exists_sharesB hx
    exact (hP.b2aBit hg hv).mono fun _ _ _ h => ⟨h.1.isReplicated, h.2⟩
  redistributeSharesB hx g hg :=
    (hP.redistributeSharesB hg hx.shares).mono fun _ _ _ ⟨⟨_, _, h₁, h₂, _⟩, hg'⟩ =>
      ⟨⟨SharesB.isReplicated h₁, SharesB.isReplicated h₂⟩, hg'⟩
  secretShareA hp _ g hg := (hP.secretShareA hp hg).mono fun _ _ _ h => ⟨h.1.isReplicated, h.2⟩
  secretShareB hp _ g hg := (hP.secretShareB hp hg).mono fun _ _ _ h =>
    ⟨SharesB.isReplicated h.1, h.2⟩
  openSharesA := hP.openSharesA
  openSharesB := hP.openSharesB

/-! ## The operators of the shared vectors -/

namespace Protocol.Replicates

variable {P : Fin N → Protocol N ρ d G} {dataParty : Fin N → Prop} {Good : (Fin N → G) → Prop}
variable {mode : SendMode} {x y : Fin N → EVector ρ n d}

section Operators

variable (hP : Replicates P layout least dataParty Good mode)
include hP

theorem or (hx : Replicated layout x) (hy : Replicated layout y) (hn : least ≤ n) :
    Keeps mode Good (Replicated layout) fun i => (P i).or (x i) (y i) :=
  (hP.andB (hP.notB hx) (hP.notB hy) hn).bind fun _ hz => .pure (hP.notB hz)

theorem prefixSum {gp gp' : Fin N → EVector ρ n d × EVector ρ n d} (h : ReplicatedPair layout gp)
    (h' : ReplicatedPair layout gp') (hn : least ≤ n) :
    Keeps mode Good (ReplicatedPair layout) fun i => (P i).prefixSum (gp i) (gp' i) :=
  (hP.andB h.2 h'.1 hn).bind fun _ hcarry => (hP.or h.1 hcarry hn).bind fun _ hout =>
    (hP.andB h.2 h'.2 hn).bind fun _ hpout => .pure ⟨hout, hpout⟩

theorem parallelPrefixAdder (hx : Replicated layout x) (hy : Replicated layout y)
    (hn : least ≤ n) :
    Keeps mode Good (Replicated layout) fun i => (P i).parallelPrefixAdder (x i) (y i) := by
  refine (hP.andB hx hy hn).bind fun gen hgen => ?_
  refine (Keeps.foldlM (R := ReplicatedPair layout) _ ⟨hgen, hP.xorB hx hy⟩ ?_).bind fun res hres =>
    .pure (hP.xorB (hP.xorB hx hy) (hres.1.map (bitLeftShift 1)))
  exact fun l _ gp hgp => hP.prefixSum hgp
    ⟨hgp.1.map (reverseBitLevelShift l), hgp.2.map (reverseBitLevelShift l)⟩ hn

theorem a2b (hx : Replicated layout x) (hn : least ≤ n) :
    Keeps mode Good (Replicated layout) fun i => (P i).a2b (x i) :=
  (hP.redistributeSharesB hx).bind fun _ hz => hP.parallelPrefixAdder hz.1 hz.2 hn

/-- A division traps at once, or it keeps the copies equal. -/
theorem div (hx : Replicated layout x) (c : Word d) (hn : least ≤ n) :
    Keeps mode Good (Replicated layout) (fun i => (P i).div (x i) c) ∨
      Trapped fun i => (P i).div (x i) c := by
  refine (hP.divConstA hx c).imp (fun hkeeps => ?_) fun htraps => htraps.bind _
  exact hkeeps.bind fun _ hout => (hP.a2b hout.2 hn).bind fun _ hberr =>
    (hP.b2aBit (hP.notB1 (hP.ltz hberr))).bind fun _ hcor => .pure (hP.addA hout.1 hcor)

theorem bitSame (hx : Replicated layout x) (hy : Replicated layout y)
    (hn : least ≤ n) :
    Keeps mode Good (Replicated layout) fun i => (P i).bitSame (x i) (y i) :=
  Keeps.foldlM _ (hP.notB (hP.xorB hx hy)) fun l _ _ hsame =>
    hP.andB (hsame.map (bitLevelShift l)) hsame hn

theorem eq (hx : Replicated layout x) (hy : Replicated layout y)
    (hn : least ≤ n) :
    Keeps mode Good (Replicated layout) fun i => (P i).eq (x i) (y i) :=
  (hP.bitSame hx hy hn).bind fun _ hz => .pure (hz.map (mask 1))

theorem ne (hx : Replicated layout x) (hy : Replicated layout y)
    (hn : least ≤ n) :
    Keeps mode Good (Replicated layout) fun i => (P i).ne (x i) (y i) :=
  (hP.eq hx hy hn).bind fun _ hz => .pure (hP.notB1 hz)

theorem treatSigns {res : Fin N → EVector ρ n d} (hx : Replicated layout x)
    (hy : Replicated layout y) (hres : Replicated layout res) (hn : least ≤ n) :
    Keeps mode Good (Replicated layout) fun i => (P i).treatSigns (x i) (y i) (res i) := by
  have hsign := hy.map (bitRightShift d.digits)
  have hdiffs := hP.xorB (hx.map (bitRightShift d.digits)) hsign
  exact (hP.andB hdiffs hsign hn).bind fun _ hdifferent =>
    (hP.andB (hP.notB1 hdiffs) hres hn).bind fun _ hsame => .pure (hP.xorB hdifferent hsame)

theorem gt (hx : Replicated layout x) (hy : Replicated layout y)
    (hn : least ≤ n) :
    Keeps mode Good (Replicated layout) fun i => (P i).gt (x i) (y i) :=
  (hP.bitSame hx hy hn).bind fun _ hsame =>
    (hP.andB (hsame.map (bitRightShift 1)) (hP.notB hsame) hn).bind fun _ hedge =>
      (hP.andB hedge hx hn).bind fun _ hbit => hP.treatSigns hx hy (hbit.map bitXor) hn

theorem ge (hx : Replicated layout x) (hy : Replicated layout y)
    (hn : least ≤ n) :
    Keeps mode Good (Replicated layout) fun i => (P i).ge (x i) (y i) :=
  (hP.gt hy hx hn).bind fun _ hz => .pure (hP.notB1 hz)

theorem le (hx : Replicated layout x) (hy : Replicated layout y)
    (hn : least ≤ n) :
    Keeps mode Good (Replicated layout) fun i => (P i).le (x i) (y i) :=
  (hP.gt hx hy hn).bind fun _ hz => .pure (hP.notB1 hz)

end Operators

end Protocol.Replicates

end Tva

/-! ## Three parties -/

namespace Tva.Replicated3pc

open Machinery

variable {n : ℕ} {d : DataType} {G : Type} [RandomGenerator G d] {mode : SendMode}

theorem replicated_of {α : Type*} {x : Fin 3 → Fin 2 → α} (h : ∀ i, x i 1 = x (i - 1) 0) :
    Replicated layout x := by
  intro i k
  fin_cases k
  exacts [rfl, h i]

/-- Everybody has its own component and the predecessor's. -/
theorem replicated_turn {α : Type*} (z : Fin 3 → α) : Replicated layout fun i =>
    ![z i, z (i - 1)] :=
  replicated_of fun _ => rfl

theorem replicated_freshShares (rest : Vec n d → Vec n d → Vec n d → Vec n d) (data : Vec n d)
    (g : G) (p : Fin 3) : Replicated layout fun i => freshShares rest data g (i - p) := by
  refine replicated_of fun i => ?_
  fin_cases p <;> fin_cases i <;> rfl

theorem lowBit_bitShare (x : Fin 3 → EVector 2 n d) (i : Fin 3) :
    lowBit (bitShare x i) = bitShare x i :=
  funext fun _ => (BitVec.and_assoc ..).trans (congrArg _ (BitVec.and_self ..))

theorem keeps_gate (id : ℕ) (cross : EVector 2 n d → EVector 2 n d → Vec n d → Vec n d)
    (x y : Fin 3 → EVector 2 n d) :
    Keeps mode (fun _ : Fin 3 → G => True) (Replicated layout) fun i =>
    gate id cross i (x i) (y i) :=
  fun _ _ => .of_yields (yields_gate id cross x y) ⟨replicated_turn _, trivial⟩

theorem keeps_multiplyA (x y : Fin 3 → EVector 2 n d) :
    Keeps mode (fun _ : Fin 3 → G => True) (Replicated layout) fun i =>
      multiplyA i (x i) (y i) := by
  simp only [multiplyA]
  exact keeps_gate 2 _ x y

theorem keeps_andB (x y : Fin 3 → EVector 2 n d) :
    Keeps mode (fun _ : Fin 3 → G => True) (Replicated layout) fun i => andB i (x i) (y i) := by
  simp only [andB]
  exact keeps_gate 5 _ x y

theorem trapped_divConstA {x : Fin 3 → EVector 2 n d} {c : Word d}
    (h : ¬∀ i, Divides i (x i) c) : Trapped (G := G) fun i => divConstA i (x i) c := by
  obtain ⟨i, hi⟩ := not_forall.mp h
  have hlocal : Trapped (G := G) fun i => divConstLocal i (x i) c :=
    ⟨i, fun g => run_divConstLocal_trap hi g⟩
  exact hlocal.bind _

theorem keeps_divConstA (x : Fin 3 → EVector 2 n d) (c : Word d) :
    Keeps mode (fun _ : Fin 3 → G => True) (ReplicatedPair layout) (fun i =>
      divConstA i (x i) c) ∨ Trapped (G := G) fun i => divConstA i (x i) c := by
  by_cases hdivides : ∀ i, Divides i (x i) c
  · refine .inl fun g _ => ?_
    obtain ⟨h, hy⟩ := yields_divConstA mode g hdivides
    exact .of_yields hy ⟨⟨replicated_turn _, replicated_turn _⟩, trivial⟩
  · exact .inr (trapped_divConstA hdivides)

theorem keeps_secretShare (rest : Vec n d → Vec n d → Vec n d → Vec n d) (data : Fin 3 → Vec n d)
    (p : Fin 3) : Keeps mode (fun _ : Fin 3 → G => True) (Replicated layout) fun i =>
      secretShare (getShares rest) i (data i) p :=
  fun g _ => .of_yields (yields_secretShare_fresh rest data p)
    ⟨replicated_freshShares rest (data p) (g p) p, trivial⟩

theorem keeps_redistributeSharesB (x : Fin 3 → EVector 2 n d) :
    Keeps mode (fun _ : Fin 3 → G => True) (ReplicatedPair layout) fun i =>
      redistributeSharesB i (x i) :=
  (keeps_secretShare restB (fun i => x i 0 + x i 1) 0).bind fun _ h₁ =>
    (keeps_secretShare restB (fun i => x i 0) 1).bind fun _ h₂ => .pure ⟨h₁, h₂⟩

omit [RandomGenerator G d] in
theorem keeps_b2aBit (x : Fin 3 → EVector 2 n d) :
    Keeps mode (fun _ : Fin 3 → G => True) (Replicated layout) fun i => b2aBit i (x i) := by
  intro g _
  obtain ⟨h, hy⟩ := yields_b2aBit mode g x
  refine .of_yields hy ⟨?_, trivial⟩
  simp only [simpleBitDecompress_self, simpleBitDecompress_compress, lowBit_bitShare]
  exact replicated_turn _

/-- **Three parties keep the copies equal**, whatever their generators draw. -/
theorem replicates :
    Protocol.Replicates (protocol d G) layout 0 (fun _ => True) (fun _ => True) mode where
  addA hx hy := replicated_of fun i => congrArg₂ (· + ·) (hx i 1) (hy i 1)
  subA hx hy := replicated_of fun i => congrArg₂ (· - ·) (hx i 1) (hy i 1)
  negA hx := replicated_of fun i => congrArg (-·) (hx i 1)
  multiplyA {_ x y} _ _ _ := keeps_multiplyA x y
  divConstA _ c := keeps_divConstA _ c
  xorB hx hy := replicated_of fun i => congrArg₂ (· ^^^ ·) (hx i 1) (hy i 1)
  andB {_ x y} _ _ _ := keeps_andB x y
  notB hx := replicated_of fun i => congrArg (~~~·) (hx i 1)
  notB1 hx := replicated_of fun i => congrArg logicalNot (hx i 1)
  ltz hx := replicated_of fun i => congrArg Tva.ltz (hx i 1)
  b2aBit _ := keeps_b2aBit _
  redistributeSharesB _ := keeps_redistributeSharesB _
  secretShareA {_ p} _ data := keeps_secretShare restA (fun _ => data) p
  secretShareB {_ p} _ data := keeps_secretShare restB (fun _ => data) p
  openSharesA := ensures_openSharesA
  openSharesB := ensures_openSharesB

end Tva.Replicated3pc

/-! ## Four parties -/

namespace Tva.Fantastic4pc

open Machinery

variable {n : ℕ} {d : DataType} {G : Type} [RandomGenerator G d] {Good : G → Prop}

omit [RandomGenerator G d] in
theorem replicated_notB1 {x : Fin 4 → EVector 3 n d} (hx : Machinery.Replicated layout x) :
    Machinery.Replicated layout fun i => notB1 i (x i) := by
  intro i k
  have hik := hx i k
  fin_cases i <;> fin_cases k
  exacts [rfl, hik, congrArg logicalNot hik, rfl, congrArg logicalNot hik, hik, rfl, hik, hik, rfl,
    hik, hik]

theorem trapped_divConstA {x : Fin 4 → EVector 3 n d} {c : Word d}
    (h : ¬∀ i, Divisible (dividend i (x i)) c) : Trapped (G := G) fun i => divConstA i (x i) c := by
  obtain ⟨i, hi⟩ := not_forall.mp h
  have hlocal : Trapped (G := G) fun i => divConstLocal i (x i) c :=
    ⟨i, fun g => run_divConstLocal_trap hi g⟩
  exact hlocal.bind _

/-- **Four parties keep the copies equal**, without masks. -/
theorem replicates (hz : ZeroMasks d Good) :
    Protocol.Replicates (protocol d G) layout 3 (· = 0) (fun g => ∀ i, Good (g i)) .buffered := by
  refine (correct hz).replicates replicated_notB1 fun {n x} hx c => ?_
  by_cases hd : ∀ i, Divisible (dividend i (x i)) c
  · exact .inl fun _ hg => (ensures_divConstA hz hg hx.shares c hd).mono fun _ _ _ h =>
      ⟨⟨h.1.isReplicated, h.2.1.isReplicated⟩, h.2.2⟩
  · exact .inr (trapped_divConstA hd)

end Tva.Fantastic4pc
