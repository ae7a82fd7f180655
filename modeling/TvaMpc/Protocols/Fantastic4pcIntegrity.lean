import TvaMpc.Machinery.Adversary
import TvaMpc.Protocols.Fantastic4pcMasks

/-!
# Protocols/Fantastic4pcIntegrity — integrity with abort against one corrupted party

A party of a product, and the receiver of an input, take in two copies of each message, from two
senders.  With one of the senders corrupted the copies differ and the receiver accuses the two, or
they agree and are the right ones.  That needs two masks drawn by the two senders to be the same:
`integrity_product_iff` says which, and for the inputs the common streams provide for it
(`integrity_inp`).
-/

namespace Tva.Fantastic4pc

open Machinery Function

variable {n : ℕ} {d : DataType} {G α : Type}

/-- Party `k` returns `z` in the run in which everybody follows the code. -/
def HonestlyReturns (m : Fin 4 → PartyM 4 d G α) (g : Fin 4 → G) (k : Fin 4) (z : α) : Prop :=
  ∃ s g', Star .buffered (Net.init fun i => (m i).run (g i)) s ∧ s.Terminal .buffered ∧
    s.EndsAt k (.returned (z, g'))

/-- **How an honest party may end**, when `p` is corrupted: it accuses two others with `p` among
them, or it waits for a message of `p` or of a party that exited, or it returns what it returns in
the honest run. -/
def SafeEnd (m : Fin 4 → PartyM 4 d G α) (g : Fin 4 → G) (p : Fin 4)
    (s : Net (Fin 4) (Channel 4) (List (Word d)) Exit (α × G)) (k : Fin 4) : Prop :=
  (∃ a b : ℕ, s.EndsAt k (.exited (.accuses k a b)) ∧ ((p : ℕ) = a ∨ (p : ℕ) = b)) ∨
    (∃ c, s.EndsAt k (.waits c) ∧ (c.source = p ∨ ∃ e, s.EndsAt c.source (.exited e))) ∨
    ∃ z g', s.EndsAt k (.returned (z, g')) ∧ HonestlyReturns m g k z

/-- **Integrity with abort** against party `p`, which sends any vectors of `n` elements, as many as
expected on each channel. -/
def Integrity (m : Fin 4 → PartyM 4 d G α) (g : Fin 4 → G) (n : ℕ)
    (sends : Fin 4 → List (Channel 4)) (p : Fin 4) : Prop :=
  ∀ s, Attacked Channel.source Channel.dest (fun i => (m i).run (g i)) p s →
    SentAsExpected s n (sends p) p → ∀ k, k ≠ p → SafeEnd m g p s k

section Ends

variable {m : Fin 4 → PartyM 4 d G α} {g : Fin 4 → G} {p k : Fin 4}
variable {s : Net (Fin 4) (Channel 4) (List (Word d)) Exit (α × G)}

/-- Accusing two honest parties is not safe. -/
theorem SafeEnd.mem_of_accuses (h : SafeEnd m g p s k) {a b : ℕ}
    (hk : s.EndsAt k (.exited (.accuses k a b))) : (p : ℕ) = a ∨ (p : ℕ) = b := by
  rcases h with ⟨a', b', h, hp⟩ | ⟨c, h, -⟩ | ⟨z, g', h, -⟩
  · cases h.exited_inj hk
    exact hp
  · cases h.exited_inj hk
  · cases h.exited_inj hk

/-- A safe party that returns does so in the honest run. -/
theorem SafeEnd.honestlyReturns (h : SafeEnd m g p s k) {z : α × G}
    (hk : s.EndsAt k (.returned z)) : HonestlyReturns m g k z.1 := by
  rcases h with ⟨a', b', h, hp⟩ | ⟨c, h, -⟩ | ⟨z', g', h, hret⟩
  · cases h.returned_inj hk
  · cases h.returned_inj hk
  · cases h.returned_inj hk
    exact hret

/-- The vectors that an attacker may send: as many as expected. -/
theorem sentAsExpected_of_log {l : List (Channel 4 × List (Word d))}
    (hl : ∀ x ∈ l, x.2.length = n) (hlog : ∀ c : Channel 4, c.source = p → s.log c = msgsOn c l) :
    SentAsExpected s n (l.map Prod.fst) p := fun c hc => by
  rw [hlog c hc]
  exact map_msgsOn c hl

end Ends

/-! ## Products -/

section Products

variable [RandomGenerator G d] {R : WordRing d} {x y : Fin 4 → EVector 3 n d} {u v : Vec n d}
variable {g : Fin 4 → G} {p : Fin 4}

/-- **The masks agree where the messages of two parties are compared**: in the first round, and in
the second by the receivers other than `p`. -/
structure MasksAgree {V : Type} (m : Fin 4 → Masks V) (p : Fin 4) : Prop where
  first (i : Fin 4) : (m i).r12 = (m (i + 1)).r11
  second (k : Fin 4) (hk : k = 2 ∨ k = 3) (hp : k ≠ p) : (m (k + 1)).r2 = (m (k + 3)).r2

theorem exists_gateEnd_of_attacked (hn : 3 ≤ n)
    {s : Net (Fin 4) (Channel 4) (List (Word d)) Exit (EVector 3 n d × G)}
    (hs : Attacked Channel.source Channel.dest (fun i => (R.product i (x i) (y i)).run (g i)) p s)
    (hsent : SentAsExpected s n (gateSends p) p) :
    ∃ w₁ w₂ l, GateEnd R.mul R.add R.sub (· ≠ p) x y g s w₁ w₂ l := by
  obtain ⟨P, howned, hP, hstar, ht⟩ := hs
  exact exists_gateEnd hn howned hP hstar ht fun i hi => not_not.mp hi ▸ hsent

/-- The relative indices of the accused are those of the senders. -/
theorem val_eq_iff (k p : Fin 4) : ((p : ℕ) = (k + 1) % 4 ↔ p = k + 1) ∧
    ((p : ℕ) = (k + 2) % 4 ↔ p = k + 2) ∧ ((p : ℕ) = (k + 3) % 4 ↔ p = k + 3) := by
  decide +revert

/-- The message of the second round. -/
abbrev WordRing.secondOf (R : WordRing d) (x y : Fin 4 → EVector 3 n d) (g : Fin 4 → G)
    (i : Fin 4) : Vec n d :=
  masked R.mul R.add R.sub (x i) (y i) 0 2 (gateMasks d n i (g i)).r2

/-- What a party returns without accusations. -/
abbrev WordRing.honest (R : WordRing d) (x y : Fin 4 → EVector 3 n d) (g : Fin 4 → G) (k : Fin 4) :
    EVector 3 n d :=
  R.output x y (fun i => gateMasks d n i (g i)) k

/-- **With masks that agree, an honest party returns** in the honest run. -/
theorem honestlyReturns_product (hn : 3 ≤ n) (hx : R.SharesIn x u) (hy : R.SharesIn y v)
    (hm : MasksAgree (fun i => gateMasks d n i (g i)) p) {k : Fin 4} (hk : k ≠ p) :
    HonestlyReturns (fun i => R.product i (x i) (y i)) g k (R.honest x y g k) := by
  obtain ⟨s, hs, ht⟩ := exists_terminal .buffered
    (Net.init fun i => (R.product i (x i) (y i)).run (g i))
  obtain ⟨w₁, w₂, l, he⟩ := exists_allEnd hn hs ht
  have hw : ∀ i, w₁ (i + 2) = w₂ (i + 1) := by
    intro i
    rw [he.first trivial, he.hash trivial, WordRing.first_agree_iff hx hy]
    have h := hm.first (i + 1)
    rw [add_one_one] at h
    exact h.symm
  have hl : ∀ i, l i = [R.secondOf x y g i] := fun i => (he.second trivial).trans (if_pos (hw i))
  refine ⟨s, afterGate d n k (g k), hs, ht, ?_⟩
  have hend := he.ends (i := k) trivial
  rw [if_pos (hw k), hl, hl, he.first trivial, secondEnd.eq_def] at hend
  by_cases hk23 : k = 2 ∨ k = 3
  · have hagree : R.secondOf x y g (k + 1) = R.secondOf x y g (k + 3) :=
      (WordRing.second_agree_iff hx hy k _ _).mpr (hm.second k hk23 hk)
    rw [if_pos hk23] at hend
    simp only [if_pos hagree] at hend
    rw [WordRing.honest, WordRing.output, if_pos hk23]
    exact hend
  · rw [if_neg hk23] at hend
    rw [WordRing.honest, WordRing.output, if_neg hk23]
    exact hend

/-! ### An honest party against an attack -/

section Honest

variable {s : Net (Fin 4) (Channel 4) (List (Word d)) Exit (EVector 3 n d × G)}
variable {w₁ w₂ : Fin 4 → Vec n d} {l : Fin 4 → List (Vec n d)}

/-- An honest party that sends nothing in the second round has exited. -/
theorem exited_of_nil (he : GateEnd R.mul R.add R.sub (· ≠ p) x y g s w₁ w₂ l) {i : Fin 4}
    (hi : i ≠ p) (hl : l i = []) : ∃ e, s.EndsAt i (.exited e) := by
  have hw : w₁ (i + 2) ≠ w₂ (i + 1) := fun hw => by
    have h := he.second hi
    rw [if_pos hw, hl] at h
    cases h
  have hend := he.ends hi
  rw [if_neg hw] at hend
  exact ⟨_, hend⟩

/-- What an honest party sends in the second round. -/
theorem second_of_cons (he : GateEnd R.mul R.add R.sub (· ≠ p) x y g s w₁ w₂ l) {i : Fin 4}
    (hi : i ≠ p) {u : Vec n d} {t : List (Vec n d)} (hl : l i = u :: t) :
    u = R.secondOf x y g i := by
  have h := he.second hi
  rw [hl] at h
  split at h
  · exact (List.cons.inj h).1
  · cases h

/-- **Two copies of the first round that agree are right**: one of them is from an honest party. -/
theorem first_of_agree (he : GateEnd R.mul R.add R.sub (· ≠ p) x y g s w₁ w₂ l)
    (hx : R.SharesIn x u) (hy : R.SharesIn y v) (hm : MasksAgree (fun i => gateMasks d n i (g i)) p)
    {k : Fin 4} (hw : w₁ (k + 2) = w₂ (k + 1)) : w₁ (k + 2) = masked R.mul R.add R.sub (x (k + 2))
      (y (k + 2)) 0 1 (gateMasks d n (k + 2) (g (k + 2))).r11 := by
  by_cases hp : k + 2 = p
  · have hne : k + 1 ≠ p := fun e => by
      have h := (add_ne_self (k + 1)).1
      rw [add_one_one] at h
      exact h (hp.trans e.symm)
    have hmask := hm.first (k + 1)
    rw [add_one_one] at hmask
    rw [hw, he.hash hne]
    exact ((WordRing.first_agree_iff hx hy k _ _).mpr hmask.symm).symm
  · exact he.first hp

/-- Copies of the first round that differ are not both from honest parties. -/
theorem mem_of_first_ne (he : GateEnd R.mul R.add R.sub (· ≠ p) x y g s w₁ w₂ l)
    (hx : R.SharesIn x u) (hy : R.SharesIn y v) (hm : MasksAgree (fun i => gateMasks d n i (g i)) p)
    {k : Fin 4} (hw : w₁ (k + 2) ≠ w₂ (k + 1)) : p = k + 2 ∨ p = k + 1 := by
  by_contra hp
  obtain ⟨h₂, h₁⟩ := not_or.mp hp
  have hmask := hm.first (k + 1)
  rw [add_one_one] at hmask
  rw [he.first (Ne.symm h₂), he.hash (Ne.symm h₁), Ne, WordRing.first_agree_iff hx hy] at hw
  exact hw hmask.symm

end Honest

/-- **With masks that agree a product has integrity**: of two copies that a party compares one is
from an honest party, so it accuses the other or goes on with the right message. -/
theorem integrity_of_masksAgree (hn : 3 ≤ n) (hx : R.SharesIn x u) (hy : R.SharesIn y v)
    (hm : MasksAgree (fun i => gateMasks d n i (g i)) p) :
    Integrity (fun i => R.product i (x i) (y i)) g n gateSends p := by
  intro s hs hsent k hk
  obtain ⟨w₁, w₂, l, he⟩ := exists_gateEnd_of_attacked hn hs hsent
  have hret := honestlyReturns_product hn hx hy hm hk
  have hend := he.ends hk
  obtain ⟨e₁, e₂, e₃⟩ := val_eq_iff k p
  by_cases hw : w₁ (k + 2) = w₂ (k + 1)
  swap
  · rw [if_neg hw] at hend
    exact .inl ⟨_, _, hend, (mem_of_first_ne he hx hy hm hw).imp e₂.mpr e₁.mpr⟩
  rw [if_pos hw, first_of_agree he hx hy hm hw, secondEnd.eq_def] at hend
  by_cases hk23 : k = 2 ∨ k = 3
  swap
  · rw [if_neg hk23] at hend
    rw [WordRing.honest, WordRing.output, if_neg hk23] at hret
    exact .inr (.inr ⟨_, _, hend, hret⟩)
  have hagree : R.secondOf x y g (k + 1) = R.secondOf x y g (k + 3) :=
    (WordRing.second_agree_iff hx hy k _ _).mpr (hm.second k hk23 hk)
  have hne : k + 1 ≠ k + 3 := by
    have h := (add_ne_self (k + 1)).2.1
    rw [add_one_two] at h
    exact h.symm
  rw [if_pos hk23] at hend
  rw [WordRing.honest, WordRing.output, if_pos hk23] at hret
  -- a party without a message for `k` is corrupted or has exited
  have hwaits : ∀ j, l j = [] → j = p ∨ ∃ e, s.EndsAt j (.exited e) := fun j hj =>
    or_iff_not_imp_left.mpr fun hjp => exited_of_nil he hjp hj
  cases h₁ : l (k + 1) with
  | nil =>
    rw [h₁] at hend
    exact .inr (.inl ⟨_, hend, hwaits _ h₁⟩)
  | cons a t =>
    cases h₃ : l (k + 3) with
    | nil =>
      rw [h₁, h₃] at hend
      exact .inr (.inl ⟨_, hend, hwaits _ h₃⟩)
    | cons b t' =>
      rw [h₁, h₃] at hend
      dsimp only at hend
      by_cases hab : a = b
      · rw [if_pos hab] at hend
        have ha : a = R.secondOf x y g (k + 1) := by
          by_cases hp : k + 1 = p
          · rw [hab, hagree]
            exact second_of_cons he (fun e => hne (hp.trans e.symm)) h₃
          · exact second_of_cons he hp h₁
        rw [ha] at hend
        exact .inr (.inr ⟨_, _, hend, hret⟩)
      · rw [if_neg hab] at hend
        refine .inl ⟨_, _, hend, ?_⟩
        by_contra hp
        obtain ⟨hp₁, hp₃⟩ := not_or.mp hp
        have ha := second_of_cons he (fun e => hp₁ (e₁.mpr e.symm)) h₁
        have hb := second_of_cons he (fun e => hp₃ (e₃.mpr e.symm)) h₃
        exact hab (ha.trans (hagree.trans hb.symm))

/-! ### An attack without a mistake

The corrupted party sends what the other sender of each message does, so that nobody accuses it. -/

/-- What `p` sends: the other copies of its three messages. -/
def mimicry (R : WordRing d) (x y : Fin 4 → EVector 3 n d) (g : Fin 4 → G) (p : Fin 4) :
    List (Channel 4 × List (Word d)) :=
  [(chan p (p + 2), List.ofFn (masked R.mul R.add R.sub (x (p + 3)) (y (p + 3)) 1 2
      (gateMasks d n (p + 3) (g (p + 3))).r12)),
    (chan p (p + 3), List.ofFn (masked R.mul R.add R.sub (x (p + 1)) (y (p + 1)) 0 1
      (gateMasks d n (p + 1) (g (p + 1))).r11)),
    (chan p (secondTo p), List.ofFn (R.secondOf x y g (p + 2)))]

variable {s : Net (Fin 4) (Channel 4) (List (Word d)) Exit (EVector 3 n d × G)}
variable {w₁ w₂ : Fin 4 → Vec n d} {l : Fin 4 → List (Vec n d)}

/-- The three messages, as the others find them. -/
theorem sent_of_mimicry (he : GateEnd R.mul R.add R.sub (· ≠ p) x y g s w₁ w₂ l)
    (hlog : ∀ c : Channel 4, c.source = p → s.log c = msgsOn c (mimicry R x y g p)) :
    w₁ p = w₂ (p + 3) ∧ w₂ p = w₁ (p + 1) ∧ l p = [R.secondOf x y g (p + 2)] := by
  obtain ⟨h₁, h₂, h₃⟩ := add_ne_self p
  obtain ⟨c₁, c₂, c₃, -⟩ := chan_ne p
  have e₂ := (he.log_two p).symm.trans (hlog _ rfl)
  have e₃ := (he.log_three p).symm.trans (hlog _ rfl)
  have e₁ := (he.log_one p).symm.trans (hlog _ rfl)
  rw [he.hash h₃, he.first h₁]
  rcases secondTo_eq p with ⟨ht, ht'⟩ | ⟨ht, ht'⟩
  · rw [if_pos ht] at e₃
    simp [mimicry, ht, c₁, c₁.symm] at e₂ e₃
    exact ⟨e₂, e₃⟩
  · rw [if_neg ht] at e₃
    rw [if_pos ht'] at e₁
    simp [mimicry, ht', c₁, c₁.symm, c₂, c₂.symm, c₃] at e₁ e₂ e₃
    exact ⟨e₂, e₃, e₁⟩

/-- **Integrity leaves mimicry no effect**: all honest parties return. -/
theorem returned_of_mimicry (he : GateEnd R.mul R.add R.sub (· ≠ p) x y g s w₁ w₂ l)
    (hlog : ∀ c : Channel 4, c.source = p → s.log c = msgsOn c (mimicry R x y g p))
    (hsafe : ∀ k, k ≠ p → SafeEnd (fun i => R.product i (x i) (y i)) g p s k) {k : Fin 4}
    (hk : k ≠ p) : ∃ z, s.EndsAt k (.returned z) := by
  obtain ⟨h₁, h₂, h₃⟩ := sent_of_mimicry he hlog
  obtain ⟨-, n₂, n₃⟩ := add_ne_self p
  have hacc : ∀ k, k ≠ p → ∀ a b, s.EndsAt k (.exited (.accuses k a b)) →
      (p : ℕ) = a ∨ (p : ℕ) = b := fun k hk _ _ h => (hsafe k hk).mem_of_accuses h
  have hw : ∀ k, k ≠ p → w₁ (k + 2) = w₂ (k + 1) := by
    intro k hk
    by_contra hw
    have hend := he.ends hk
    rw [if_neg hw] at hend
    obtain ⟨e₁, e₂, -⟩ := val_eq_iff k p
    rcases hacc k hk _ _ hend with h | h
    · obtain rfl := e₂.mp h
      rw [add_two_three] at h₁
      exact hw h₁
    · obtain rfl := e₁.mp h
      rw [add_one_one] at h₂
      exact hw h₂.symm
  have hl : ∀ k, k ≠ p → l k = [R.secondOf x y g k] := fun k hk =>
    (he.second hk).trans (if_pos (hw k hk))
  have hend := he.ends hk
  rw [if_pos (hw k hk), secondEnd.eq_def] at hend
  by_cases hk23 : k = 2 ∨ k = 3
  swap
  · rw [if_neg hk23] at hend
    exact ⟨_, hend⟩
  rw [if_pos hk23] at hend
  obtain ⟨a, ha⟩ : ∃ a, l (k + 1) = [a] := by
    by_cases hp : k + 1 = p
    · exact ⟨_, hp ▸ h₃⟩
    · exact ⟨_, hl _ hp⟩
  obtain ⟨b, hb⟩ : ∃ b, l (k + 3) = [b] := by
    by_cases hp : k + 3 = p
    · exact ⟨_, hp ▸ h₃⟩
    · exact ⟨_, hl _ hp⟩
  rw [ha, hb] at hend
  dsimp only at hend
  split at hend
  · exact ⟨_, hend⟩
  rename_i hab
  refine absurd (List.cons.inj (ha.symm.trans (Eq.trans ?_ hb))).1 hab
  obtain ⟨e₁, -, e₃⟩ := val_eq_iff k p
  rcases hacc k hk _ _ hend with h | h
  · obtain rfl := e₁.mp h
    have hne : k + 3 ≠ k + 1 := by rwa [add_one_two] at n₂
    rw [h₃, hl _ hne, add_one_two]
  · obtain rfl := e₃.mp h
    have hne : k + 1 ≠ k + 3 := by rwa [add_three_two] at n₂
    rw [h₃, hl _ hne, add_three_two]

/-- The attack can be carried out. -/
theorem exists_mimicry (R : WordRing d) (x y : Fin 4 → EVector 3 n d) (g : Fin 4 → G) (p : Fin 4) :
    ∃ s, Attacked Channel.source Channel.dest (fun i => (R.product i (x i) (y i)).run (g i)) p s ∧
      SentAsExpected s n (gateSends p) p ∧
      ∀ c : Channel 4, c.source = p → s.log c = msgsOn c (mimicry R x y g p) := by
  obtain ⟨s, hs, hlog⟩ := exists_attacked (m := fun i => (R.product i (x i) (y i)).run (g i))
    (p := p) (fun i => ownedBy_gate (x i) (y i) (g i)) (l := mimicry R x y g p)
    (by simp [mimicry, chan]) .truncated
  exact ⟨s, hs, sentAsExpected_of_log (l := mimicry R x y g p) (by simp [mimicry]) hlog, hlog⟩

/-- **A product has integrity only with room for its masks**: without, an honest party writes behind
them. -/
theorem three_le_of_integrity (h : Integrity (fun i => R.product i (x i) (y i)) g n gateSends p) :
    3 ≤ n := by
  by_contra hn
  obtain ⟨s, hs, hsent, -⟩ := exists_mimicry R x y g p
  have hk : p + 1 ≠ p := (add_ne_self p).1
  have hend := (hs.play hk).1
  rw [run_gate_undefined (Nat.not_le.mp hn)] at hend
  have hexit : s.EndsAt (p + 1) (.exited .undefined) := hend
  rcases h s hs hsent _ hk with ⟨a, b, h, -⟩ | ⟨c, h, -⟩ | ⟨z, g', h, -⟩
  · cases h.exited_inj hexit
  · cases h.exited_inj hexit
  · cases h.exited_inj hexit

/-- **A product has integrity only with masks that agree.** -/
theorem masksAgree_of_integrity (hn : 3 ≤ n) (hx : R.SharesIn x u) (hy : R.SharesIn y v)
    (h : Integrity (fun i => R.product i (x i) (y i)) g n gateSends p) :
    MasksAgree (fun i => gateMasks d n i (g i)) p := by
  obtain ⟨s, hs, hsent, hlog⟩ := exists_mimicry R x y g p
  obtain ⟨w₁, w₂, l, he⟩ := exists_gateEnd_of_attacked hn hs hsent
  have hsafe := h s hs hsent
  -- so every honest party returns in the honest run, where it compares honest copies
  have hret : ∀ k, k ≠ p → Compared (fun i => gateMasks d n i (g i)) k := by
    intro k hk
    obtain ⟨z, hz⟩ := returned_of_mimicry he hlog hsafe hk
    obtain ⟨s', g', hs', ht', hk'⟩ := (hsafe k hk).honestlyReturns hz
    exact compared_of_returned hn hx hy hs' ht' hk'
  refine ⟨fun i => ?_, fun k hk23 hk => (hret k hk).second hk23⟩
  by_cases hi : i + 3 = p
  · -- the party that compares them is corrupted, but its message to `secondTo p` tells
    have hto : secondTo p ≠ p := fun e => by
      rcases ((secondTo_eq_iff p p).mp e).2 with e | e
      exacts [(add_ne_self p).1 e.symm, (add_ne_self p).2.2 e.symm]
    obtain ⟨hk23, hp⟩ := (secondTo_eq_iff p _).mp rfl
    have hcomp := hret _ hto
    rcases hp with hp | hp <;> rw [hp] at hi
    · have hi' : i = secondTo p + 2 := by rw [← add_three_one i, hi, add_one_one]
      have h := hcomp.afterOne hk23
      rwa [← hi', ← add_two_one, ← hi'] at h
    · have hi' : i = secondTo p := by rw [← add_three_one i, hi, add_three_one]
      have h := hcomp.afterThree hk23
      rwa [← hi'] at h
  · have hfirst := (hret (i + 3) hi).own
    rwa [add_three_one, add_three_two] at hfirst

/-- **Which masks a product needs for its integrity**, whatever it multiplies. -/
theorem integrity_product_iff (hx : R.SharesIn x u) (hy : R.SharesIn y v) :
    Integrity (fun i => R.product i (x i) (y i)) g n gateSends p ↔
      3 ≤ n ∧ MasksAgree (fun i => gateMasks d n i (g i)) p := by
  refine ⟨fun h => ?_, fun h => integrity_of_masksAgree h.1 hx hy h.2⟩
  have hn := three_le_of_integrity h
  exact ⟨hn, masksAgree_of_integrity hn hx hy h⟩

end Products

/-! ## Inputs -/

section Inputs

variable [RandomGenerator G d] {sub : Vec n d → Vec n d → Vec n d} {x : Fin 4 → Vec n d}
variable {g : Fin 4 → G} {p i : Fin 4}

/-- The channels on which a party sends in an input. -/
def inpSends (i p : Fin 4) : List (Channel 4) :=
  if p = i ∨ p = i + 3 then [chan p (i + 1)] else []

variable {s : Net (Fin 4) (Channel 4) (List (Word d)) Exit (EVector 3 n d × G)}

/-- One message comes from each of the two senders. -/
theorem exists_log_inp (hs : Attacked Channel.source Channel.dest
      (fun k => (inp sub k (x k) i (i + 3) (i + 1) (i + 2)).run (g k)) p s)
    (hsent : SentAsExpected s n (inpSends i p) p) {j : Fin 4} (hj : j = i ∨ j = i + 3) :
    ∃ w, s.log (chan j (i + 1)) = [List.ofFn w] ∧ (j ≠ p → w = inpMessage sub x g i j) := by
  by_cases hjp : j = p
  · subst hjp
    have hlen := hsent (chan j (i + 1)) rfl
    rw [inpSends, if_pos hj, List.count_cons_self, List.count_nil] at hlen
    obtain ⟨vs, hvs, hlog⟩ := exists_vectors hlen
    obtain ⟨w, rfl⟩ := List.length_eq_one_iff.mp hvs
    exact ⟨w, hlog, fun h => absurd rfl h⟩
  · refine ⟨_, ?_, fun _ => rfl⟩
    rw [(hs.play hjp).2 _ rfl, run_inp_sender hj]
    simp [Proc.play, serve]

/-- The receiver compares the two messages. -/
theorem play_inp_one {z w w' : Vec n d} {g : G} {q : Channel 4 → List (List (Word d))}
    {rest rest' : List (List (Word d))} (hw : q (chan i (i + 1)) = List.ofFn w :: rest)
    (hw' : q (chan (i + 3) (i + 1)) = List.ofFn w' :: rest') :
    (((inp sub (i + 1) z i (i + 3) (i + 1) (i + 2)).run g).play q).1 =
      if w' = w then .returned (![w, 0, 0], g)
      else .exited (.accuses ((i + 1 : Fin 4) : ℕ) (((i + 1 : Fin 4) + 3) % 4)
        (((i + 1 : Fin 4) + 2) % 4)) := by
  have hto : partyIndex (i + 1) 3 = i := by rw [partyIndex_three, add_one_three]
  have hto' : partyIndex (i + 1) 2 = i + 3 := by rw [partyIndex_two, add_one_two]
  have hne : chan (i + 3) (i + 1) ≠ chan i (i + 1) := fun e =>
    (roles_ne i).1 (congrArg Channel.source e)
  have h₀ : q (chan (partyIndex (i + 1) 3) (i + 1)) = List.ofFn w :: rest := by rwa [hto]
  have h₁ : update q (chan (partyIndex (i + 1) 3) (i + 1)) rest
      (chan (partyIndex (i + 1) 2) (i + 1)) = List.ofFn w' :: rest' := by
    rwa [hto, hto', update_of_ne hne]
  rw [run_inp_one, play_receiveShares_bind _ h₀, play_receiveShares_bind _ h₁, run_check_bind]
  split <;> rfl

/-- **Inputs have integrity** as soon as the two senders have the same message. -/
theorem integrity_inp (hagree : inpMessage sub x g i i = inpMessage sub x g i (i + 3)) :
    Integrity (fun k => inp sub k (x k) i (i + 3) (i + 1) (i + 2)) g n (inpSends i) p := by
  intro s hs hsent k hk
  obtain ⟨h, hr⟩ := yields_inp i (g := g) (x := x) rfl hagree
  have hret : HonestlyReturns (fun k => inp sub k (x k) i (i + 3) (i + 1) (i + 2)) g k
      (inpOutput i k (inpMask d n i k (g k)).1 (inpMessage sub x g i i)) :=
    ⟨_, _, hr, Net.terminal_returned _ _, rfl⟩
  have hend := (hs.play hk).1
  by_cases hj : k = i ∨ k = i + 3
  · rw [run_inp_sender hj] at hend
    have hm : inpMessage sub x g i k = inpMessage sub x g i i := by
      rcases hj with rfl | rfl
      exacts [rfl, hagree.symm]
    rw [hm] at hend
    exact .inr (.inr ⟨_, _, hend, hret⟩)
  obtain ⟨n31, n1, n13, n2, n23, n21⟩ := roles_ne i
  by_cases hone : k = i + 1
  · subst hone
    obtain ⟨w, hlog, hw⟩ := exists_log_inp hs hsent (.inl rfl)
    obtain ⟨w', hlog', hw'⟩ := exists_log_inp hs hsent (.inr rfl)
    obtain ⟨-, e₂, e₃⟩ := val_eq_iff (i + 1) p
    rw [add_one_two] at e₂
    rw [add_one_three] at e₃
    rw [play_inp_one hlog hlog'] at hend
    rw [inpOutput, if_neg n1, if_neg n13, if_pos rfl] at hret
    by_cases hww : w' = w
    · rw [if_pos hww] at hend
      have hright : w = inpMessage sub x g i i := by
        by_cases hp : i = p
        · rw [hagree, ← hww]
          exact hw' fun e => n31 (e.trans hp.symm)
        · exact hw hp
      rw [hright] at hend
      exact .inr (.inr ⟨_, _, hend, hret⟩)
    · rw [if_neg hww] at hend
      refine .inl ⟨_, _, hend, ?_⟩
      by_contra hp
      obtain ⟨hp₃, hp₂⟩ := not_or.mp hp
      refine hww ((hw' fun e => hp₂ (e₂.mpr e.symm)).trans (hagree.symm.trans ?_))
      exact (hw fun e => hp₃ (e₃.mpr e.symm)).symm
  · obtain rfl : k = i + 2 := ((or_assoc.mpr (eq_role i k)).resolve_left hj).resolve_left hone
    rw [run_inp_two] at hend
    have hmask : inpMask d n i (i + 2) (g (i + 2)) = drawn d n 3 n (g (i + 2)) :=
      (if_neg n2).trans ((if_neg n23).trans (if_pos rfl))
    rw [inpOutput, if_neg n2, if_neg n23, if_neg n21, hmask] at hret
    exact .inr (.inr ⟨_, _, hend, hret⟩)

end Inputs

/-! ## Streams -/

/-- **The blocks agree** that two senders mask the same message with. -/
structure BlocksAgree (n : ℕ) (T : Fin 4 → ℕ → Word d) (p : Fin 4) : Prop where
  first (i : Fin 4) : block n (T i) 1 2 = block n (T (i + 1)) 0 1
  toTwo (hp : p ≠ 2) : block n (T 3) 6 3 = block n (T 1) 8 1
  toThree (hp : p ≠ 3) : block n (T 0) 6 3 = block n (T 2) 6 1

theorem agree_streams_iff (g : Fin 4 → Streams d) (p : Fin 4) :
    MasksAgree (fun i => gateMasks d n i (g i)) p ↔ BlocksAgree n (fun i => (g i).channel n) p := by
  simp only [gateMasks_streams]
  constructor
  · intro h
    refine ⟨h.first, fun hp => ?_, fun hp => ?_⟩
    exacts [h.second 2 (.inl rfl) hp.symm, h.second 3 (.inr rfl) hp.symm]
  · intro h
    refine ⟨h.first, fun k hk hp => ?_⟩
    rcases hk with rfl | rfl
    exacts [h.toTwo hp.symm, h.toThree hp.symm]

/-- The two senders of an input draw one block of a common stream. -/
theorem inpMessage_streams {g : Fin 4 → Streams d} (hg : CommonStreams g)
    {sub : Vec n d → Vec n d → Vec n d} {x : Fin 4 → Vec n d} {i : Fin 4} (hx : x i = x (i + 3)) :
    inpMessage sub x g i i = inpMessage sub x g i (i + 3) := by
  have hself : inpMask d n i i (g i) = drawn d n 1 n (g i) := if_pos rfl
  have hthree : inpMask d n i (i + 3) (g (i + 3)) = drawn d n 2 n (g (i + 3)) :=
    (if_neg (roles_ne i).1).trans (if_pos rfl)
  have hchannel := (hg (i + 3)).1
  rw [add_three_one] at hchannel
  rw [inpMessage, inpMessage, hself, hthree, (drawn_streams 1 n _).1, (drawn_streams 2 n _).1,
    hchannel, hx]

/-- **Integrity of the primitives with four parties** against any one corrupted party `p`: that of
the products needs room for the masks, and depends on the blocks that the parties draw from the
channel numbered by the size; that of the inputs, with the roles in which they are called, only
needs the common streams. -/
theorem primitives_integrity_iff (p : Fin 4) (g : Fin 4 → Streams d)
    {x y x' y' : Fin 4 → EVector 3 n d} {u v u' v' : Vec n d} (hx : SharesA layout x u)
    (hy : SharesA layout y v) (hx' : SharesB layout x' u') (hy' : SharesB layout y' v') :
    (Integrity (fun i => multiplyA i (x i) (y i)) g n gateSends p ↔
      3 ≤ n ∧ BlocksAgree n (fun i => (g i).channel n) p) ∧
    (Integrity (fun i => andB i (x' i) (y' i)) g n gateSends p ↔
      3 ≤ n ∧ BlocksAgree n (fun i => (g i).channel n) p) ∧
    (CommonStreams g → ∀ z : Fin 4 → Vec n d,
      (z 0 = z 3 → Integrity (fun i => inpA i (z i) 0 3 1 2) g n (inpSends 0) p ∧
        Integrity (fun i => inpB i (z i) 0 3 1 2) g n (inpSends 0) p) ∧
      (z 2 = z 1 → Integrity (fun i => inpA i (z i) 2 1 3 0) g n (inpSends 2) p ∧
        Integrity (fun i => inpB i (z i) 2 1 3 0) g n (inpSends 2) p)) :=
  ⟨(integrity_product_iff (R := .arith) hx hy).trans (and_congr_right' (agree_streams_iff g p)),
    (integrity_product_iff (R := .bool) hx' hy').trans (and_congr_right' (agree_streams_iff g p)),
    fun hg _ => ⟨fun hz => ⟨integrity_inp (inpMessage_streams hg hz),
      integrity_inp (inpMessage_streams hg hz)⟩,
      fun hz => ⟨integrity_inp (inpMessage_streams hg hz),
        integrity_inp (inpMessage_streams hg hz)⟩⟩⟩

/-- Products of zeros without masks, and an input of ones, with party `1` corrupted. -/
theorem primitives_integrity_zeros :
    Integrity (fun i => multiplyA i (0 : EVector 3 3 .int8_t) 0) (fun _ => zeros) 3 gateSends 1 ∧
      Integrity (fun i => inpA i (1 : Vec 3 .int8_t) 0 3 1 2) (fun _ => zeros) 3 (inpSends 0)
        1 := by
  have h := primitives_integrity_iff (n := 3) 1 (fun _ => zeros) (WordRing.shares_zero .arith)
    (WordRing.shares_zero .arith) (WordRing.shares_zero .bool) (WordRing.shares_zero .bool)
  refine ⟨h.1.mpr ⟨le_rfl, fun _ => ?_, fun _ => ?_, fun _ => ?_⟩, ((h.2.2 ?_ fun _ => 1).1 rfl).1⟩
  · simp
  · simp
  · simp
  · exact fun _ => ⟨rfl, rfl⟩

/-- With streams of ones, party `1` accuses the honest parties `3` and `2`, whatever `0` does. -/
theorem products_fail_on_ones : CommonStreams (fun _ => ones) ∧
    ¬ Integrity (fun i => multiplyA i (0 : EVector 3 3 .int8_t) 0) (fun _ => ones) 3 gateSends 0 ∧
    ¬ Integrity (fun i => andB i (0 : EVector 3 3 .int8_t) 0) (fun _ => ones) 3 gateSends 0 := by
  have hnot : ¬ MasksAgree (fun i => gateMasks .int8_t 3 i ones) 0 := fun h => by
    have h₁ : (1 : Word .int8_t) = 0 := congrFun (((agree_streams_iff _ _).mp h).first 0) 1
    cases h₁
  refine ⟨fun _ => ⟨rfl, rfl⟩, fun h => hnot ?_, fun h => hnot ?_⟩
  · exact masksAgree_of_integrity le_rfl (WordRing.shares_zero .arith)
      (WordRing.shares_zero .arith) h
  · exact masksAgree_of_integrity le_rfl (WordRing.shares_zero .bool) (WordRing.shares_zero .bool) h

end Tva.Fantastic4pc
