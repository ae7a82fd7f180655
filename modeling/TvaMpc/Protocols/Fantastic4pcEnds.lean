import TvaMpc.Protocols.Fantastic4pcRounds

/-!
# Protocols/Fantastic4pcEnds — how a product ends, whoever keeps to the code

`exists_gateEnd` describes every terminal state of a product with buffered sends, in which some of
the parties run the code and the others send anything, in the number and the lengths expected of
them.  It names what went over each channel, and where each party that runs the code ends.
-/

namespace Tva.Fantastic4pc

open Machinery Function

variable {n : ℕ} {d : DataType} {G : Type} [RandomGenerator G d]
variable {mul add sub : Vec n d → Vec n d → Vec n d}

/-! ## Ownership -/

section Ownership

variable {i : Fin 4}

omit [RandomGenerator G d] in
theorem ownedBy_check (k a b : ℕ) (v w : Vec n d) : OwnedBy (G := G) i (check k a b v w) := by
  rw [check]
  split
  · exact .pure _
  · exact .lift trivial

theorem ownedBy_gateSecond (x y : EVector 3 n d) :
    OwnedBy (G := G) i (gateSecond mul add sub i x y) := by
  have hthird : OwnedBy (G := G) i (drawThird (n := n) (d := d) i) := by
    rw [drawThird]
    split
    · exact ownedBy_getMultipleNext _ _
    · exact .pure _
  have hsend : OwnedBy (G := G) i (sendSecond mul add sub i x y) := by
    rw [sendSecond]
    split <;> exact (ownedBy_getMultipleNext _ _).bind fun _ =>
      (ownedBy_sendShares _ _ _).bind fun _ => .pure _
  have hreceive : OwnedBy (G := G) i (receiveSecond (n := n) (d := d) i) := by
    rw [receiveSecond]
    split
    · exact (ownedBy_receiveShares _ _).bind fun _ => (ownedBy_receiveShares _ _).bind fun _ =>
        (ownedBy_check _ _ _ _ _).bind fun _ => .pure _
    · exact .pure _
  exact hthird.bind fun _ => hsend.bind fun _ => hreceive.bind fun _ => .pure _

theorem ownedBy_gate (x y : EVector 3 n d) : OwnedBy (G := G) i (gate mul add sub i x y) :=
  (ownedBy_getMultipleNext _ _).bind fun _ => (ownedBy_getMultipleNext _ _).bind fun _ =>
    (ownedBy_getMultipleNext _ _).bind fun _ => (ownedBy_exchangeShares _ _ _ _).bind fun _ =>
    (ownedBy_exchangeShares _ _ _ _).bind fun _ => (ownedBy_check _ _ _ _ _).bind fun _ =>
    (ownedBy_gateSecond x y).bind fun _ => .pure _

end Ownership

/-! ## The end of a product -/

/-- The channels on which a party sends in a product, in order. -/
def gateSends (p : Fin 4) : List (Channel 4) :=
  [chan p (p + 2), chan p (p + 3), chan p (secondTo p)]

/-- Party `p` has sent as many messages on each channel as it is expected to, with `n` elements
each. -/
def SentAsExpected {β : Type} (s : Net (Fin 4) (Channel 4) (List (Word d)) Exit β) (n : ℕ)
    (sends : List (Channel 4)) (p : Fin 4) : Prop :=
  ∀ c, c.source = p → (s.log c).map List.length = List.replicate (sends.count c) n

/-- **The end of a product**: party `i` sent `w₁ i` and `w₂ i` in the first round and `l i` in the
second; the parties in `H` run the code. -/
structure GateEnd (mul add sub : Vec n d → Vec n d → Vec n d) (H : Fin 4 → Prop)
    (x y : Fin 4 → EVector 3 n d) (g : Fin 4 → G)
    (s : Net (Fin 4) (Channel 4) (List (Word d)) Exit (EVector 3 n d × G))
    (w₁ w₂ : Fin 4 → Vec n d) (l : Fin 4 → List (Vec n d)) : Prop where
  log_two (i : Fin 4) : s.log (chan i (i + 2)) = [List.ofFn (w₁ i)]
  log_three (i : Fin 4) : s.log (chan i (i + 3))
    = List.ofFn (w₂ i) :: if secondTo i = i + 3 then (l i).map List.ofFn else []
  log_one (i : Fin 4) : s.log (chan i (i + 1))
    = if secondTo i = i + 1 then (l i).map List.ofFn else []
  log_rest {c : Channel 4} (hc : c ∉ gateSends c.source) : s.log c = []
  first {i : Fin 4} (hi : H i) :
    w₁ i = masked mul add sub (x i) (y i) 0 1 (gateMasks d n i (g i)).r11
  hash {i : Fin 4} (hi : H i) :
    w₂ i = masked mul add sub (x i) (y i) 1 2 (gateMasks d n i (g i)).r12
  second {i : Fin 4} (hi : H i) : l i = if w₁ (i + 2) = w₂ (i + 1) then
    [masked mul add sub (x i) (y i) 0 2 (gateMasks d n i (g i)).r2] else []
  corrupted {i : Fin 4} (hi : ¬ H i) : (l i).length = 1
  ends {i : Fin 4} (hi : H i) : s.EndsAt i (if w₁ (i + 2) = w₂ (i + 1) then
    secondEnd i (fun u =>
      (gateOutput mul add sub i (x i) (y i) (gateMasks d n i (g i)) (w₁ (i + 2)) u,
      afterGate d n i (g i))) (l (i + 1)) (l (i + 3))
    else .exited (.accuses i ((i + 2) % 4) ((i + 1) % 4)))

section Ends

variable {H : Fin 4 → Prop} {x y : Fin 4 → EVector 3 n d} {g : Fin 4 → G}
variable {P : Fin 4 → Proc (Channel 4) (List (Word d)) Exit (EVector 3 n d × G)}
variable {s : Net (Fin 4) (Channel 4) (List (Word d)) Exit (EVector 3 n d × G)}

/-- The three channels of a sender. -/
theorem chan_ne (i : Fin 4) : chan i (i + 3) ≠ chan i (i + 2) ∧ chan i (i + 1) ≠ chan i (i + 2) ∧
    chan i (i + 1) ≠ chan i (i + 3) ∧ chan i (secondTo i) ≠ chan i (i + 2) := by
  decide +revert

theorem count_gateSends (i : Fin 4) : (gateSends i).count (chan i (i + 2)) = 1 ∧
    (gateSends i).count (chan i (i + 3)) = (if secondTo i = i + 3 then 2 else 1) ∧
    (gateSends i).count (chan i (i + 1)) = if secondTo i = i + 1 then 1 else 0 := by
  decide +revert

/-! ### A party that runs the code -/

section Honest

variable (hn : 3 ≤ n) (i : Fin 4) (u v : EVector 3 n d) (k : G)
include hn

variable (mul add sub) in
/-- What it has posted, when something came in its first exchange. -/
theorem exists_posts {q : Channel 4 → List (List (Word d))} {w : Vec n d}
    {rest : List (List (Word d))} (hw : q (chan (i + 2) i) = List.ofFn w :: rest) :
    ∃ l : List (Vec n d), (l = [] ∨ l = [masked mul add sub u v 0 2 (gateMasks d n i k).r2]) ∧
      (((gate mul add sub i u v).run k).play q).2 = firstPosts mul add sub i u v (gateMasks d n i k)
        ++ l.map fun m => (chan i (secondTo i), List.ofFn m) := by
  obtain ⟨t, ht⟩ := exists_play_gate_of_first mul add sub hn i u v k hw
  have hpre := posts_gate mul add sub hn i u v k q
  rw [ht] at hpre
  rcases List.prefix_cons_iff.mp ((List.prefix_append_right_inj _).mp hpre) with rfl | ⟨t, rfl, h⟩
  · exact ⟨[], .inl rfl, ht⟩
  · obtain rfl := List.prefix_nil.mp h
    exact ⟨_, .inr rfl, ht⟩

/-- Its first message is there in any case. -/
theorem msgsOn_two (q : Channel 4 → List (List (Word d))) :
    msgsOn (chan i (i + 2)) (((gate mul add sub i u v).run k).play q).2
      = [List.ofFn (masked mul add sub u v 0 1 (gateMasks d n i k).r11)] := by
  obtain ⟨t, hplay⟩ := exists_play_gate mul add sub hn i u v k q
  have hpre := posts_gate mul add sub hn i u v k q
  rw [hplay, firstPosts, List.cons_append, List.cons_prefix_cons] at hpre
  have hnil : msgsOn (chan i (i + 2)) t = [] := msgsOn_eq_nil fun z hz => by
    have hz' := hpre.2.subset hz
    simp only [List.cons_append, List.nil_append, List.mem_cons, List.not_mem_nil, or_false,
      secondPost] at hz'
    rcases hz' with rfl | rfl
    exacts [(chan_ne i).1, (chan_ne i).2.2.2]
  rw [hplay, msgsOn_cons, if_pos rfl, hnil]
  rfl

/-- It writes to its three channels only. -/
theorem msgsOn_rest {c : Channel 4} (q : Channel 4 → List (List (Word d))) (hc : c ∉ gateSends i) :
    msgsOn c (((gate mul add sub i u v).run k).play q).2 = [] := by
  refine msgsOn_eq_nil fun z hz e => hc ?_
  have hz' := (posts_gate mul add sub hn i u v k q).subset hz
  simp only [firstPosts, secondPost, List.cons_append, List.nil_append, List.mem_cons,
    List.not_mem_nil, or_false] at hz'
  rcases hz' with rfl | rfl | rfl <;> simp [gateSends, ← e]

end Honest

/-! ### A party that sends anything -/

section Corrupted

variable {i : Fin 4} (hsent : SentAsExpected s n (gateSends i) i)
include hsent

omit [RandomGenerator G d]

theorem SentAsExpected.exists_two : ∃ w : Vec n d, s.log (chan i (i + 2)) = [List.ofFn w] := by
  have hlen := hsent (chan i (i + 2)) rfl
  rw [(count_gateSends i).1] at hlen
  obtain ⟨vs, hvs, hlog⟩ := exists_vectors hlen
  obtain ⟨w, rfl⟩ := List.length_eq_one_iff.mp hvs
  exact ⟨w, hlog⟩

/-- The message of the second round goes to one side or the other. -/
theorem SentAsExpected.exists_rest : ∃ w v : Vec n d,
    s.log (chan i (i + 3)) = List.ofFn w :: (if secondTo i = i + 3 then [List.ofFn v] else []) ∧
      s.log (chan i (i + 1)) = if secondTo i = i + 1 then [List.ofFn v] else [] := by
  have hthree := hsent (chan i (i + 3)) rfl
  have hone := hsent (chan i (i + 1)) rfl
  rw [(count_gateSends i).2.1] at hthree
  rw [(count_gateSends i).2.2] at hone
  obtain ⟨vs, hvs, hvs'⟩ := exists_vectors hthree
  obtain ⟨us, hus, hus'⟩ := exists_vectors hone
  rcases secondTo_eq i with ⟨h₃, h₁⟩ | ⟨h₃, h₁⟩
  · rw [if_pos h₃] at hvs
    rw [if_neg h₁] at hus
    obtain ⟨w, v, rfl⟩ := List.length_eq_two.mp hvs
    obtain rfl := List.length_eq_zero_iff.mp hus
    refine ⟨w, v, ?_, ?_⟩
    · rw [if_pos h₃]
      exact hvs'
    · rw [if_neg h₁]
      exact hus'
  · rw [if_neg h₃] at hvs
    rw [if_pos h₁] at hus
    obtain ⟨w, rfl⟩ := List.length_eq_one_iff.mp hvs
    obtain ⟨v, rfl⟩ := List.length_eq_one_iff.mp hus
    refine ⟨w, v, ?_, ?_⟩
    · rw [if_neg h₃]
      exact hvs'
    · rw [if_pos h₁]
      exact hus'

end Corrupted

/-! ### All parties -/

section All

variable (hn : 3 ≤ n) (hP : ∀ i, H i → P i = (gate mul add sub i (x i) (y i)).run (g i))
  (hlog : ∀ c, s.log c = msgsOn c ((P c.source).play s.log).2)
  (hsent : ∀ i, ¬ H i → SentAsExpected s n (gateSends i) i)
include hn hP hlog hsent

/-- The first messages are there in any case. -/
theorem exists_firsts : ∃ w₁ : Fin 4 → Vec n d, ∀ i, s.log (chan i (i + 2)) = [List.ofFn (w₁ i)] ∧
    (H i → w₁ i = masked mul add sub (x i) (y i) 0 1 (gateMasks d n i (g i)).r11) := by
  have hfirst : ∀ i, ∃ w, s.log (chan i (i + 2)) = [List.ofFn w] ∧
      (H i → w = masked mul add sub (x i) (y i) 0 1 (gateMasks d n i (g i)).r11) := by
    intro i
    by_cases hi : H i
    · refine ⟨_, ?_, fun _ => rfl⟩
      have h := hlog (chan i (i + 2))
      rwa [show (chan i (i + 2)).source = i from rfl, hP i hi, msgsOn_two hn] at h
    · obtain ⟨w, hw⟩ := (hsent i hi).exists_two
      exact ⟨w, hw, fun h => absurd h hi⟩
  choose w₁ hw₁ using hfirst
  exact ⟨w₁, hw₁⟩

/-- So everybody gets to the second exchange, and on to the second round or not. -/
theorem exists_rests {w₁ : Fin 4 → Vec n d}
    (hw₁ : ∀ i, s.log (chan i (i + 2)) = [List.ofFn (w₁ i)]) :
    ∃ (w₂ : Fin 4 → Vec n d) (l : Fin 4 → List (Vec n d)), ∀ i,
      s.log (chan i (i + 3))
        = List.ofFn (w₂ i) :: (if secondTo i = i + 3 then (l i).map List.ofFn else []) ∧
      s.log (chan i (i + 1)) = (if secondTo i = i + 1 then (l i).map List.ofFn else []) ∧
      (¬ H i → (l i).length = 1) ∧
      (H i → w₂ i = masked mul add sub (x i) (y i) 1 2 (gateMasks d n i (g i)).r12 ∧
        (l i = [] ∨ l i = [masked mul add sub (x i) (y i) 0 2 (gateMasks d n i (g i)).r2]) ∧
        ((P i).play s.log).2 = firstPosts mul add sub i (x i) (y i) (gateMasks d n i (g i))
          ++ (l i).map fun v => (chan i (secondTo i), List.ofFn v)) := by
  have hrest : ∀ i, ∃ w l, s.log (chan i (i + 3))
        = List.ofFn w :: (if secondTo i = i + 3 then l.map List.ofFn else []) ∧
      s.log (chan i (i + 1)) = (if secondTo i = i + 1 then l.map List.ofFn else []) ∧
      (¬ H i → l.length = 1) ∧
      (H i → w = masked mul add sub (x i) (y i) 1 2 (gateMasks d n i (g i)).r12 ∧
        (l = [] ∨ l = [masked mul add sub (x i) (y i) 0 2 (gateMasks d n i (g i)).r2]) ∧
        ((P i).play s.log).2 = firstPosts mul add sub i (x i) (y i) (gateMasks d n i (g i))
          ++ l.map fun v => (chan i (secondTo i), List.ofFn v)) := by
    intro i
    by_cases hi : H i
    · have hin : s.log (chan (i + 2) i) = [List.ofFn (w₁ (i + 2))] := by
        have h := hw₁ (i + 2)
        rwa [add_two_two] at h
      obtain ⟨l, hl, hpost⟩ := exists_posts mul add sub hn i (x i) (y i) (g i) hin
      have hlog' : ∀ j, s.log (chan i j) = msgsOn (chan i j) ((P i).play s.log).2 := fun j => hlog _
      refine ⟨_, l, ?_, ?_, fun h => absurd hi h, fun _ => ⟨rfl, hl, by rw [hP i hi, hpost]⟩⟩
      · rw [hlog', hP i hi, hpost, msgsOn_append, msgsOn_map]
        simp [firstPosts]
      · rw [hlog', hP i hi, hpost, msgsOn_append, msgsOn_map]
        simp [firstPosts]
    · obtain ⟨w, v, hthree, hone⟩ := (hsent i hi).exists_rest
      exact ⟨w, [v], hthree, hone, fun _ => rfl, fun h => absurd h hi⟩
  choose w₂ l h using hrest
  exact ⟨w₂, l, h⟩

theorem log_eq_nil {c : Channel 4} (hc : c ∉ gateSends c.source) : s.log c = [] := by
  by_cases hi : H c.source
  · rw [hlog, hP _ hi, msgsOn_rest hn _ _ _ _ _ hc]
  · have hlen := hsent _ hi c rfl
    rw [List.count_eq_zero_of_not_mem hc, List.replicate_zero] at hlen
    exact List.map_eq_nil_iff.mp hlen

end All

/-- What the parties that run the code do with the messages of the others. -/
theorem play_gate_of_log (hn : 3 ≤ n) {w₁ w₂ : Fin 4 → Vec n d} {l : Fin 4 → List (Vec n d)}
    (hw₁ : ∀ i, s.log (chan i (i + 2)) = [List.ofFn (w₁ i)])
    (hthree : ∀ i, s.log (chan i (i + 3))
      = List.ofFn (w₂ i) :: (if secondTo i = i + 3 then (l i).map List.ofFn else []))
    (hone : ∀ i, s.log (chan i (i + 1)) = if secondTo i = i + 1 then (l i).map List.ofFn else [])
    (i : Fin 4) (u v : EVector 3 n d) (k : G) :
    ((gate mul add sub i u v).run k).play s.log = if w₁ (i + 2) = w₂ (i + 1) then
      (secondEnd i (fun z => (gateOutput mul add sub i u v (gateMasks d n i k) (w₁ (i + 2)) z,
        afterGate d n i k)) (l (i + 1)) (l (i + 3)),
        firstPosts mul add sub i u v (gateMasks d n i k)
          ++ [secondPost mul add sub i u v (gateMasks d n i k)])
      else (.exited (.accuses i ((i + 2) % 4) ((i + 1) % 4)),
        firstPosts mul add sub i u v (gateMasks d n i k)) := by
  have hround : i = 2 ∨ i = 3 → secondTo (i + 1) = i + 1 + 3 ∧ secondTo (i + 3) = i + 3 + 1 := by
    decide +revert
  have hin := hw₁ (i + 2)
  have hw₂ := hthree (i + 1)
  have hl₂ := hone (i + 3)
  rw [add_two_two] at hin
  rw [add_one_three] at hw₂
  rw [add_three_one] at hl₂
  refine play_gate hn i u v k hin hw₂ (fun hk => ?_) fun hk => hl₂.trans ?_
  · rw [if_pos ((hround hk).1.trans (add_one_three i))]
  · rw [if_pos ((hround hk).2.trans (add_three_one i))]

theorem exists_gateEnd (hn : 3 ≤ n) (howned : ∀ i, (P i).Owned Channel.source Channel.dest i)
    (hP : ∀ i, H i → P i = (gate mul add sub i (x i) (y i)).run (g i))
    (hs : Star .buffered (Net.init P) s) (ht : s.Terminal .buffered)
    (hsent : ∀ i, ¬ H i → SentAsExpected s n (gateSends i) i) :
    ∃ w₁ w₂ l, GateEnd mul add sub H x y g s w₁ w₂ l := by
  obtain ⟨hends, hlog⟩ := hs.play howned ht
  obtain ⟨w₁, hw₁⟩ := exists_firsts hn hP hlog hsent
  obtain ⟨w₂, l, hrest⟩ := exists_rests hn hP hlog hsent fun i => (hw₁ i).1
  have hplay : ∀ i, H i → (P i).play s.log = _ := fun i hi => (hP i hi).symm ▸
    play_gate_of_log hn (fun i => (hw₁ i).1) (fun i => (hrest i).1) (fun i => (hrest i).2.1) i (x i)
      (y i) (g i)
  refine ⟨w₁, w₂, l, fun i => (hw₁ i).1, fun i => (hrest i).1, fun i => (hrest i).2.1,
    log_eq_nil hn hP hlog hsent, fun hi => (hw₁ _).2 hi, fun hi => ((hrest _).2.2.2 hi).1,
    fun {i} hi => ?_, fun hi => (hrest _).2.2.1 hi, fun {i} hi => ?_⟩
  · obtain ⟨-, hl, hpost⟩ := (hrest i).2.2.2 hi
    rw [hplay i hi] at hpost
    split at hpost
    · rename_i hw
      rcases hl with hl | hl
      · simp [hl] at hpost
      · rw [if_pos hw, hl]
    · rename_i hw
      rcases hl with hl | hl
      · rw [if_neg hw, hl]
      · simp [hl] at hpost
  · have h := hends i
    rw [hplay i hi] at h
    split at h <;> rename_i hw
    · rwa [if_pos hw]
    · rwa [if_neg hw]

/-- The end of a product that everybody runs. -/
theorem exists_allEnd (hn : 3 ≤ n)
    (hs : Star .buffered (Net.init fun i => (gate mul add sub i (x i) (y i)).run (g i)) s)
    (ht : s.Terminal .buffered) : ∃ w₁ w₂ l, GateEnd mul add sub (fun _ => True) x y g s w₁ w₂ l :=
  exists_gateEnd hn (fun i => ownedBy_gate (x i) (y i) (g i)) (fun _ _ => rfl) hs ht
    fun _ h => absurd trivial h

end Ends

end Tva.Fantastic4pc
