import TvaMpc.Operators.Comparisons

/-!
# Operators/RowReference — the plaintext comparison of rows

`tva::compare_rows` compares rows of plaintext vectors (`Plaintext.compareRows`), and is the
reference for `operators::compare_rows`.  Both compute the lexicographic order: a row is greater if
it is greater in the first column in which the rows differ (`compareRows_open`).
-/

namespace Tva

open Machinery Operators

variable {N n : ℕ} {d : DataType} {G : Type}

namespace Plaintext

/-! ## The reference -/

/-- `==`, elementwise. -/
def equal (x y : Vec n d) : Vec n d := fun j => if x j = y j then 1 else 0

/-- `>`, elementwise. -/
def greater (x y : Vec n d) : Vec n d := fun j => if (x j).toInt > (y j).toInt then 1 else 0

/-- The comparison on one key, where `inverse` makes left and right change places: `eq` and `gt`. -/
def compareKey (x y : Vec n d) (inverse : Bool) : Vec n d × Vec n d :=
  let t := if inverse then y else x
  let o := if inverse then x else y
  (equal t o, greater t o)

/-- `compare_rows` of plaintext vectors, of at least one column. -/
def compareRows (x y : List (Vec n d)) (inverse : List Bool) : Vec n d :=
  match x.zip (y.zip inverse) with
  | [] => 0
  | key :: keys =>
      let first := compareKey key.1 key.2.1 key.2.2
      let res := keys.foldl (fun eqGt key =>
        let new := compareKey key.1 key.2.1 key.2.2
        (eqGt.1 &&& new.1, eqGt.2 ^^^ (new.2 &&& eqGt.1))) first
      res.2

/-! ## What it computes -/

section Loop

variable {κ : Type} (U V : κ → Vec n d) (desc : κ → Bool)

theorem compareKey_eq (k : κ) : compareKey (U k) (V k) (desc k)
    = (bits d fun j => decide (signed (desc k) (U k j) = signed (desc k) (V k j)),
      bits d fun j => decide (signed (desc k) (V k j) < signed (desc k) (U k j))) := by
  have h : ∀ x y : Vec n d, (equal x y, greater x y) = (bits d fun j => decide (x j = y j),
      bits d fun j => decide ((y j).toInt < (x j).toInt)) := fun x y => by
    rw [bits_decide, bits_decide]
    rfl
  cases hd : desc k with
  | false =>
    simp only [signed_inj]
    exact h (U k) (V k)
  | true =>
    simp only [signed_inj, eq_comm (a := U k _)]
    simp only [signed, if_true, neg_lt_neg_iff]
    exact h (V k) (U k)

/-- **The reference computes the lexicographic order.** -/
theorem compareRows_eq {keys : List κ} (hkeys : keys ≠ []) :
    compareRows (keys.map U) (keys.map V) (keys.map desc)
      = bits d fun j => decide (row desc V keys j < row desc U keys j) := by
  obtain ⟨k₀, keys, rfl⟩ := List.exists_cons_of_ne_nil hkeys
  have hloop : ∀ keys : List κ, keys.foldl (fun eqGt k =>
      let new := compareKey (U k) (V k) (desc k)
      (eqGt.1 &&& new.1, eqGt.2 ^^^ (new.2 &&& eqGt.1))) (compareKey (U k₀) (V k₀) (desc k₀))
      = (bits d fun j => decide (row desc U (k₀ :: keys) j = row desc V (k₀ :: keys) j),
        bits d fun j => decide (row desc V (k₀ :: keys) j < row desc U (k₀ :: keys) j)) := by
    intro keys
    induction keys using List.reverseRecOn with
    | nil =>
      rw [List.foldl_nil, compareKey_eq]
      simp [row, List.cons_lt_cons_iff]
    | append_singleton keys k ih =>
      rw [List.foldl_append, ih, List.foldl_cons, List.foldl_nil, compareKey_eq]
      simp only [← List.cons_append, row_step, bits_xor, bits_and]
  rw [compareRows, List.zip_map', List.zip_map', List.map_cons]
  simp only [List.foldl_map]
  exact congrArg Prod.snd (hloop keys)

end Loop

end Plaintext

/-! ## The first difference -/

/-- The first column in which the rows `j` differ. -/
structure FirstDifference (U V : Fin N → Vec n d) (j : Fin n) (c : Fin N) : Prop where
  before : ∀ c' < c, U c' j = V c' j
  differ : U c j ≠ V c j

theorem row_lt_iff (U V : Fin N → Vec n d) (desc : Fin N → Bool) (j : Fin n) :
    row desc V (List.finRange N) j < row desc U (List.finRange N) j ↔
      ∃ c, FirstDifference U V j c ∧
        if desc c then (U c j).toInt < (V c j).toInt else (V c j).toInt < (U c j).toInt := by
  have hsigned : ∀ c, signed (desc c) (V c j) < signed (desc c) (U c j) ↔
      if desc c then (U c j).toInt < (V c j).toInt else (V c j).toInt < (U c j).toInt := fun c => by
    cases desc c with
    | false => rfl
    | true => exact neg_lt_neg_iff
  have hlen : ∀ W : Fin N → Vec n d, (row desc W (List.finRange N) j).length = N := fun W => by
    rw [row, List.length_map, List.length_finRange]
  have hget : ∀ (W : Fin N → Vec n d) (c : ℕ) (hc : c < (row desc W (List.finRange N) j).length),
      (row desc W (List.finRange N) j)[c] = signed (desc ⟨c, (hlen W).symm ▸ hc⟩)
        (W ⟨c, (hlen W).symm ▸ hc⟩ j) := fun W c hc => by
    simp [row]
  rw [List.lt_iff_exists]
  constructor
  · rintro (⟨-, hlt⟩ | ⟨c, hc, hc', hsame, hlt⟩)
    · rw [hlen, hlen] at hlt
      exact absurd hlt (lt_irrefl _)
    · rw [hget, hget] at hlt
      rw [hlen] at hc
      refine ⟨⟨c, hc⟩, ⟨fun c' hc'' => ?_, fun heq => ?_⟩, (hsigned ⟨c, hc⟩).mp hlt⟩
      · have h := hsame c' hc''
        rw [hget, hget, signed_inj] at h
        exact h.symm
      · rw [heq] at hlt
        exact lt_irrefl _ hlt
  · rintro ⟨c, hfirst, hlt⟩
    refine .inr ⟨c, (hlen V).symm ▸ c.isLt, (hlen U).symm ▸ c.isLt, fun c' hc' => ?_, ?_⟩
    · rw [hget, hget, signed_inj]
      exact (hfirst.before ⟨c', hc'.trans c.isLt⟩ hc').symm
    · rw [hget, hget]
      exact (hsigned c).mpr hlt

/-! ## The secure comparison -/

namespace Replicated3pc

variable [RandomGenerator G d] {mode : SendMode} {Good : (Fin 3 → G) → Prop} {g : Fin 3 → G}
variable {X Y : Fin N → Fin 3 → EVector 2 n d} {U V : Fin N → Vec n d}

variable (mode) in
/-- **The secure comparison of rows opens to its reference**, whatever the masks, and both say
whether the left row is greater in the first column in which the rows differ, or smaller if that
column is inverse. -/
theorem compareRows_open (hN : 0 < N) (inverse : Fin N → Bool) (hz : ZeroSharing d Good)
    (hg : Good g) (hX : ∀ c, SharesB layout (X c) (U c)) (hY : ∀ c, SharesB layout (Y c) (V c)) :
    OpensB (protocol d G) mode (fun i => compareRows (protocol d G i)
        (List.ofFn fun c => X c i) (List.ofFn fun c => Y c i) (List.ofFn inverse)) g
        (Plaintext.compareRows (List.ofFn U) (List.ofFn V) (List.ofFn inverse)) ∧
      ∀ j, (Plaintext.compareRows (List.ofFn U) (List.ofFn V) (List.ofFn inverse) j = 1 ↔
        ∃ c, FirstDifference U V j c ∧
          if inverse c then (U c j).toInt < (V c j).toInt else (V c j).toInt < (U c j).toInt) ∧
        (Plaintext.compareRows (List.ofFn U) (List.ofFn V) (List.ofFn inverse) j = 0 ∨
          Plaintext.compareRows (List.ofFn U) (List.ofFn V) (List.ofFn inverse) j = 1) := by
  have hkeys : List.finRange N ≠ [] := fun hnil => by
    have hlen := congrArg List.length hnil
    rw [List.length_finRange, List.length_nil] at hlen
    omega
  have hofFn : ∀ {α : Type} (f : Fin N → α), List.ofFn f = (List.finRange N).map f :=
    fun f => List.ofFn_eq_map
  simp only [hofFn, Plaintext.compareRows_eq U V inverse hkeys]
  refine ⟨?_, fun j => ?_⟩
  · have hrows := ensures_compareRows inverse (compares mode hz) hg hkeys (fun c _ => hX c)
      (fun c _ => hY c) (Nat.zero_le _)
    exact (correct hz).opensB ownedBy_protocol (hrows.mono fun _ _ _ hz' => hz'.1)
      fun i => ownedBy_compareRows (ownedBy_protocol i) _ _ _
  · have h1 : (1 : Word d) = bit d true := rfl
    have hone : ∀ b : Bool, (bit d b = 1 ↔ b = true) ∧ (bit d b = 0 ∨ bit d b = 1) := fun b => by
      refine ⟨⟨fun h => bit_inj (h.trans h1), fun h => h ▸ rfl⟩, ?_⟩
      cases b with
      | false => exact .inl rfl
      | true => exact .inr rfl
    rw [← row_lt_iff]
    exact ⟨(hone _).1.trans decide_eq_true_iff, (hone _).2⟩

/-- The rows `(1, 5)` and `(1, 7)`, the second column descending. -/
theorem compareRows_open_two :
    OpensB (protocol .int8_t _) .rendezvous (fun i => compareRows (protocol .int8_t _ i)
        (List.ofFn fun c : Fin 2 => plain ![![1, 5] c] i)
        (List.ofFn fun c : Fin 2 => plain ![![1, 7] c] i) (List.ofFn ![false, true]))
        (zeroStreams .int8_t)
        (Plaintext.compareRows (List.ofFn fun c : Fin 2 => (![![1, 5] c] : Vec 1 .int8_t))
          (List.ofFn fun c : Fin 2 => ![![1, 7] c]) (List.ofFn ![false, true])) ∧
      Plaintext.compareRows (List.ofFn fun c : Fin 2 => (![![1, 5] c] : Vec 1 .int8_t))
          (List.ofFn fun c : Fin 2 => ![![1, 7] c]) (List.ofFn ![false, true]) 0 = 1 := by
  have h := compareRows_open .rendezvous (X := fun c : Fin 2 => plain ![![1, 5] c])
    (Y := fun c : Fin 2 => plain ![![1, 7] c]) two_pos ![false, true]
    (zeroMasks_streams (d := .int8_t)).toZeroSharing zeroStreams_zero
    (fun c => shares_plain (.b 0) _) fun c => shares_plain (.b 0) _
  refine ⟨h.1, (h.2 0).1.mpr ⟨1, ⟨by decide, by decide⟩, by decide⟩⟩

end Replicated3pc

end Tva
