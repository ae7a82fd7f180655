import TvaMpc.Protocols.Replicated3pcHiding
import TvaMpc.Relational.Hides
import TvaMpc.Relational.Stopping

/-!
# Relational/Replicated3pcHides — what a party sees of a program on tables
-/

namespace Tva.Relational

open Machinery Operators EncodedTable

section Boolean

variable {N ρ : ℕ} {d : DataType}

/-- A table of boolean columns has no arithmetic ones to move. -/
theorem dataA_eq_nil {t : Table N ρ d} (ht : ∀ j, (t.columns j).encoding = .bShared)
    (keys toBeSortedColumns : List String) : t.view.dataA keys toBeSortedColumns = [] := by
  rw [dataA, List.filterMap_eq_nil_iff]
  intro c hc
  obtain ⟨x, hx, rfl⟩ := List.mem_map.mp hc
  obtain ⟨j, -, rfl⟩ := List.mem_map.mp (List.mem_filter.mp hx).1
  simp [Table.column, ht]

end Boolean

section Three

open Replicated3pc

variable {d : DataType} {G : Type} [RandomGenerator G d] {mode : SendMode} {p : Fin 3}
variable {prog prog' : List (Statement 3 2 d)}

/-! ## Opening -/

section Opening

variable {t t' : Table 3 2 d} {g : Fin 3 → G}

/-- What party `i` opens a vector to. -/
def openedVector (v : EncodedVector 3 2 d) (i : Fin 3) : Vec v.size d :=
  match v.encoding with
  | .aShared => v.shares i 0 + v.shares i 1 + v.shares (i - 1) 1
  | .bShared => v.shares i 0 ^^^ v.shares i 1 ^^^ v.shares (i - 1) 1

/-- What it opens the columns to. -/
def openedColumns (t : Table 3 2 d) (i : Fin 3) : List (List (Word d)) :=
  (List.finRange t.names.length).map fun j => List.ofFn (openedVector (t.columns j).contents i)

/-- The messages of an opening. -/
def openingLog (t : Table 3 2 d) (c : Channel 3) : List (List (Word d)) :=
  (List.finRange t.names.length).flatMap fun j =>
    exchangeLog (fun i => (t.columns j).contents.shares i 1) 1 c

/-- **There is one way to open a table.** -/
theorem yields_openTable (t : Table 3 2 d) :
    Yields mode (fun i => t.openTable (protocol d G i) i) g (openedColumns t) g (openingLog t) := by
  refine Yields.foldlM_collect (fun _ => []) fun res j => Yields.bind_pure ?_
  have hcolumn : Yields mode (fun i => t.openColumn (protocol d G i) i j) g
      (openedVector (t.columns j).contents) g
      (exchangeLog (fun i => (t.columns j).contents.shares i 1) 1) := by
    simp only [Table.openColumn]
    cases henc : (t.columns j).contents.encoding with
    | aShared =>
      have hvector : openedVector (t.columns j).contents = fun i =>
          (t.columns j).contents.shares i 0 + (t.columns j).contents.shares i 1 +
            (t.columns j).contents.shares (i - 1) 1 := by
        ext i : 1
        rw [openedVector, henc]
      rw [hvector]
      exact yields_openShares (fun a b c => a + b + c) (t.columns j).contents.shares
    | bShared =>
      have hvector : openedVector (t.columns j).contents = fun i =>
          (t.columns j).contents.shares i 0 ^^^ (t.columns j).contents.shares i 1 ^^^
            (t.columns j).contents.shares (i - 1) 1 := by
        ext i : 1
        rw [openedVector, henc]
      rw [hvector]
      exact yields_openShares (fun a b c => a ^^^ b ^^^ c) (t.columns j).contents.shares
  exact hcolumn

/-- A component that is missing follows from the value. -/
theorem sameView_exchange {v v' : EncodedVector 3 2 d} (hv : SameVector p v v')
    (h : List.ofFn (openedVector v p) = List.ofFn (openedVector v' p)) :
    SameView Channel.dest p (exchangeLog (fun i => v.shares i 1) 1)
      (exchangeLog (fun i => v'.shares i 1) 1) := by
  obtain @⟨encoding, n, x, x', hx⟩ := hv
  have hvalue := List.ofFn_injective h
  have hmissing : x (p - 1) 1 = x' (p - 1) 1 := by
    simp only [openedVector, hx] at hvalue
    cases encoding with
    | aShared => exact add_left_cancel hvalue
    | bShared => exact add_left_cancel (G := Fin n → BoolWord d) hvalue
  exact sameView_exchangeLog hmissing

theorem sameView_opening (ht : SameTable p t t') (h : openedColumns t p = openedColumns t' p) :
    SameView Channel.dest p (openingLog t) (openingLog t') := by
  obtain ⟨hcolumns⟩ := ht
  intro c hc
  refine List.flatMap_congr fun j hj => ?_
  exact sameView_exchange (hcolumns j) (List.map_inj_left.mp h j hj) c hc

/-- **Where both tables open and `p` gets the same values, it sees the same.** -/
def OpensAlike (G : Type) [RandomGenerator G d] (mode : SendMode) (p : Fin 3)
    (t t' : Table 3 2 d) : Prop :=
  ∀ g₁ a g₁' h g₂ a' g₂' h',
    Yields mode (fun i => t.openTable (protocol d G i) i) g₁ a g₁' h →
    Yields mode (fun i => t'.openTable (protocol d G i) i) g₂ a' g₂' h' →
      a p = a' p → SameView Channel.dest p h h'

theorem opensAlike (ht : SameTable p t t') : OpensAlike G mode p t t' := by
  have hopen : ∀ (t : Table 3 2 d) (g : Fin 3 → G),
      Ensures mode (fun i => t.openTable (protocol d G i) i) g fun a _ h =>
        a = openedColumns t ∧ h = openingLog t := fun t g =>
    .of_yields (yields_openTable t) ⟨rfl, rfl⟩
  have hown : ∀ (t : Table 3 2 d) i, OwnedBy i (t.openTable (protocol d G i) i) := fun t i =>
    Table.ownedBy_openTable (ownedBy_protocol i) t
  intro g₁ a g₁' h g₂ a' g₂' h' hy hy' ha
  obtain ⟨rfl, rfl⟩ := (hopen t g₁).holds (hown t) hy
  obtain ⟨rfl, rfl⟩ := (hopen t' g₂).holds (hown t') hy'
  exact sameView_opening ht ha

end Opening

/-! ## Programs -/

/-- **A party sees nothing of what others share but what is opened**: for programs without
`b2a_bit` that differ in the data of others alone, a permutation of the tapes that it does not read
makes the runs look the same to it, whatever the tapes, up to the statement where both stop.  The
openings look the same if their values are. -/
theorem program_hides (hprog : List.Forall₂ (SameStatement p) prog prog')
    (hmask : StaysMasked (protocol d (KeyPair d)) prog []) :
    ∃ Φ : Equiv.Perm (Tape → ℕ → Word d), MovesOnly (Unread p) Φ ∧ ∀ K, ∃ e h e' h',
      Performs (protocol d (KeyPair d)) mode prog [] (idealKeys K) e h ∧
      Performs (protocol d (KeyPair d)) mode prog' [] (idealKeys (Φ K)) e' h' ∧
      SameEnding p e e' ∧ SameView Channel.dest p h h' ∧
      List.Forall₂ (OpensAlike (KeyPair d) mode p) e.tables e'.tables := by
  have hP : Protocol.Hides (protocol d (KeyPair d)) mode idealKeys p (Unread p) := hides_protocol
  obtain ⟨Φ, hmoves, hΦ⟩ := indistinguishable_program hP hprog .nil hmask
  refine ⟨Φ, hmoves, fun K => ?_⟩
  obtain ⟨e, h, e', h', hr, hr', hend, hview⟩ := hΦ K
  exact ⟨e, h, e', h', hr, hr', hend, hview, hend.tables.imp fun _ _ => opensAlike⟩

/-- A table of two rows that party `0` shares, and a sort. -/
def sortedPair (a b : Word .int8_t) : List (Statement 3 2 .int8_t) :=
  [.secretShare ["[k]"] 2 (fun _ => ![a, b]) 0, .call 0 (.sort ["[k]"] [false])]

theorem program_hides_sortedPair :
    ∃ Φ : Equiv.Perm (Tape → ℕ → Word .int8_t), MovesOnly (Unread 1) Φ ∧ ∀ K, ∃ e h e' h',
      Performs (protocol .int8_t (KeyPair .int8_t)) .rendezvous (sortedPair 3 1) [] (idealKeys K) e
        h ∧
      Performs (protocol .int8_t (KeyPair .int8_t)) .rendezvous (sortedPair 5 7) []
        (idealKeys (Φ K)) e' h' ∧
      SameEnding 1 e e' ∧ SameView Channel.dest 1 h h' ∧
      List.Forall₂ (OpensAlike (KeyPair .int8_t) .rendezvous 1) e.tables e'.tables := by
  refine program_hides (.cons (.secretShare fun h => absurd h (by decide)) (.cons (.refl _) .nil))
    ⟨trivial, fun c hc a => ?_⟩
  cases hc with
  | secretShare h hne =>
    refine ⟨fun t ht => ?_, fun _ _ _ => trivial⟩
    obtain rfl := Option.some.inj ht
    have hboolean : ∀ name ∈ ["[k]"], isBShared name = true := by decide
    exact dataA_eq_nil (fun j => if_pos (hboolean _ (List.get_mem _ j))) _ _

/-! ## Conversions -/

/-- **`convert_b2a_bit` tells every party the bits of its input**: they follow from its own shares
of that column and from what it has received. -/
theorem finishes_convertB2aBit {t : Table 3 2 d} {value : String → Vec t.rows d}
    {names : List String} (ht : t.Holds layout value names) {inputB outputA : String}
    {j : Fin t.names.length} (hj : t.find inputB = some j) {x : Fin 3 → EVector 2 t.rows d}
    (hx : (t.columns j).contents = ⟨.bShared, t.rows, x⟩)
    {m : Fin 3 → PartyM 3 d G (Memory 2 t.rows d)} {g : Fin 3 → G}
    (hm : ∀ i, (Method.convertB2aBit inputB outputA).run (protocol d G i) i t = .ok (m i)) :
    Finishes mode (fun i => (m i).run (g i)) fun _ sent =>
      ∀ p, readBit (x p) (sent (chan (p - 1) p)) = lowBit (value inputB) := by
  have hname : t.names.get j = inputB := Table.find_eq_some_iff.mp hj
  have hcolumn : t.column j = .b j := by
    rw [Table.column, (t.columns j).encoding_eq, hx]
  have hin : t.view.downcast .bSharedVector inputB = .ok j :=
    downcast_ok (schemaAt_eq_some.mpr (Table.mem_schema.mpr ⟨j, hname, hcolumn⟩))
  have hshares : SharesB layout x (value inputB) := by
    obtain ⟨x', hx', hshares, -⟩ := ht.column j
    obtain ⟨henc, -, hsame⟩ := EncodedVector.mk.inj (hx.symm.trans hx')
    obtain rfl := eq_of_heq hsame
    rwa [← henc, hname] at hshares
  have hmemory : ∀ i, t.memory ht.intact.size i (.b j) = x i := fun i =>
    hcolumn ▸ Table.memory_column hx _ i
  simp only [Method.run, dif_pos ht.intact.size, Method.call, convertB2aBit, hin] at hm
  cases hout : t.view.downcast .aSharedVector outputA with
  | error e =>
    have herror := hm 0
    rw [hout] at herror
    cases herror
  | ok o =>
    obtain rfl : (fun i => do
        let z ← b2aBit i (x i)
        return Function.update (t.memory ht.intact.size i) (.a o) z) = m := by
      ext i : 1
      have hi := hm i
      rw [hout] at hi
      rw [← hmemory]
      exact Except.ok.inj hi
    have hreads : Ensures mode (fun i => do
        let z ← b2aBit i (x i)
        return Function.update (t.memory ht.intact.size i) (.a o) z) g fun _ _ sent =>
        ∀ p, readBit (x p) (sent (chan (p - 1) p)) = lowBit (value inputB) := by
      refine (ensures_readBit x _ hshares).bind fun a g' h hread => Ensures.pure fun p => ?_
      simpa only [List.append_nil] using hread p
    exact hreads.finishes fun i => ((ownedBy_protocol i).b2aBit (x i)).bind fun _ => .pure _

variable (mode) in
/-- **A program that converts a column** tells every party the bits of its values. -/
theorem runs_convertB2aBit (g : Fin 3 → G) {ts : List (Table 3 2 d)} {table n : ℕ}
    {t : Table 3 2 d} (htable : ts[table]? = some t) {names bits : List String}
    {value : String → Vec n d} (ht : t.Represents layout ⟨names, n, value, bits⟩)
    {inputB outputA : String} (hin : Has names .bShared inputB)
    (hout : Has names .aShared outputA) :
    ∃ c j x, t.find inputB = some j ∧ (t.columns j).contents = ⟨.bShared, n, x⟩ ∧
      (Statement.call table (.convertB2aBit inputB outputA)).Runs (protocol d G) ts c ∧
      Finishes mode (fun i => (c.program i).run (g i)) fun _ sent =>
        ∀ p, readBit (x p) (sent (chan (p - 1) p)) = lowBit (value inputB) := by
  obtain ⟨value', names', heq, hholds⟩ := ht
  cases heq
  obtain ⟨j, hj⟩ := List.get_of_mem hin.1
  obtain ⟨x, hx, -⟩ := hholds.column j
  rw [hj, hin.2] at hx
  have hfind : t.find inputB = some j := Table.find_eq_some_iff.mpr hj
  have hok : ∀ i, ∃ m, (Method.convertB2aBit inputB outputA).run (protocol d G i) i t = .ok m := by
    intro i
    simp only [Method.run, dif_pos hholds.intact.size]
    exact (isOk_convertB2aBit hholds).mpr ⟨hin, hout⟩
  choose m hm using hok
  exact ⟨_, j, x, hfind, hx, .call htable hm, finishes_convertB2aBit hholds hfind hx hm⟩

end Three

end Tva.Relational
