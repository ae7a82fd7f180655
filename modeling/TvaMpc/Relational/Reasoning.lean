import TvaMpc.Relational.Stopping

/-!
# Relational/Reasoning — reasoning about a program in the clear

`Ends Q prog ps` is what must hold of the tables `ps` in the clear for `prog` to run to its end from
them and to end with `Q`, and there is a rule for every statement.  What is proved so holds of three
parties (`Ends.opens`): the program has exactly one outcome, and its tables open to some with `Q`.
-/

namespace Tva.Relational

open Machinery Operators EncodedTable

variable {N ρ n least : ℕ} {d : DataType} {top : Word d → Word d} {dataParty : Fin N → Prop}
variable {Q : List (PlainTable d) → Prop} {ps : List (PlainTable d)} {st : Statement N ρ d}
variable {prog : List (Statement N ρ d)} {table : ℕ}

/-- **The program runs to its end and ends with `Q`**; it sorts by keys that agree in `top`, and its
products have room. -/
def Ends (top : Word d → Word d) (least : ℕ) (dataParty : Fin N → Prop)
    (Q : List (PlainTable d) → Prop) : List (Statement N ρ d) → List (PlainTable d) → Prop
  | [], ps => Q ps
  | st :: prog, ps => (st.Checked dataParty ps ∧ st.Within top least ps ∧ st.Defined ps) ∧
      ∀ ps', PlainStep dataParty ps st (some ps') → Ends top least dataParty Q prog ps'

namespace Ends

theorem append_iff {prog' : List (Statement N ρ d)} :
    Ends top least dataParty Q (prog ++ prog') ps ↔
      Ends top least dataParty (Ends top least dataParty Q prog') prog ps := by
  induction prog generalizing ps with
  | nil => exact Iff.rfl
  | cons st prog ih => exact and_congr_right' <| forall₂_congr fun _ _ => ih

theorem mono {R : List (PlainTable d) → Prop} (h : Ends top least dataParty Q prog ps)
    (hQ : ∀ ps, Q ps → R ps) : Ends top least dataParty R prog ps := by
  induction prog generalizing ps with
  | nil => exact hQ ps h
  | cons st prog ih => exact ⟨h.1, fun ps' hs => ih (h.2 ps' hs)⟩

/-! ## Rules -/

theorem create {schema : List String} {rows : ℕ} (h : schema.Nodup)
    (hrest : Ends top least dataParty Q prog (ps ++ [⟨schema, rows, fun _ => 0, schema⟩])) :
    Ends top least dataParty Q (.create schema rows :: prog) ps := by
  refine ⟨⟨trivial, trivial, h⟩, fun ps' hs => ?_⟩
  cases hs
  exact hrest

theorem secretShare {schema : List String} {columns : Fin schema.length → Vec n d}
    {partyId : Fin N} (hparty : dataParty partyId) (h : schema.Nodup) (hne : schema ≠ [])
    (hrest : ∀ value, (∀ j, value (schema.get j) = columns j) →
      Ends top least dataParty Q prog (ps ++ [⟨schema, n, value, []⟩])) :
    Ends top least dataParty Q (.secretShare schema n columns partyId :: prog) ps := by
  refine ⟨⟨hparty, trivial, h, hne⟩, fun ps' hs => ?_⟩
  cases hs with
  | secretShare hvalue => exact hrest _ hvalue

section Tables

variable {names bits : List String} {value : String → Vec n d}
variable (ht : ps[table]? = some ⟨names, n, value, bits⟩)
include ht

theorem assign {name : String} {x : ColumnExpr} (hname : name ∈ names)
    (htemporary : x.IsTemporary) (hrows : x.HasRows ps n) (htyped : x.Typed ps (nameEncoding name))
    (hnots : x.NotsBits ps) (hroom : x.multiplies = true → least ≤ n)
    (hrest : ∀ v, x.Means ps n v → Ends top least dataParty Q prog
      (ps.set table ⟨names, n, Function.update value name v,
        if x.isBit ps then name :: bits else bits.filter (· ≠ name)⟩)) :
    Ends top least dataParty Q (.assign table name x :: prog) ps := by
  refine ⟨⟨fun t' ht' => ?_, fun hx t' ht' => ?_, ⟨_, ht, hname⟩, htemporary, _, htyped⟩,
    fun ps' hs => ?_⟩
  · obtain rfl := Option.some.inj (ht.symm.trans ht')
    exact ⟨hrows, htyped.gives htemporary, hnots⟩
  · obtain rfl := Option.some.inj (ht.symm.trans ht')
    exact hroom hx
  · cases hs with
    | assign ht' hx =>
      obtain rfl := Option.some.inj (ht.symm.trans ht')
      exact hrest _ hx

theorem call {method : Method N ρ d} (hchecked : method.Checked n)
    (hwithin : ValuesWithin top value method.sortKeys) (hroom : method.Room least n)
    (hdefined : method.Defined names n)
    (hrest : ∀ value', method.Means value value' →
      Ends top least dataParty Q prog (ps.set table ⟨names, n, value', []⟩)) :
    Ends top least dataParty Q (.call table method :: prog) ps := by
  refine ⟨⟨fun t' ht' => ?_, fun t' ht' => ?_, _, ht, hdefined⟩, fun ps' hs => ?_⟩
  · obtain rfl := Option.some.inj (ht.symm.trans ht')
    exact hchecked
  · obtain rfl := Option.some.inj (ht.symm.trans ht')
    exact ⟨hwithin, hroom⟩
  · cases hs with
    | call ht' hmeans =>
      obtain rfl := Option.some.inj (ht.symm.trans ht')
      exact hrest _ hmeans

end Tables

end Ends

/-! ## What the parties do -/

section Parties

variable {ρ : ℕ} [NeZero ρ] [NeZero N] {G : Type} {layout : Fin N → Fin ρ → Fin N}
variable {P : Fin N → Protocol N ρ d G} {Good : (Fin N → G) → Prop} {mode : SendMode}
variable {g : Fin N → G} {prog : List (Statement N ρ d)}

omit [NeZero ρ] in
theorem program_silent (s s' : (Fin N → G) × Option (List (Table N ρ d))) :
    ¬(program P mode (fun _ _ => True) g).Step s none s' := by
  rintro ⟨ts, st, -, hst, -⟩
  cases hst

/-- **What ends in the clear ends for the parties**, in one way. -/
theorem Ends.runs (hP : ComparesWithin top P layout least dataParty Good mode)
    (hD : Protocol.Divides P layout Good mode) (hown : ∀ i, Protocol.OwnedBy i (P i))
    (hdata : dataParty 0) (hg : Good g) (h : Ends top least dataParty Q prog []) : ∃ g' ts ps,
      (∀ s, (program P mode (fun _ _ => True) g).Reaches s prog ↔ s = (g', some ts)) ∧
        Represent layout ts ps ∧ Good g' ∧ Q ps := by
  induction prog using List.reverseRecOn generalizing Q with
  | nil =>
    exact ⟨g, [], [], fun s => System.reaches_nil_iff program_silent, .nil, hg, h⟩
  | append_singleton prog st ih =>
    obtain ⟨g₁, ts, ps, hreach, hts, hg₁, ⟨hchecked, hwithin, hdefined⟩, hnext⟩ :=
      ih (append_iff.mp h)
    rcases steps_or_stops hP hD hown hdata hg₁ hts hchecked hwithin with
      ⟨-, g₂, ts₂, hstep, hunique⟩ | ⟨hnot, -⟩
    swap
    · exact absurd hdefined hnot
    obtain ⟨o, hplain, hmeans⟩ := hstep.means hP hD hown hdata hg₁ hts hwithin
    cases o with
    | none => cases hplain with
      | unchecked hnot => exact absurd hchecked hnot
    | some ps₂ =>
      obtain ⟨ts₂', hts₂', hrel, hg₂⟩ := hmeans ps₂ rfl
      obtain rfl := Option.some.inj hts₂'
      refine ⟨g₂, ts₂, ps₂, fun s => ?_, hrel, hg₂, hnext ps₂ hplain⟩
      rw [System.reaches_concat_iff program_silent]
      constructor
      · rintro ⟨s₁, hr, ts', st', hs, hst', -, hs'⟩
        obtain rfl := (hreach s₁).mp hr
        obtain rfl := Option.some.inj hs
        obtain rfl := Option.some.inj hst'
        obtain ⟨hs₁, hs₂⟩ := hunique _ _ hs'
        exact Prod.ext hs₁ hs₂
      · rintro rfl
        exact ⟨_, (hreach _).mpr rfl, ts, st, rfl, rfl, trivial, hstep⟩

end Parties

/-- **The outcome of a program**: all runs end with the same tables, and these open to some with
`Q`. -/
def Outcome {ρ : ℕ} {G : Type} [NeZero N] (P : Fin N → Protocol N ρ d G) (mode : SendMode)
    (g : Fin N → G) (prog : List (Statement N ρ d)) (Q : List (PlainTable d) → Prop) : Prop :=
  ∃ g' ts ps, (∀ s, (program P mode (fun _ _ => True) g).Reaches s prog ↔ s = (g', some ts)) ∧
    List.Forall₂ (fun t p => t.OpensTo P mode g' p.plaintexts) ts ps ∧ Q ps

/-- **The parties open what a program ends with.** -/
theorem Ends.outcome {ρ : ℕ} [NeZero ρ] [NeZero N] {G : Type} {layout : Fin N → Fin ρ → Fin N}
    {P : Fin N → Protocol N ρ d G} {Good : (Fin N → G) → Prop} {mode : SendMode} {g : Fin N → G}
    {prog : List (Statement N ρ d)} (hP : ComparesWithin top P layout least dataParty Good mode)
    (hD : Protocol.Divides P layout Good mode)
    (hR : Protocol.Replicates P layout least dataParty Good mode)
    (hown : ∀ i, Protocol.OwnedBy i (P i)) (hdata : dataParty 0) (hg : Good g)
    (h : Ends top least dataParty Q prog []) : Outcome P mode g prog Q := by
  obtain ⟨g', ts, ps, hreach, hts, -, hQ⟩ := h.runs hP hD hown hdata hg
  exact ⟨g', ts, ps, hreach, hts.imp fun t p hp => hp.opensTo hR hown, hQ⟩

/-- **Three parties**, with the generators of the runtime. -/
theorem Ends.opens {S : Type} {nrand48 : S → BitVec 64 × S} {mode : SendMode}
    {g : Fin 3 → PseudoRandomGenerator nrand48} {prog : List (Statement 3 2 d)}
    (h : Ends (fun _ => 0) 0 (fun _ => True) Q prog []) (hg : Replicated3pc.SeedsAgree g) :
    Outcome (Replicated3pc.parties d nrand48) mode g prog Q :=
  h.outcome (comparesWithin Replicated3pc.correctBits_seedsAgree) Replicated3pc.divides_seedsAgree
    Replicated3pc.replicates_seedsAgree Replicated3pc.ownedBy_protocol trivial hg

/-! ## Values of expressions -/

namespace ColumnExpr.Means

variable {u : Vec n d} {x y : ColumnExpr} {op : BinaryOp}

theorem exists_column {name : String} (hu : (ColumnExpr.column table name).Means ps n u) :
    ∃ t, ps[table]? = some t ∧ ∃ h : n = t.rows, u = fun j => t.value name (j.cast h) := by
  cases hu with
  | column ht => exact ⟨_, ht, rfl, rfl⟩

/-- The value of a column of a table with `n` rows. -/
theorem column_eq {name : String} {names bits : List String} {value : String → Vec n d}
    (hu : (ColumnExpr.column table name).Means ps n u)
    (ht : ps[table]? = some ⟨names, n, value, bits⟩) : u = value name := by
  obtain ⟨t, ht', hn, rfl⟩ := hu.exists_column
  obtain rfl := Option.some.inj (ht.symm.trans ht')
  rfl

theorem exists_binary (hu : (ColumnExpr.binary op x y).Means ps n u) :
    ∃ v w, x.Means ps n v ∧ y.Means ps n w ∧ u = op.apply v w := by
  cases hu with
  | binary hx hy => exact ⟨_, _, hx, hy, rfl⟩

end ColumnExpr.Means

end Tva.Relational
