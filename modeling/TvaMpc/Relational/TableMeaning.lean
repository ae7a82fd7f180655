import TvaMpc.Protocols.Replicated3pcSeeds
import TvaMpc.Relational.MethodMeaning
import TvaMpc.Relational.Performs

/-!
# Relational/TableMeaning — every program computes on shares what it means

A run of the parties is a run in the clear, with the same statements, and the tables of the parties
hold what the tables in the clear have (`reaches_plainProgram`).  So they open to it, at every party
and in every interleaving (`tables_mean`).  A checked statement stops all parties or has exactly one
outcome (`stops_or_steps`).
-/

namespace Tva.Relational

open Machinery Operators EncodedTable

variable {N ρ n least : ℕ} [NeZero ρ] {d : DataType} {G : Type} {layout : Fin N → Fin ρ → Fin N}
variable {P : Fin N → Protocol N ρ d G} {dataParty : Fin N → Prop} {Good : (Fin N → G) → Prop}
variable {mode : SendMode} {g g' : Fin N → G} {ts : List (Table N ρ d)} {ps : List (PlainTable d)}
variable {st : Statement N ρ d} {r : Option (List (Table N ρ d))}

/-! ## Statements -/

/-- An expression has the size of its columns. -/
theorem ColumnExpr.size_of_hasRows {e : ColumnExpr} {u : Pending N ρ d G} {m : ℕ}
    (hts : List.Forall₂ (Table.Represents layout) ts ps) (hu : e.eval P ts = some u)
    (hrows : e.HasRows ps m) : u.size = m := by
  induction e generalizing u with
  | column table name =>
    obtain ⟨t, j, ht, -, rfl⟩ := eval_column hu
    obtain ⟨p, hp, value, names, rfl, hholds⟩ := exists_related hts ht
    exact (hholds.intact.size j).trans (hrows _ hp)
  | allocate size eType =>
    obtain rfl := Option.some.inj hu
    exact hrows
  | unary op e ih =>
    obtain ⟨v, hv, rfl⟩ := eval_unary hu
    have hsize : v.size = m := ih hv hrows
    exact hsize
  | binary op e e' ih _ =>
    obtain ⟨v, w, -, hv, -, rfl⟩ := eval_binary hu
    have hsize : v.size = m := ih hv hrows.1
    exact hsize

/-- **`secret_share` shares the columns.** -/
theorem Table.ensures_secretShare (hP : Protocol.Correct P layout least dataParty Good mode)
    (schema : List String) (columns : Fin schema.length → Vec n d) {partyId : Fin N}
    (hp : dataParty partyId) (hg : Good g) :
    Ensures mode (fun i => Table.secretShare (P i) schema columns partyId) g fun x g' _ =>
      (∀ j, (nameEncoding (schema.get j)).Shares layout (fun i => x i j) (columns j)) ∧
        Good g' := by
  refine (Ensures.foldlM (fun pre (x : Fin N → Fin schema.length → EVector ρ n d) g =>
    (∀ j ∈ pre, (nameEncoding (schema.get j)).Shares layout (fun i => x i j) (columns j)) ∧
      Good g) _ ⟨nofun, hg⟩ fun pre j hpre x g h => ?_).mono fun x g' _ h =>
        ⟨fun j => h.1 j (List.mem_finRange j), h.2⟩
  have hupdate : ∀ z : Fin N → EVector ρ n d,
      (nameEncoding (schema.get j)).Shares layout z (columns j) → ∀ k ∈ pre ++ [j],
      (nameEncoding (schema.get k)).Shares layout (fun i => Function.update (x i) j (z i) k)
        (columns k) := by
    intro z hz k hk
    by_cases hkj : k = j
    · subst hkj
      simpa only [Function.update_self] using hz
    · simp only [Function.update_of_ne hkj]
      exact h.1 k ((List.mem_append.mp hk).resolve_right (by simpa using hkj))
  by_cases hb : isBShared (schema.get j) = true
  · simp only [if_pos hb]
    have henc : nameEncoding (schema.get j) = .bShared := if_pos hb
    rw [henc] at hupdate
    exact (hP.secretShareB hp h.2).bind fun z g₁ _ hz => Ensures.pure ⟨hupdate z hz.1, hz.2⟩
  · simp only [if_neg hb]
    have henc : nameEncoding (schema.get j) = .aShared := if_neg hb
    rw [henc] at hupdate
    exact (hP.secretShareA hp h.2).bind fun z g₁ _ hz => Ensures.pure ⟨hupdate z hz.1, hz.2⟩

/-- The tables of the parties hold what those in the clear have. -/
abbrev Represent (layout : Fin N → Fin ρ → Fin N) (ts : List (Table N ρ d))
    (ps : List (PlainTable d)) : Prop := List.Forall₂ (Table.Represents layout) ts ps

theorem Represent.append (hts : Represent layout ts ps) {t : Table N ρ d} {p : PlainTable d}
    (h : t.Represents layout p) : Represent layout (ts ++ [t]) (ps ++ [p]) :=
  List.rel_append hts (.cons h .nil)

/-- **`open` returns `w`**, at every party and in every interleaving. -/
def Table.OpensTo (P : Fin N → Protocol N ρ d G) (mode : SendMode) (g : Fin N → G)
    (t : Table N ρ d) (w : List (List (Word d))) : Prop :=
  Finishes mode (fun i => (t.openTable (P i) i).run (g i)) fun out _ => ∀ i, (out i).1 = w

/-- **The statements that stop the parties**: a name is twice in a schema, nothing is shared, a name
is missing, an assertion fails. -/
def Statement.Stops [NeZero N] (P : Fin N → Protocol N ρ d G) (ts : List (Table N ρ d)) :
    Statement N ρ d → Prop
  | create schema _ => ¬schema.Nodup
  | secretShare schema _ _ _ => ¬schema.Nodup ∨ schema = []
  | assign table name x => ∀ t, ts[table]? = some t →
      t.find name = none ∨ ¬x.IsTemporary ∨ x.eval P ts = none
  | call table method => ∀ t, ts[table]? = some t → ∀ i, method.run (P i) i t = .error .stops

section Steps

variable [NeZero N] {top : Word d → Word d}
variable (hP : ComparesWithin top P layout least dataParty Good mode)
variable (hD : Protocol.Divides P layout Good mode)
variable (hown : ∀ i, Protocol.OwnedBy i (P i)) (hdata : dataParty 0)
include hP hD hown hdata

/-- A method of a table that is held runs on its memory. -/
theorem computes_run (hg : Good g) {t : Table N ρ d} {value : String → Vec t.rows d}
    {names : List String} (ht : t.Holds layout value names) (method : Method N ρ d)
    (h : method.Checked t.rows)
    (hwithin : ValuesWithin top value method.sortKeys ∧ method.Room least t.rows) :
    Computes mode g (fun i => method.run (P i) i t) (HoldsValues layout Good t fun v =>
      method.Means value v) := by
  simp only [Method.run, dif_pos ht.intact.size]
  exact computes_call hP hD hown hdata hg ht method h hwithin.1 hwithin.2

section Checked

variable (hg : Good g) (hts : Represent layout ts ps) (hst : st.Checked dataParty ps)
variable (hwithin : st.Within top least ps)
include hg hts hst hwithin

/-- **The code of a checked statement** computes what the statement means. -/
theorem Statement.Runs.ensures {c : Code N ρ d G} (hc : st.Runs P ts c) :
    (Ensures mode c.program g fun a g' _ => ∃ ps', PlainStep dataParty ps st (some ps') ∧
      Represent layout (c.finish a) ps' ∧ Good g') ∧ ∀ i, OwnedBy i (c.program i) := by
  cases hc with
  | @create schema rows h =>
    refine ⟨Ensures.pure ⟨_, .create, hts.append ⟨fun _ => 0, schema, rfl, ?_⟩, hg⟩,
      fun _ => .pure _⟩
    exact Table.holds_ofShares schema h (fun _ => Encoding.Shares.zero) fun _ _ => Singles.zero
  | @secretShare schema rows columns partyId h hne =>
    have hvalue : ∀ j, Function.extend schema.get columns 0 (schema.get j) = columns j := fun j =>
      (List.nodup_iff_injective_get.mp h).extend_apply columns 0 j
    refine ⟨(Table.ensures_secretShare hP.toCorrect schema columns hst hg).mono
      fun x g' _ hx => ⟨_, .secretShare hvalue, hts.append ⟨_, [], rfl,
        Table.holds_ofShares schema h (fun j => ?_) nofun⟩, hx.2⟩, fun i =>
      Table.ownedBy_secretShare (hown i) _ _ _⟩
    exact (hvalue j).symm ▸ hx.1 j
  | @assign table name e t j u ht hj he hu =>
    obtain ⟨p, hp, value, names, rfl, hholds⟩ := exists_related hts ht
    obtain ⟨hrows, hgives, hnots⟩ := hst _ hp
    have hsize : u.size = t.rows := ColumnExpr.size_of_hasRows hts hu hrows
    obtain ⟨v, hv, hens⟩ := ColumnExpr.ensures_eval hP.toKeepsKind hts hu hnots fun h =>
      (hwithin h _ hp).trans_eq hsize.symm
    have hencoding : u.encoding = nameEncoding name :=
      (ColumnExpr.eval_encoding_iff hu he).mpr hgives
    refine ⟨(hens g hg).mono fun z g' _ hz => ?_, ColumnExpr.ownedBy_eval hown hu⟩
    obtain ⟨hshares, hsingles, hg'⟩ := hz
    obtain ⟨enc, size, prog⟩ := u
    obtain rfl : enc = nameEncoding name := hencoding
    obtain rfl : size = t.rows := hsize
    obtain rfl : t.names.get j = name := Table.find_eq_some_iff.mp hj
    exact ⟨_, .assign hp hv, related_set hts ⟨_, _, rfl, hholds.assign hshares hsingles⟩ table, hg'⟩
  | @call table method t m ht hm =>
    obtain ⟨p, hp, value, names, rfl, hholds⟩ := exists_related hts ht
    rcases computes_run hP hD hown hdata hg hholds method (hst _ hp) (hwithin _ hp) with
      hstops | ⟨m', hm', hens, hmown⟩
    · exact absurd ((hm 0).symm.trans (hstops 0)) (by simp)
    · obtain rfl : m' = m := funext fun i => Except.ok.inj ((hm' i).symm.trans (hm i))
      refine ⟨hens.mono fun M g' _ h => ?_, hmown⟩
      obtain ⟨⟨v, hv, hM⟩, hg'⟩ := h
      exact ⟨_, .call hp hv, related_set hts ⟨_, _, rfl, hholds.store hM⟩ table, hg'⟩

/-- **A checked statement runs into nothing undefined.** -/
theorem step_ne_none : ¬Step P mode g ts st g' none := by
  intro hs
  rcases step_none hs with ⟨table, method, t, i, rfl, ht, hm⟩ | ⟨c, hc, he⟩
  · obtain ⟨p, hp, value, names, rfl, hholds⟩ := exists_related hts ht
    rcases computes_run hP hD hown hdata hg hholds method (hst _ hp) (hwithin _ hp) with
      hstops | ⟨m', hm', -⟩
    · exact absurd (hm.symm.trans (hstops i)) (by simp)
    · exact absurd (hm.symm.trans (hm' i)) (by simp)
  · obtain ⟨hens, hcown⟩ := hc.ensures hP hD hown hdata hg hts hst hwithin
    exact hens.not_exitsWith hcown he

end Checked

/-- **A statement of the parties is a statement in the clear.** -/
theorem Step.means (hg : Good g) (hts : Represent layout ts ps) (hwithin : st.Within top least ps)
    (hs : Step P mode g ts st g' r) : ∃ o, PlainStep dataParty ps st o ∧
      ∀ ps', o = some ps' → ∃ ts', r = some ts' ∧ Represent layout ts' ps' ∧ Good g' := by
  by_cases hchecked : st.Checked dataParty ps
  swap
  · exact ⟨none, .unchecked hchecked, nofun⟩
  cases r with
  | none => exact absurd hs (step_ne_none hP hD hown hdata hg hts hchecked hwithin)
  | some ts' =>
    obtain ⟨c, a, sent, hc, hy, rfl⟩ := step_iff.mp hs
    obtain ⟨hens, hcown⟩ := hc.ensures hP hD hown hdata hg hts hchecked hwithin
    obtain ⟨ps', hplain, hrel, hg'⟩ := hens.holds hcown hy
    refine ⟨_, hplain, fun ps'' h => ?_⟩
    obtain rfl := Option.some.inj h
    exact ⟨_, rfl, hrel, hg'⟩

/-- **A run of the parties is a run in the clear**, as far as its sorts are by keys that agree in
`top` and its products have room. -/
theorem reaches_guardedProgram (hg : Good g) {s : (Fin N → G) × Option (List (Table N ρ d))}
    {h : List (Statement N ρ d)} (hr : (program P mode (fun _ _ => True) g).Reaches s h) :
    ∃ o, (guardedProgram N ρ d dataParty (Statement.Within top least)).Reaches o h ∧
      ∀ ps, o = some ps → ∃ ts, s.2 = some ts ∧ Represent layout ts ps ∧ Good s.1 := by
  refine hr.simulated (R := fun s o => ∀ ps, o = some ps →
    ∃ ts, s.2 = some ts ∧ Represent layout ts ps ∧ Good s.1) (fun ps hps => ?_) ?_
  · obtain rfl := Option.some.inj hps
    exact ⟨[], rfl, .nil, hg⟩
  · rintro s o e s' hrel ⟨ts, st, hs, rfl, -, hstep⟩
    cases o with
    | none => exact ⟨none, ⟨st, rfl, rfl⟩, nofun⟩
    | some ps =>
      by_cases hwithin : st.Within top least ps
      · obtain ⟨ts', hs', hts, hg'⟩ := hrel ps rfl
        obtain rfl := Option.some.inj (hs.symm.trans hs')
        obtain ⟨o', hplain, hrel'⟩ := hstep.means hP hD hown hdata hg' hts hwithin
        exact ⟨o', ⟨st, rfl, .inl ⟨hwithin, hplain⟩⟩, hrel'⟩
      · exact ⟨none, ⟨st, rfl, .inr ⟨hwithin, rfl⟩⟩, nofun⟩

omit hP in
/-- Protocols that compare all words and whose products need no room need no guard. -/
theorem reaches_plainProgram (hP : Protocol.CorrectBits P layout 0 dataParty Good mode)
    (hg : Good g) {s : (Fin N → G) × Option (List (Table N ρ d))} {h : List (Statement N ρ d)}
    (hr : (program P mode (fun _ _ => True) g).Reaches s h) :
    ∃ o, (plainProgram N ρ d dataParty).Reaches o h ∧ ∀ ps, o = some ps →
      ∃ ts, s.2 = some ts ∧ Represent layout ts ps ∧ Good s.1 := by
  rw [← guardedProgram_eq fun _ st => st.within_const (c := 0)]
  exact reaches_guardedProgram (comparesWithin hP) hD hown hdata hg hr

/-! ## Progress -/

section Progress

variable (hg : Good g) (hts : Represent layout ts ps) (hst : st.Checked dataParty ps)
variable (hwithin : st.Within top least ps)
include hg hts hst hwithin

/-- A checked statement stops all parties, or they run code. -/
theorem stops_or_runs : st.Stops P ts ∨ ∃ c, st.Runs P ts c := by
  cases st with
  | create schema rows =>
    by_cases h : schema.Nodup
    exacts [.inr ⟨_, .create h⟩, .inl h]
  | secretShare schema rows columns partyId =>
    by_cases hstops : ¬schema.Nodup ∨ schema = []
    · exact .inl hstops
    · obtain ⟨h, hne⟩ := not_or.mp hstops
      exact .inr ⟨_, .secretShare (not_not.mp h) hne⟩
  | assign table name x =>
    by_cases hstops : (Statement.assign table name x).Stops P ts
    · exact .inl hstops
    simp only [Statement.Stops, not_forall, not_or, not_not] at hstops
    obtain ⟨t, ht, hj, htemporary, hv⟩ := hstops
    obtain ⟨j, hj⟩ := Option.ne_none_iff_exists'.mp hj
    obtain ⟨v, hv⟩ := Option.ne_none_iff_exists'.mp hv
    exact .inr ⟨_, .assign ht hj htemporary hv⟩
  | call table method =>
    cases ht : ts[table]? with
    | none => exact .inl fun t h => absurd (ht.symm.trans h) (by simp)
    | some t =>
      obtain ⟨p, hp, value, names, rfl, hholds⟩ := exists_related hts ht
      rcases computes_run hP hD hown hdata hg hholds method (hst _ hp) (hwithin _ hp) with
        hstops | ⟨m, hm, -⟩
      · refine .inl fun t' h => ?_
        obtain rfl := Option.some.inj (ht.symm.trans h)
        exact hstops
      · exact .inr ⟨_, .call ht hm⟩

/-- **A checked statement stops all parties or has exactly one outcome**, in all interleavings. -/
theorem stops_or_steps : st.Stops P ts ∨ ∃ g' ts', Step P mode g ts st g' (some ts') ∧
    ∀ g'' r, Step P mode g ts st g'' r → g'' = g' ∧ r = some ts' := by
  rcases stops_or_runs hP hD hown hdata hg hts hst hwithin with hstops | ⟨c, hc⟩
  · exact .inl hstops
  obtain ⟨hens, hcown⟩ := hc.ensures hP hD hown hdata hg hts hst hwithin
  obtain ⟨a, g₁, sent, hy, -⟩ := hens
  refine .inr ⟨_, _, step_iff.mpr ⟨c, a, sent, hc, hy, rfl⟩, fun g'' r hs => ?_⟩
  cases r with
  | none => exact absurd hs (step_ne_none hP hD hown hdata hg hts hst hwithin)
  | some ts' =>
    obtain ⟨c', a', sent', hc', hy', rfl⟩ := step_iff.mp hs
    obtain rfl := hc.unique hc'
    obtain ⟨rfl, rfl⟩ := Ensures.unique hy hy' hcown
    exact ⟨rfl, rfl⟩

end Progress

omit [NeZero N] hP hD hown hdata in
/-- What is held is opened. -/
theorem Table.Represents.opensTo {t : Table N ρ d} {p : PlainTable d} (hp : t.Represents layout p)
    (hR : Protocol.Replicates P layout least dataParty Good mode)
    (hown : ∀ i, Protocol.OwnedBy i (P i)) : t.OpensTo P mode g p.plaintexts := by
  have hplaintexts := hp.plaintexts
  obtain ⟨value, names, -, hholds⟩ := hp
  rw [← hplaintexts]
  exact hholds.intact.opensRight hR hown

end Steps

/-! ## Three parties -/

section Three

variable {S : Type} {nrand48 : S → BitVec 64 × S} {g : Fin 3 → PseudoRandomGenerator nrand48}
variable {s : (Fin 3 → PseudoRandomGenerator nrand48) × Option (List (Table 3 2 d))}
variable {h : List (Statement 3 2 d)}

/-- **Three parties compute what their program means**, with the generators of the runtime: a run is
a run in the clear of the same statements, and unless one of these was not checked, all tables open
to what they have there, at every party and in every interleaving. -/
theorem tables_mean (hg : Replicated3pc.SeedsAgree g)
    (hr : (program (Replicated3pc.parties d nrand48) mode (fun _ _ => True) g).Reaches s h) :
    ∃ o, (plainProgram 3 2 d fun _ => True).Reaches o h ∧ ∀ ps, o = some ps →
      ∃ ts, s.2 = some ts ∧ List.Forall₂ (fun t p =>
        t.OpensTo (Replicated3pc.parties d nrand48) mode s.1 p.plaintexts) ts ps := by
  obtain ⟨o, ho, hrel⟩ := reaches_plainProgram Replicated3pc.divides_seedsAgree
    Replicated3pc.ownedBy_protocol trivial Replicated3pc.correctBits_seedsAgree hg hr
  refine ⟨o, ho, fun ps hps => ?_⟩
  obtain ⟨ts, hs, hts, -⟩ := hrel ps hps
  exact ⟨ts, hs, hts.imp fun t p hp => hp.opensTo Replicated3pc.replicates
    Replicated3pc.ownedBy_protocol⟩

/-- Yield the seed, and count on. -/
def counter (s : BitVec 64) : BitVec 64 × BitVec 64 := (s, s + 1)

/-- The seeds of the runtime. -/
def zeroSeeds (_ : Fin 3) : PseudoRandomGenerator counter := ⟨fun _ => 0⟩

theorem tables_mean_selfXor : ∃ o, (plainProgram 3 2 .int8_t fun _ => True).Reaches o
      [.create ["a", "[b]"] 1, .assign 0 "[b]" selfXor] ∧ ∀ ps, o = some ps →
    ∃ ts, some [assigned (Replicated3pc.parties .int8_t counter) 1] = some ts ∧
      List.Forall₂ (fun t p => t.OpensTo (Replicated3pc.parties .int8_t counter) .rendezvous
        zeroSeeds p.plaintexts) ts ps :=
  tables_mean (s := (zeroSeeds, some [assigned _ 1])) (fun _ => rfl)
    (reaches_assigned _ 1 trivial trivial)

end Three

end Tva.Relational
