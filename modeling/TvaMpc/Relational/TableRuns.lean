import TvaMpc.Relational.TableShape

/-!
# Relational/TableRuns — the tables of a program stay intact

Whatever a program does with its tables, they stay intact (`keepsTables_of_fits`) as long as its
statements fit: `convert_a2b`, `convert_b2a_bit` and `distinct` cast without an assertion, and an
assignment takes over whatever the expression is (`assign_shaped_iff`).  A boolean expression in a
column whose name is not in brackets leaves `bShare` false for a B-shared vector.  With four parties
the statements need `Room`, too: products of one or two rows write behind their masks.
-/

namespace Tva.Relational

open Machinery Operators EncodedTable

variable {N ρ n least : ℕ} {d : DataType} {G : Type}

/-- **The statements that fit**: shared by a party from which sharing works; assigned with the
encoding that `bShare` records and the size of the table; called on the classes they cast to. -/
def Statement.Fits (dataParty : Fin N → Prop) (ts : List (Table N ρ d)) :
    Statement N ρ d → Prop
  | create _ _ => True
  | secretShare _ _ _ partyId => dataParty partyId
  | assign table name x => ∀ t, ts[table]? = some t → x.SizedIn ts t.rows ∧
      ∀ j, t.find name = some j → x.Gives (if t.bShare j then .bShared else .aShared)
  | call table method => ∀ t, ts[table]? = some t → method.Fits t.view

/-- **The statements whose products have room** for their masks. -/
def Statement.Room (least : ℕ) (ts : List (Table N ρ d)) : Statement N ρ d → Prop
  | create _ _ | secretShare _ _ _ _ => True
  | assign table _ x => x.multiplies = true → ∀ t, ts[table]? = some t → least ≤ t.rows
  | call table method => ∀ t, ts[table]? = some t → method.Room least t.rows

/-- Without masks there is room for them. -/
theorem Statement.room_zero (ts : List (Table N ρ d)) (st : Statement N ρ d) : st.Room 0 ts := by
  cases st with
  | create | secretShare => trivial
  | assign => exact fun _ _ _ => Nat.zero_le _
  | call table method => exact fun t _ => method.room_zero t.rows

theorem Table.ownedBy_secretShare {i : Fin N} {Q : Protocol N ρ d G} (hQ : Protocol.OwnedBy i Q)
    (schema : List String) (columns : Fin schema.length → Vec n d) (partyId : Fin N) :
    OwnedBy i (Table.secretShare Q schema columns partyId) := by
  unfold Table.secretShare
  refine Protocol.OwnedBy.foldlM (fun _ j => ?_) _ _
  split
  exacts [(hQ.secretShareB _ _).bind fun _ => .pure _,
    (hQ.secretShareA _ _).bind fun _ => .pure _]

/-! ## Assignments -/

namespace Table

variable {t : Table N ρ d} {j : Fin t.names.length} {v : EncodedVector N ρ d}

/-- An assigned table has its shape exactly if the new column has. -/
theorem Shaped.assign_iff (ht : t.Shaped) : (t.assign j v).Shaped ↔
    v.size = t.rows ∧ (t.bShare j = true ↔ v.encoding = .bShared) := by
  have hself : (t.assign j v).columns j = sharedColumn v := Function.update_self ..
  constructor
  · intro h
    have hsize := h.size j
    have hbShare := h.bShare j
    rw [hself] at hsize hbShare
    exact ⟨hsize, hbShare⟩
  · rintro ⟨hsize, hbShare⟩
    have hother : ∀ {k}, k ≠ j → (t.assign j v).columns k = t.columns k :=
      fun hk => Function.update_of_ne hk ..
    refine ⟨fun k => ?_, fun k => ?_⟩ <;> rcases eq_or_ne k j with hk | hk
    · rw [hk, hself]
      exact hsize
    · rw [hother hk]
      exact ht.size k
    · rw [hk, hself]
      exact hbShare
    · rw [hother hk]
      exact ht.bShare k

end Table

section Assign

variable {P : Fin N → Protocol N ρ d G} {ts : List (Table N ρ d)}

/-- `bShare` records the encoding of the new column exactly if the expression gives it. -/
theorem bShare_iff_gives {t : Table N ρ d} {j : Fin t.names.length} {x : ColumnExpr}
    {v : Pending N ρ d G} (hx : x.IsTemporary) (hv : x.eval P ts = some v) :
    (t.bShare j = true ↔ v.encoding = .bShared) ↔
      x.Gives (if t.bShare j then .bShared else .aShared) := by
  rw [← ColumnExpr.eval_encoding_iff hv hx]
  cases t.bShare j <;> cases v.encoding <;> simp

/-- **An assignment keeps the shape exactly if it fits.** -/
theorem assign_shaped_iff (hts : ∀ t ∈ ts, t.Shaped) {table : ℕ} {name : String} {x : ColumnExpr}
    {t : Table N ρ d} {j : Fin t.names.length} {v : Pending N ρ d G}
    {z : Fin N → EVector ρ v.size d} (ht : ts[table]? = some t) (hj : t.find name = some j)
    (hx : x.IsTemporary) (hv : x.eval P ts = some v) :
    (t.assign j ⟨v.encoding, v.size, z⟩).Shaped ↔
      (Statement.assign table name x).Fits (fun _ => True) ts := by
  rw [(hts t (List.mem_of_getElem? ht)).assign_iff, ColumnExpr.eval_size_iff hts hv,
    bShare_iff_gives hx hv]
  constructor
  · rintro ⟨hsize, hgives⟩ t' ht'
    obtain rfl := Option.some.inj (ht.symm.trans ht')
    refine ⟨hsize, fun j' hj' => ?_⟩
    obtain rfl := Option.some.inj (hj.symm.trans hj')
    exact hgives
  · intro hfits
    exact ⟨(hfits t ht).1, (hfits t ht).2 j hj⟩

theorem forall_mem_set {p : Table N ρ d → Prop} (hts : ∀ t ∈ ts, p t) {t : Table N ρ d} (ht : p t)
    (table : ℕ) : ∀ t' ∈ ts.set table t, p t' := fun t' ht' =>
  (List.mem_or_eq_of_mem_set ht').elim (hts t') fun h => h ▸ ht

end Assign

/-! ## Steps -/

section Steps

variable [NeZero ρ] {layout : Fin N → Fin ρ → Fin N}
variable {P : Fin N → Protocol N ρ d G} {dataParty : Fin N → Prop} {Good : (Fin N → G) → Prop}
variable {mode : SendMode} {g g' : Fin N → G} {ts : List (Table N ρ d)} {st : Statement N ρ d}
variable {r : Option (List (Table N ρ d))}

namespace Table

theorem intact_ofShares (schema : List String) (h : schema.Nodup)
    {x : Fin N → Fin schema.length → EVector ρ n d} (hx : ∀ j, Replicated layout fun i => x i j) :
    (ofShares schema h x).Intact layout where
  size _ := rfl
  bShare j := by
    change isBShared (schema.get j) = true ↔
      (if isBShared (schema.get j) then Encoding.bShared else .aShared) = .bShared
    split <;> simp_all
  replicated := hx

theorem keeps_secretShare (hP : Protocol.Replicates P layout least dataParty Good mode)
    (schema : List String) (columns : Fin schema.length → Vec n d) {partyId : Fin N}
    (hp : dataParty partyId) :
    Keeps mode Good (fun x : Fin N → Fin schema.length → EVector ρ n d =>
      ∀ j, Replicated layout fun i => x i j)
      fun i => secretShare (P i) schema columns partyId := by
  refine Keeps.foldlM (R := fun x : Fin N → Fin schema.length → EVector ρ n d =>
    ∀ j, Replicated layout fun i => x i j) _ (fun _ => .const 0) fun j _ cols hcols => ?_
  have hupdate : ∀ v : Fin N → EVector ρ n d, Replicated layout v → ∀ k,
      Replicated layout fun i => Function.update (cols i) j (v i) k := fun v hv k => by
    rcases eq_or_ne k j with rfl | hk
    · simpa only [Function.update_self] using hv
    · simpa only [Function.update_of_ne hk] using hcols k
  split
  exacts [(hP.secretShareB hp _).bind fun v hv => .pure (hupdate v hv),
    (hP.secretShareA hp _).bind fun v hv => .pure (hupdate v hv)]

variable {t : Table N ρ d} {j : Fin t.names.length} {v : EncodedVector N ρ d}

theorem Intact.assign (ht : t.Intact layout) (hsize : v.size = t.rows)
    (hbShare : t.bShare j = true ↔ v.encoding = .bShared) (hv : Replicated layout v.shares) :
    (t.assign j v).Intact layout where
  toShaped := ht.toShaped.assign_iff.mpr ⟨hsize, hbShare⟩
  replicated k := by
    rcases eq_or_ne k j with hk | hk
    · have hself : (t.assign j v).columns k = sharedColumn v := hk ▸ Function.update_self ..
      rw [hself]
      exact hv
    · have hother : (t.assign j v).columns k = t.columns k := Function.update_of_ne hk ..
      rw [hother]
      exact ht.replicated k

end Table

variable [NeZero N]

section Step

variable (hP : Protocol.Replicates P layout least dataParty Good mode)
variable (hown : ∀ i, Protocol.OwnedBy i (P i)) (hdef : ∀ i, Protocol.NeverUndefined least (P i))
variable (hdata : dataParty 0) (hts : ∀ t ∈ ts, t.Intact layout) (hfits : st.Fits dataParty ts)
variable (hroom : st.Room least ts)
include hP hown hdef hdata hts hfits hroom

/-- A method that fits stops, keeps the copies equal or traps. -/
theorem settles_run {table : ℕ} {method : Method N ρ d} {t : Table N ρ d}
    (hst : st = .call table method) (ht : ts[table]? = some t) :
    Settles layout mode Good (fun i => method.run (P i) i t) ∨
      TrapsInside fun i => method.run (P i) i t := by
  subst hst
  have hintact := hts t (List.mem_of_getElem? ht)
  simp only [Method.run, dif_pos hintact.size]
  exact settles_call hP hown hintact.memory t.view hdata hdef method (hfits t ht) (hroom t ht)

omit hdef hdata [NeZero N] in
/-- An expression that fits is replicated. -/
theorem keeps_assigned {table : ℕ} {name : String} {x : ColumnExpr} {t : Table N ρ d}
    {v : Pending N ρ d G} (hst : st = .assign table name x) (ht : ts[table]? = some t)
    (hv : x.eval P ts = some v) :
    v.size = t.rows ∧ Keeps mode Good (Replicated layout) v.program ∧
      ∀ i, OwnedBy i (v.program i) := by
  subst hst
  have hsize : v.size = t.rows :=
    (ColumnExpr.eval_size_iff (fun t ht => (hts t ht).toShaped) hv).mpr (hfits t ht).1
  exact ⟨hsize, ColumnExpr.keeps_eval hP hts hv fun h => (hroom h t ht).trans_eq hsize.symm,
    ColumnExpr.ownedBy_eval hown hv⟩

/-- **The code of a statement** that fits writes to no place outside of a vector. -/
theorem Statement.Runs.not_exitsWith (hg : Good g) {c : Code N ρ d G} (hc : st.Runs P ts c) :
    ¬ExitsWith mode (fun i => (c.program i).run (g i)) .undefined := by
  cases hc with
  | create => exact not_exitsWith_of_avoids fun _ => trivial
  | secretShare h hne =>
    exact (Table.keeps_secretShare hP _ _ hfits g hg).not_exitsWith fun i =>
      Table.ownedBy_secretShare (hown i) _ _ _
  | assign ht _ _ hv =>
    obtain ⟨-, hkeeps, hvown⟩ := keeps_assigned hP hown hts hfits hroom rfl ht hv
    exact (hkeeps g hg).not_exitsWith hvown
  | @call table method t m ht hm =>
    rcases settles_run hP hown hdef hdata hts hfits hroom rfl ht with hsettles | htraps
    · obtain ⟨hkeeps, hmown⟩ := hsettles.keeps hm
      exact (hkeeps g hg).not_exitsWith hmown
    · obtain ⟨m', hm', -, hinside⟩ := htraps
      obtain rfl : m' = m := funext fun i => Except.ok.inj ((hm' i).symm.trans (hm i))
      exact not_exitsWith_of_avoids fun i => hinside i (g i)

/-- **One statement** that fits keeps all tables intact. -/
theorem Step.intact (hg : Good g) (hs : Step P mode g ts st g' r) :
    ∃ ts', r = some ts' ∧ Good g' ∧ ∀ t ∈ ts', t.Intact layout := by
  cases hs with
  | create h =>
    exact ⟨_, rfl, hg, List.forall_mem_append.mpr
      ⟨hts, List.forall_mem_singleton.mpr (Table.intact_ofShares _ h fun _ => .const _)⟩⟩
  | secretShare h _ hy =>
    obtain ⟨hx, hg'⟩ := (Table.keeps_secretShare hP _ _ hfits).holds hg
      (fun i => Table.ownedBy_secretShare (hown i) _ _ _) hy
    exact ⟨_, rfl, hg', List.forall_mem_append.mpr
      ⟨hts, List.forall_mem_singleton.mpr (Table.intact_ofShares _ h hx)⟩⟩
  | @assign table name x t j v _ z _ ht hj hx hv hy =>
    obtain ⟨hsize, hkeeps, hvown⟩ := keeps_assigned hP hown hts hfits hroom rfl ht hv
    obtain ⟨hz, hg'⟩ := hkeeps.holds hg hvown hy
    have hbShare := (bShare_iff_gives hx hv).mpr ((hfits t ht).2 j hj)
    exact ⟨_, rfl, hg', forall_mem_set hts
      ((hts t (List.mem_of_getElem? ht)).assign hsize hbShare hz) table⟩
  | @call table method t m M _ _ ht hm hy =>
    rcases settles_run hP hown hdef hdata hts hfits hroom rfl ht with hsettles | htraps
    · obtain ⟨hkeeps, hmown⟩ := hsettles.keeps hm
      obtain ⟨hM, hg'⟩ := hkeeps.holds hg hmown hy
      exact ⟨_, rfl, hg', forall_mem_set hts
        ((hts t (List.mem_of_getElem? ht)).store hM) table⟩
    · obtain ⟨m', hm', htrapped, -⟩ := htraps
      obtain rfl : m' = m := funext fun i => Except.ok.inj ((hm' i).symm.trans (hm i))
      exact (htrapped.not_yields hy).elim
  | @undefined table method t i ht hm =>
    rcases settles_run hP hown hdef hdata hts hfits hroom rfl ht with hsettles | ⟨m', hm', -⟩
    · exact (hsettles.ne_undefined i hm).elim
    · exact absurd ((hm' i).symm.trans hm) (by simp)
  | ruined hc he =>
    exact (hc.not_exitsWith hP hown hdef hdata hts hfits hroom hg he).elim

end Step

/-- **The tables of a program keep their shape**: in every run from good generators, as far as the
statements meet the condition, all tables are shaped and open to their plaintexts. -/
def KeepsTables (P : Fin N → Protocol N ρ d G) (mode : SendMode) (Good : (Fin N → G) → Prop)
    (Meets : List (Table N ρ d) → Statement N ρ d → Prop) : Prop :=
  ∀ g, Good g → ∀ s h, (program P mode Meets g).Reaches s h →
    ∃ ts, s.2 = some ts ∧ ∀ t ∈ ts, t.Shaped ∧ t.OpensRight P mode s.1

/-- A smaller condition on the statements leaves fewer runs. -/
theorem KeepsTables.mono {Meets Meets' : List (Table N ρ d) → Statement N ρ d → Prop}
    (h : KeepsTables P mode Good Meets) (hmeets : ∀ ts st, Meets' ts st → Meets ts st) :
    KeepsTables P mode Good Meets' := fun g hg s hist hr => by
  refine h g hg s hist ?_
  induction hr with
  | init => exact .init
  | step _ hs ih =>
    obtain ⟨ts, st, hsome, hst, hm, hstep⟩ := hs
    exact ih.step ⟨ts, st, hsome, hst, hmeets ts st hm, hstep⟩

end Steps

theorem nodup_names : ["a", "[b]"].Nodup := by decide

/-- One row of zeros. -/
def oneRow (N ρ : ℕ) : Table N ρ .int8_t := .create ["a", "[b]"] nodup_names 1

/-- `table["[b]"] ^ table["[b]"]`. -/
def selfXor : ColumnExpr := .binary .xor (.column 0 "[b]") (.column 0 "[b]")

section SelfXor

variable (P : Fin N → Protocol N ρ .int8_t G) {mode : SendMode} {g : Fin N → G}

/-- The table after one of its columns has become `selfXor`. -/
def assigned (j : Fin 2) : Table N ρ .int8_t :=
  (oneRow N ρ).assign j ⟨.bShared, 1, fun i => (P i).xorB (fun _ _ => 0) fun _ _ => 0⟩

theorem eval_selfXor : selfXor.eval P [oneRow N ρ] = some ⟨.bShared, 1, fun i => do
    let x ← (pure fun _ _ => 0 : PartyM N .int8_t G (EVector ρ 1 .int8_t))
    let y ← (pure fun _ _ => 0 : PartyM N .int8_t G (EVector ρ 1 .int8_t))
    pure ((P i).xorB x y)⟩ := by
  have hfind : (oneRow N ρ).find "[b]" = some (1 : Fin 2) := Table.find_eq_some_iff.mpr rfl
  simp only [selfXor, ColumnExpr.eval, List.getElem?_cons_zero, hfind, Option.bind_eq_bind,
    Option.bind_some]
  rfl

variable [NeZero N]

theorem reaches_assigned {Meets : List (Table N ρ .int8_t) → Statement N ρ .int8_t → Prop}
    (j : Fin 2) (hcreate : Meets [] (.create ["a", "[b]"] 1))
    (hassign : Meets [oneRow N ρ] (.assign 0 (["a", "[b]"].get j) selfXor)) :
    (program P mode Meets g).Reaches (g, some [assigned P j])
      [.create ["a", "[b]"] 1, .assign 0 (["a", "[b]"].get j) selfXor] := by
  have hfirst : (program P mode Meets g).Step (g, some []) (some (.create ["a", "[b]"] 1))
      (g, some [oneRow N ρ]) := ⟨[], _, rfl, rfl, hcreate, .create nodup_names⟩
  have hfind : (oneRow N ρ).find (["a", "[b]"].get j) = some j := Table.find_eq_some_iff.mpr rfl
  have htemporary : selfXor.IsTemporary := trivial
  have hyields : Yields mode (fun i => do
      let x ← (pure fun _ _ => 0 : PartyM N .int8_t G (EVector ρ 1 .int8_t))
      let y ← (pure fun _ _ => 0 : PartyM N .int8_t G (EVector ρ 1 .int8_t))
      pure ((P i).xorB x y)) g (fun i => (P i).xorB (fun _ _ => 0) fun _ _ => 0) g fun _ => [] :=
    Yields.of_run fun _ => rfl
  have hsecond : (program P mode Meets g).Step (g, some [oneRow N ρ])
      (some (.assign 0 (["a", "[b]"].get j) selfXor)) (g, some [assigned P j]) :=
    ⟨_, _, rfl, rfl, hassign, .assign rfl hfind htemporary (eval_selfXor P) hyields⟩
  exact (System.Reaches.init.step hfirst).step hsecond

end SelfXor

end Tva.Relational
