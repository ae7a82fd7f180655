import TvaMpc.Relational.Fantastic4pcTables
import TvaMpc.Relational.GroupedRows
import TvaMpc.Relational.Reasoning
import TvaMpc.Relational.Replicated3pcHides

/-!
# Queries/Cloud — the tasks of a session

`cloud.cpp` counts the events of type `0` in each session of each machine type, where a session ends
with a gap of more than `10`.  `IsCloudAnswer` says which tables are an answer, without a sort or a
scan, and three parties open one (`cloudQuery_answers`).  On the way every party learns which events
are counted (`cloudQuery_reveals`).
-/

namespace Tva.Queries

open Machinery Operators Relational

variable {N ρ n k least : ℕ}

/-! ## The query -/

/-- The columns of `cloud_table`. -/
def cloudSchema : List String :=
  ["[TIMESTAMP]", "TIMESTAMP", "[MACHINE_TYPE]", "[EVENT_TYPE]", "[JOB_ID]", "[SEL]", "SEL",
    "[GAP_WINDOW]", "TOTAL_TASKS_PER_SESSION"]

/-- `main`: the statements on `cloud_table` and on `constant_table`, with any data. -/
def cloudQuery [NeZero N] (cloudData : String → Vec n .int32_t)
    (pastEnd : Fin N → Fin ρ → Word .int32_t) : List (Statement N ρ .int32_t) :=
  [.secretShare cloudSchema n (fun j => cloudData (cloudSchema.get j)) 0,
    .secretShare ["[ZERO]"] n (fun _ => 0) 0,
    .assign 0 "[SEL]" (.binary .eq (.column 0 "[EVENT_TYPE]") (.column 1 "[ZERO]")),
    .call 0 (.convertB2aBit "[SEL]" "SEL"),
    .call 0 (.sortColumns ["[MACHINE_TYPE]", "[TIMESTAMP]"] [false, false] ["TIMESTAMP", "SEL"]),
    .call 0 (.gapSessionWindow ["[MACHINE_TYPE]"] "TIMESTAMP" "[TIMESTAMP]" "[GAP_WINDOW]" 10
      pastEnd false),
    .call 0 (.oddEvenAggregation ["[MACHINE_TYPE]", "[GAP_WINDOW]"] ["SEL"]
      ["TOTAL_TASKS_PER_SESSION"] .sum false false)]

/-- **The answers**: the events in the order of their machine types, and of their times within a
type.  With an event comes the number of tasks in its session from there on.  Types and jobs of the
events are not sorted: they stay in the rows of the input. -/
structure IsCloudAnswer (cloudData value : String → Vec n .int32_t) (σ : Equiv.Perm (Fin n)) :
    Prop where
  machine (r : Fin n) : value "[MACHINE_TYPE]" r = cloudData "[MACHINE_TYPE]" (σ r)
  time (r : Fin n) : value "[TIMESTAMP]" r = cloudData "[TIMESTAMP]" (σ r)
  machines_ascend {r s : Fin n} (h : r ≤ s) :
    (value "[MACHINE_TYPE]" r).toInt ≤ (value "[MACHINE_TYPE]" s).toInt
  times_ascend {r s : Fin n} (h : r ≤ s)
    (hsame : value "[MACHINE_TYPE]" r = value "[MACHINE_TYPE]" s) :
    (value "[TIMESTAMP]" r).toInt ≤ (value "[TIMESTAMP]" s).toInt
  total (r : Fin n) : value "TOTAL_TASKS_PER_SESSION" r = ((Finset.univ.filter fun s =>
    (r ≤ s ∧ value "[MACHINE_TYPE]" r = value "[MACHINE_TYPE]" s ∧
      NoGapUpTo (value "[TIMESTAMP]") 10 r s) ∧
    cloudData "[EVENT_TYPE]" (σ s) = 0).card : Word .int32_t)
  unsorted : ∀ name ∈ ["[EVENT_TYPE]", "[JOB_ID]"], value name = cloudData name

/-! ## The tables in the clear -/

section Clear

variable {cloudData v u w value : String → Vec n .int32_t}

section Session

variable (hn : n = 2 ^ k)
variable (hu : Monotone (keysAt u [("[MACHINE_TYPE]", false), ("[TIMESTAMP]", false)]))
variable (htime : u "TIMESTAMP" = u "[TIMESTAMP]") (hgap : GapTimes (u "[TIMESTAMP]") 10)
variable (hw : w = Function.update u "[GAP_WINDOW]"
  (gapIds u ["[MACHINE_TYPE]"] "TIMESTAMP" "[TIMESTAMP]" 10))
include hn hu htime hgap hw

/-- The rows of a session have the same keys. -/
theorem sameValues_session {r s : Fin n} (hrs : r ≤ s) :
    SameValues w ["[MACHINE_TYPE]", "[GAP_WINDOW]"] r s ↔
      u "[MACHINE_TYPE]" r = u "[MACHINE_TYPE]" s ∧ NoGapUpTo (u "[TIMESTAMP]") 10 r s := by
  have htogether : Together u ["[MACHINE_TYPE]"] :=
    together_of_monotone (p := [("[MACHINE_TYPE]", false)]) hu
  have hsame : ∀ {r s : Fin n}, SameValues u ["[MACHINE_TYPE]"] r s ↔
      u "[MACHINE_TYPE]" r = u "[MACHINE_TYPE]" s := by simp [SameValues]
  have hids : SameValues w ["[MACHINE_TYPE]", "[GAP_WINDOW]"] r s ↔
      u "[MACHINE_TYPE]" r = u "[MACHINE_TYPE]" s ∧
        gapIds u ["[MACHINE_TYPE]"] "TIMESTAMP" "[TIMESTAMP]" 10 r
          = gapIds u ["[MACHINE_TYPE]"] "TIMESTAMP" "[TIMESTAMP]" 10 s := by
    simp [SameValues, hw]
  rw [hids]
  refine and_congr_right fun h => ?_
  exact gapIds_eq_iff hn htogether htime hgap (fun r s hrs h =>
    ascending_of_monotone (p := [("[MACHINE_TYPE]", false)]) hu hrs h) hrs (hsame.mpr h)

theorem together_session : Together w ["[MACHINE_TYPE]", "[GAP_WINDOW]"] := by
  intro r s t hrs hst hrt
  rw [sameValues_session hn hu htime hgap hw (hrs.trans hst)] at hrt
  rw [sameValues_session hn hu htime hgap hw hrs]
  refine ⟨?_, fun m m' hm hm' hle => hrt.2 m m' hm hm' (hle.trans hst)⟩
  have htogether := together_of_monotone (p := [("[MACHINE_TYPE]", false)]) hu
  exact htogether r s t hrs hst (by simpa [SameValues] using hrt.1) _ List.mem_cons_self

/-- The aggregates are the tasks of the session from a row on. -/
theorem total_session {p : Fin n → Prop} [DecidablePred p]
    (hsel : u "SEL" = fun s => if p s then 1 else 0)
    (hvalue : Aggregates w .sum false ["[MACHINE_TYPE]", "[GAP_WINDOW]"]
      [("SEL", "TOTAL_TASKS_PER_SESSION")] value) (r : Fin n) :
    value "TOTAL_TASKS_PER_SESSION" r = ((Finset.univ.filter fun s =>
      (r ≤ s ∧ u "[MACHINE_TYPE]" r = u "[MACHINE_TYPE]" s ∧
        NoGapUpTo (u "[TIMESTAMP]") 10 r s) ∧ p s).card : Word .int32_t) := by
  have htotal : value "TOTAL_TASKS_PER_SESSION" r
      = ∑ s ∈ rowsFrom w ["[MACHINE_TYPE]", "[GAP_WINDOW]"] false r, w "SEL" s := by
    rw [hvalue.1 _ List.mem_cons_self]
    exact aggregate_scanRows .sum hn (together_session hn hu htime hgap hw) false (w "SEL") r
  have hrows : rowsFrom w ["[MACHINE_TYPE]", "[GAP_WINDOW]"] false r
      = Finset.univ.filter fun s => r ≤ s ∧ u "[MACHINE_TYPE]" r = u "[MACHINE_TYPE]" s ∧
        NoGapUpTo (u "[TIMESTAMP]") 10 r s := by
    ext s
    simp only [rowsFrom, Finset.mem_filter, Finset.mem_univ, true_and, Bool.false_eq_true, if_false]
    rw [and_comm]
    exact and_congr_right fun hrs => sameValues_session hn hu htime hgap hw hrs
  have hw_sel : w "SEL" = fun s => if p s then 1 else 0 := by simp [hw, hsel]
  rw [htotal, hrows, hw_sel, Finset.sum_boole, Finset.filter_filter]

end Session

/-- **Sort, window and aggregation make an answer.** -/
theorem exists_isCloudAnswer (hn : n = 2 ^ k)
    (hmachine : v "[MACHINE_TYPE]" = cloudData "[MACHINE_TYPE]")
    (htimeB : v "[TIMESTAMP]" = cloudData "[TIMESTAMP]") (htime : v "TIMESTAMP" = v "[TIMESTAMP]")
    (hsel : v "SEL" = fun s => if cloudData "[EVENT_TYPE]" s = 0 then 1 else 0)
    (hkept : ∀ name ∈ ["[EVENT_TYPE]", "[JOB_ID]"], v name = cloudData name)
    (hgap : GapTimes (cloudData "[TIMESTAMP]") 10)
    (hsort : Sorts v [("[MACHINE_TYPE]", false), ("[TIMESTAMP]", false)] (fun name =>
      name ∈ ["[MACHINE_TYPE]", "[TIMESTAMP]"] ∨ name ∈ ["TIMESTAMP", "SEL"]) u)
    (hw : w = Function.update u "[GAP_WINDOW]"
      (gapIds u ["[MACHINE_TYPE]"] "TIMESTAMP" "[TIMESTAMP]" 10))
    (hvalue : Aggregates w .sum false ["[MACHINE_TYPE]", "[GAP_WINDOW]"]
      [("SEL", "TOTAL_TASKS_PER_SESSION")] value) : ∃ σ, IsCloudAnswer cloudData value σ := by
  have hu : Monotone (keysAt u [("[MACHINE_TYPE]", false), ("[TIMESTAMP]", false)]) :=
    hsort.monotone (by simp)
  obtain ⟨σ, -, hmoved⟩ := hsort
  have hu_machine : u "[MACHINE_TYPE]" = fun r => cloudData "[MACHINE_TYPE]" (σ r) := by
    rw [(hmoved _).1 (by simp), hmachine]
  have hu_timeB : u "[TIMESTAMP]" = fun r => cloudData "[TIMESTAMP]" (σ r) := by
    rw [(hmoved _).1 (by simp), htimeB]
  have hu_time : u "TIMESTAMP" = u "[TIMESTAMP]" := by
    rw [(hmoved _).1 (by simp), htime, htimeB, hu_timeB]
  have hu_sel : u "SEL" = fun r => if cloudData "[EVENT_TYPE]" (σ r) = 0 then 1 else 0 := by
    rw [(hmoved _).1 (by simp), hsel]
  have hu_gap : GapTimes (u "[TIMESTAMP]") 10 := by
    rw [hu_timeB]
    exact ⟨fun r => hgap.nonneg _, hgap.gap_nonneg, fun r => hgap.bound _⟩
  have hsame : ∀ name, name ≠ "TOTAL_TASKS_PER_SESSION" → name ≠ "[GAP_WINDOW]" →
      value name = u name := by
    intro name htotal hwindow
    rw [hvalue.2 name (by simpa using htotal), hw, Function.update_of_ne hwindow]
  have hmachines := hsame "[MACHINE_TYPE]" (by decide) (by decide)
  have htimes := hsame "[TIMESTAMP]" (by decide) (by decide)
  refine ⟨σ, ?_, ?_, ?_, ?_, ?_, ?_⟩
  · exact fun r => congrFun (hmachines.trans hu_machine) r
  · exact fun r => congrFun (htimes.trans hu_timeB) r
  · intro r s hrs
    rw [hmachines]
    exact ascending_of_monotone (p := []) hu hrs nofun
  · intro r s hrs hsame
    rw [hmachines] at hsame
    rw [htimes]
    exact ascending_of_monotone (p := [("[MACHINE_TYPE]", false)]) hu hrs
      (by simpa [SameValues] using hsame)
  · intro r
    rw [hmachines, htimes]
    exact total_session hn hu hu_time hu_gap hw hu_sel hvalue r
  · intro name hname
    have hunmoved : u name = v name := by
      refine (hmoved name).2 ?_
      revert name
      decide
    rw [hsame name (by rintro rfl; simp at hname) (by rintro rfl; simp at hname), hunmoved,
      hkept name hname]

end Clear

section Ends

variable [NeZero N] {top : Word .int32_t → Word .int32_t} {dataParty : Fin N → Prop}
variable (hdata : dataParty 0)
include hdata

/-- The first statements select the tasks. -/
theorem ends_selection (cloudData : String → Vec n .int32_t)
    (pastEnd : Fin N → Fin ρ → Word .int32_t) (hroom : least ≤ n) :
    Ends top least dataParty (fun ps => ∃ value names zeros,
      ps = [⟨cloudSchema, n, value, names⟩, zeros] ∧
        (∀ name ∈ cloudSchema, name ≠ "[SEL]" → value name = cloudData name) ∧
        value "[SEL]" = bits .int32_t fun s => decide (cloudData "[EVENT_TYPE]" s = 0))
      ((cloudQuery cloudData pastEnd).take 3) [] := by
  refine .secretShare hdata (by decide) (by decide) fun v hv => ?_
  refine .secretShare hdata (by decide) (by decide) fun z hz => ?_
  have hname : ∀ name ∈ cloudSchema, v name = cloudData name := by
    intro name hname
    obtain ⟨j, rfl⟩ := List.get_of_mem hname
    exact hv j
  refine .assign rfl (by decide : "[SEL]" ∈ cloudSchema) trivial ?_ ?_ ⟨trivial, trivial⟩
    (fun _ => hroom) fun sel hsel => ⟨_, _, _, rfl, fun name hmem hne => ?_, ?_⟩
  · exact ⟨fun t ht => Option.some.inj ht ▸ rfl, fun t ht => Option.some.inj ht ▸ rfl⟩
  · exact ⟨⟨_, rfl, (by decide : "[EVENT_TYPE]" ∈ cloudSchema), rfl⟩,
      ⟨_, rfl, List.mem_cons_self, rfl⟩, rfl⟩
  · rw [Function.update_of_ne hne, hname name hmem]
  · obtain ⟨a, b, ha, hb, rfl⟩ := hsel.exists_binary
    obtain rfl := ha.column_eq rfl
    obtain rfl := hb.column_eq rfl
    have hzero : z "[ZERO]" = 0 := hz 0
    rw [Function.update_self, bits_decide, hname _ (by decide), hzero]
    rfl

theorem ends_cloudQuery {cloudData : String → Vec n .int32_t}
    {pastEnd : Fin N → Fin ρ → Word .int32_t} (hn : n = 2 ^ k)
    (htime : cloudData "TIMESTAMP" = cloudData "[TIMESTAMP]")
    (hgap : GapTimes (cloudData "[TIMESTAMP]") 10)
    (hwithin : ValuesWithin top cloudData ["[MACHINE_TYPE]", "[TIMESTAMP]"])
    (hroom : least ≤ n - 1 ∧ RoomForRounds least n) :
    Ends top least dataParty (fun ps => ∃ value zeros σ,
      ps = [⟨cloudSchema, n, value, []⟩, zeros] ∧ IsCloudAnswer cloudData value σ)
      (cloudQuery cloudData pastEnd) [] := by
  rw [← List.take_append_drop 3 (cloudQuery cloudData pastEnd), Ends.append_iff]
  refine (ends_selection hdata cloudData pastEnd (hroom.1.trans (Nat.sub_le n 1))).mono ?_
  rintro _ ⟨v, names, zeros, rfl, hother, hselected⟩
  refine .call rfl ⟨rfl, rfl⟩ nofun trivial
    (by decide : "[SEL]" ∈ cloudSchema ∧ "SEL" ∈ cloudSchema) fun v₁ hv₁ => ?_
  have hkept : ∀ name ∈ cloudSchema, name ≠ "[SEL]" → name ≠ "SEL" → v₁ name = cloudData name := by
    intro name hmem hne hne'
    rw [hv₁, Function.update_of_ne hne', hother name hmem hne]
  have hcounted : v₁ "SEL" = fun s => if cloudData "[EVENT_TYPE]" s = 0 then 1 else 0 := by
    rw [hv₁, Function.update_self, hselected, lowBit_bits, bits_decide]
  have hmachine := hkept "[MACHINE_TYPE]" (by decide) (by decide) (by decide)
  have htimeA := hkept "TIMESTAMP" (by decide) (by decide) (by decide)
  have htimeB := hkept "[TIMESTAMP]" (by decide) (by decide) (by decide)
  have hunsorted : ∀ name ∈ ["[EVENT_TYPE]", "[JOB_ID]"], v₁ name = cloudData name := by
    simp only [List.forall_mem_cons]
    exact ⟨hkept _ (by decide) (by decide) (by decide), hkept _ (by decide) (by decide) (by decide),
      nofun⟩
  have hsorted : ValuesWithin top v₁ ["[MACHINE_TYPE]", "[TIMESTAMP]"] := by
    simp only [ValuesWithin, List.forall_mem_cons] at hwithin ⊢
    rw [hmachine, htimeB]
    exact ⟨hwithin.1, hwithin.2.1, nofun⟩
  refine .call rfl ⟨by decide, rfl, k, hn⟩ hsorted hroom.2 ⟨by decide, by decide⟩ fun u hu => ?_
  refine .call rfl ⟨by decide, by decide, by decide, by decide, k, hn⟩ nofun hroom
    ⟨by decide, by decide, by decide, by decide⟩ fun w hw => ?_
  refine .call rfl ⟨by decide, by decide, by decide, by decide, k, hn⟩ nofun hroom.2
    ⟨by decide, rfl, by decide, .aShared, rfl, by decide⟩ fun value hvalue => ?_
  obtain ⟨u', rfl, hw⟩ := hw
  obtain ⟨w', t, rfl, ht, hvalue⟩ := hvalue
  obtain rfl := Option.some.inj ht
  obtain ⟨σ, hσ⟩ := exists_isCloudAnswer hn hmachine htimeB
    (htimeA.trans (htime.trans htimeB.symm)) hcounted hunsorted hgap hu hw hvalue
  exact ⟨value, _, σ, rfl, hσ⟩

end Ends

/-! ## Three parties -/

/-- **Three parties answer the query**, at every party and in every interleaving. -/
theorem cloudQuery_answers {S : Type} {nrand48 : S → BitVec 64 × S} {mode : SendMode}
    {g : Fin 3 → PseudoRandomGenerator nrand48} (hg : Replicated3pc.SeedsAgree g) (hn : n = 2 ^ k)
    (cloudData : String → Vec n .int32_t) (pastEnd : Fin 3 → Fin 2 → Word .int32_t)
    (htime : cloudData "TIMESTAMP" = cloudData "[TIMESTAMP]")
    (hgap : GapTimes (cloudData "[TIMESTAMP]") 10) :
    Outcome (Replicated3pc.parties .int32_t nrand48) mode g (cloudQuery cloudData pastEnd)
      fun ps => ∃ value zeros σ,
        ps = [⟨cloudSchema, n, value, []⟩, zeros] ∧ IsCloudAnswer cloudData value σ :=
  (ends_cloudQuery trivial hn htime hgap (fun _ _ _ _ => rfl)
    ⟨Nat.zero_le _, roomForRounds_zero n⟩).opens hg

/-- Four events of one machine type, the last of which comes after a gap. -/
def fourEvents (name : String) : Vec 4 .int32_t :=
  if name ∈ ["[TIMESTAMP]", "TIMESTAMP"] then ![3, 0, 12, 30] else 0

theorem cloudQuery_answers_fourEvents :
    Outcome (Replicated3pc.parties .int32_t counter) .rendezvous zeroSeeds
      (cloudQuery fourEvents fun _ _ => 0) fun ps => ∃ value zeros σ,
        ps = [⟨cloudSchema, 4, value, []⟩, zeros] ∧ IsCloudAnswer fourEvents value σ :=
  cloudQuery_answers (k := 2) (fun _ => rfl) rfl fourEvents _ rfl ⟨by decide, by decide, by decide⟩

/-! ## Four parties -/

/-- **Every party learns which events are tasks**: the conversion of the selection, which is the
fourth statement, tells it. -/
theorem cloudQuery_reveals {S : Type} {nrand48 : S → BitVec 64 × S} {mode : SendMode}
    {g : Fin 3 → PseudoRandomGenerator nrand48} (hg : Replicated3pc.SeedsAgree g)
    (cloudData : String → Vec n .int32_t) (pastEnd : Fin 3 → Fin 2 → Word .int32_t) :
    ∃ g₁ t zeros st c j x,
      (∀ s, (Relational.program (Replicated3pc.parties .int32_t nrand48) mode (fun _ _ => True)
        g).Reaches s ((cloudQuery cloudData pastEnd).take 3) ↔ s = (g₁, some [t, zeros])) ∧
      t.find "[SEL]" = some j ∧ (t.columns j).contents = ⟨.bShared, n, x⟩ ∧
      (cloudQuery cloudData pastEnd)[3]? = some st ∧
      st.Runs (Replicated3pc.parties .int32_t nrand48) [t, zeros] c ∧
      Finishes mode (fun i => (c.program i).run (g₁ i)) fun _ sent => ∀ p,
        Replicated3pc.readBit (x p) (sent (chan (p - 1) p))
          = fun r => if cloudData "[EVENT_TYPE]" r = 0 then 1 else 0 := by
  have hP : Protocol.CorrectBits (Replicated3pc.parties .int32_t nrand48) Replicated3pc.layout 0
      (fun _ => True) Replicated3pc.SeedsAgree mode := Replicated3pc.correctBits_seedsAgree
  obtain ⟨g₁, ts, ps, hreach, hts, -, value, names, zeros, rfl, -, hselected⟩ :=
    (ends_selection trivial cloudData pastEnd (Nat.zero_le n)).runs (comparesWithin hP)
      Replicated3pc.divides_seedsAgree Replicated3pc.ownedBy_protocol trivial hg
  obtain ⟨t, ts, ht, hrest, rfl⟩ := List.forall₂_cons_right_iff.mp hts
  obtain ⟨t', ts, -, hnil, rfl⟩ := List.forall₂_cons_right_iff.mp hrest
  obtain rfl := List.forall₂_nil_right_iff.mp hnil
  have hin : Has cloudSchema .bShared "[SEL]" := by decide
  have hout : Has cloudSchema .aShared "SEL" := by decide
  have htable : [t, t'][0]? = some t := rfl
  obtain ⟨c, j, x, hfind, hx, hruns, hreads⟩ := runs_convertB2aBit mode g₁ htable ht hin hout
  refine ⟨g₁, t, t', _, c, j, x, hreach, hfind, hx, rfl, hruns, ?_⟩
  rw [hselected, lowBit_bits, bits_decide] at hreads
  exact hreads

theorem cloudQuery_reveals_fourEvents : ∃ g₁ t zeros st c j x,
    (∀ s, (Relational.program (Replicated3pc.parties .int32_t counter) .rendezvous (fun _ _ => True)
      zeroSeeds).Reaches s ((cloudQuery fourEvents fun _ _ => 0).take 3) ↔
        s = (g₁, some [t, zeros])) ∧
    t.find "[SEL]" = some j ∧ (t.columns j).contents = ⟨.bShared, 4, x⟩ ∧
    (cloudQuery fourEvents fun _ _ => 0)[3]? = some st ∧
    st.Runs (Replicated3pc.parties .int32_t counter) [t, zeros] c ∧
    Finishes .rendezvous (fun i => (c.program i).run (g₁ i)) fun _ sent => ∀ p,
      Replicated3pc.readBit (x p) (sent (chan (p - 1) p))
        = fun r => if fourEvents "[EVENT_TYPE]" r = 0 then 1 else 0 :=
  cloudQuery_reveals (fun _ => rfl) fourEvents _

end Tva.Queries
