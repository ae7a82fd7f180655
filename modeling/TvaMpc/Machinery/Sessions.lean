import Mathlib.Algebra.Order.Monoid.Defs
import Mathlib.Order.Bounds.Basic
import Mathlib.Order.Cover
import Mathlib.Order.OrderIsoNat
import Mathlib.Order.Preorder.Finite

/-!
# Machinery/Sessions — sessions of the elements of a group

The elements of a group have times that do not decrease.  A session ends where the next element of
the group is more than `gap` later (`Opens`, `Unbroken`); every element is in the session of one
opening element (`exists_openedBy`, `unbroken_iff`).

Elements are labelled with the latest time of the marked elements that they reach.
`labels_iff` says exactly when these labels tell the sessions of a group apart.
-/

namespace Machinery

variable {ι T : Type*} [LinearOrder ι] [LinearOrder T]

/-- `b` is the next element of the group of `a`. -/
structure Follows (same : ι → ι → Prop) (a b : ι) : Prop where
  lt : a < b
  group : same a b
  next : ∀ c, a < c → c < b → ¬ same a c

instance [Fintype ι] (same : ι → ι → Prop) [DecidableRel same] : DecidableRel (Follows same) :=
  fun a b => decidable_of_iff (a < b ∧ same a b ∧ ∀ c, a < c → c < b → ¬ same a c)
    ⟨fun h => ⟨h.1, h.2.1, h.2.2⟩, fun h => ⟨h.lt, h.group, h.next⟩⟩

section Sessions

variable [AddZeroClass T] (same : ι → ι → Prop) (time : ι → T) (gap : T)

/-- **A session begins**: the element before, in the group, is more than `gap` earlier, if there is
one. -/
def Opens (s : ι) : Prop := ∀ a, Follows same a s → time a + gap < time s

/-- **No session ends** from `i` up to `j`, in the group of `i`. -/
def Unbroken (i j : ι) : Prop :=
  ∀ a b, Follows same a b → same i a → i ≤ a → b ≤ j → time b ≤ time a + gap

/-- `s` begins the session that `r` is in. -/
structure OpenedBy (s r : ι) : Prop where
  le : s ≤ r
  group : same s r
  opens : Opens same time gap s
  unbroken : Unbroken same time gap s r

instance [Fintype ι] [DecidableRel same] : DecidablePred (Opens same time gap) := fun s =>
  inferInstanceAs (Decidable (∀ a, Follows same a s → time a + gap < time s))

variable {same time gap}

theorem exists_follows [Finite ι] (hs : Equivalence same) {s r : ι} (hlt : s < r)
    (hsame : same s r) : ∃ a, s ≤ a ∧ Follows same a r := by
  obtain ⟨a, ⟨ha, har⟩, hmax⟩ :=
    Set.Finite.exists_maximal (Set.toFinite {a | same s a ∧ a < r}) ⟨s, hs.refl s, hlt⟩
  have hsa : s ≤ a := not_lt.mp fun h => absurd (hmax ⟨hs.refl s, hlt⟩ h.le) (not_le.mpr h)
  exact ⟨a, hsa, har, hs.trans (hs.symm ha) hsame, fun c hac hcr hc =>
    absurd (hmax ⟨hs.trans ha hc, hcr⟩ hac.le) (not_le.mpr hac)⟩

theorem Unbroken.mono {i j j' : ι} (h : Unbroken same time gap i j) (hj : j' ≤ j) :
    Unbroken same time gap i j' :=
  fun a b hab ha hia hbj => h a b hab ha hia (hbj.trans hj)

theorem Unbroken.of_le (hs : Equivalence same) {i i' j : ι} (h : Unbroken same time gap i j)
    (hi : i ≤ i') (hsame : same i i') : Unbroken same time gap i' j :=
  fun a b hab ha hia hbj => h a b hab (hs.trans hsame ha) (hi.trans hia) hbj

theorem Unbroken.trans (hs : Equivalence same) {i j k : ι} (h : Unbroken same time gap i j)
    (h' : Unbroken same time gap j k) (hsame : same i j) : Unbroken same time gap i k := by
  intro a b hab ha hia hbk
  rcases le_or_gt b j with hbj | hjb
  · exact h a b hab ha hia hbj
  · have haj : same a j := hs.trans (hs.symm ha) hsame
    refine h' a b hab (hs.symm haj) (not_lt.mp fun haj' => hab.next j haj' hjb haj) hbk

theorem Opens.openedBy (hs : Equivalence same) {s : ι} (h : Opens same time gap s) :
    OpenedBy same time gap s s :=
  ⟨le_rfl, hs.refl s, h, fun _ _ hab _ hsa hbs => absurd (hab.lt.trans_le hbs) (not_lt.mpr hsa)⟩

/-- **Every element is in a session.** -/
theorem exists_openedBy [Finite ι] (hs : Equivalence same) (r : ι) :
    ∃ s, OpenedBy same time gap s r := by
  induction r using WellFoundedLT.induction with
  | ind r ih =>
    by_cases hr : Opens same time gap r
    · exact ⟨r, hr.openedBy hs⟩
    · obtain ⟨a, har, hclose⟩ : ∃ a, Follows same a r ∧ ¬ time a + gap < time r := by
        simpa [Opens] using hr
      obtain ⟨s, hsa⟩ := ih a har.lt
      have hstep : Unbroken same time gap a r := by
        intro b c hbc hab hle hcr
        have hba : b = a := by
          by_contra hne
          exact har.next b (lt_of_le_of_ne hle (Ne.symm hne)) (hbc.lt.trans_le hcr) hab
        subst hba
        obtain rfl : c = r := by
          by_contra hne
          exact har.next c hbc.lt (lt_of_le_of_ne hcr hne) hbc.group
        exact not_lt.mp hclose
      exact ⟨s, hsa.le.trans har.lt.le, hs.trans hsa.group har.group, hsa.opens,
        hsa.unbroken.trans hs hstep hsa.group⟩

/-- Of two elements that begin sessions of a group, the first does not lead up to the second. -/
theorem Opens.not_unbroken [Finite ι] (hs : Equivalence same) {s s' : ι} (hlt : s < s')
    (hsame : same s s') (h : Opens same time gap s') : ¬ Unbroken same time gap s s' := by
  obtain ⟨a, hsa, has'⟩ := exists_follows hs hlt hsame
  exact fun hun => absurd (h a has')
    (not_lt.mpr (hun a s' has' (hs.trans hsame (hs.symm has'.group)) hsa le_rfl))

/-- An element that begins a session is not after the one that begins the session of `r`. -/
theorem OpenedBy.le_of_opens [Finite ι] (hs : Equivalence same) {s s' r : ι}
    (h : OpenedBy same time gap s r) (hs' : Opens same time gap s') (hsame : same s' r)
    (hle : s' ≤ r) : s' ≤ s :=
  not_lt.mp fun hlt => hs'.not_unbroken hs hlt (hs.trans h.group (hs.symm hsame))
    (h.unbroken.mono hle)

/-- **Two elements of a group are in one session if nothing is broken between them.** -/
theorem unbroken_iff [Finite ι] (hs : Equivalence same) {p q s s' : ι} (hpq : p ≤ q)
    (hsame : same p q) (hp : OpenedBy same time gap s p) (hq : OpenedBy same time gap s' q) :
    Unbroken same time gap p q ↔ s = s' := by
  constructor
  · intro hun
    have hsq : OpenedBy same time gap s q :=
      ⟨hp.le.trans hpq, hs.trans hp.group hsame, hp.opens, hp.unbroken.trans hs hun hp.group⟩
    exact le_antisymm (hq.le_of_opens hs hsq.opens hsq.group hsq.le)
      (hsq.le_of_opens hs hq.opens hq.group hq.le)
  · rintro rfl
    exact hq.unbroken.of_le hs hp.le hp.group

/-! ### In time order -/

/-- **No gap** between the times of `i` and `j`, in the group of `i`: after every time there is one
that is not more than `gap` later. -/
def NoGap (same : ι → ι → Prop) (time : ι → T) (gap : T) (i j : ι) : Prop :=
  ∀ a, same i a → time i ≤ time a → time a < time j →
    ∃ b, same i b ∧ time a < time b ∧ time b ≤ time a + gap

variable [AddLeftMono T]

/-- If the elements are in the order of their times, it is the same. -/
theorem unbroken_iff_noGap [Finite ι] (hs : Equivalence same) (hmono : Monotone time)
    (hgap : 0 ≤ gap) {i j : ι} (hsame : same i j) :
    Unbroken same time gap i j ↔ NoGap same time gap i j := by
  constructor
  · intro hun a hia hle hlt
    -- the last element at the time of `a`, and the next one
    obtain ⟨a', ⟨hia', hle'⟩, hmax⟩ := Set.Finite.exists_maximal
      (Set.toFinite {c | same i c ∧ time c ≤ time a}) ⟨a, hia, le_rfl⟩
    have haa' : a ≤ a' := not_lt.mp fun h => absurd (hmax ⟨hia, le_rfl⟩ h.le) (not_le.mpr h)
    have hii' : i ≤ a' := not_lt.mp fun h => absurd (hmax ⟨hs.refl i, hle⟩ h.le) (not_le.mpr h)
    have heq : time a' = time a := le_antisymm hle' (hmono haa')
    have ha'j : a' < j := not_le.mp fun h => absurd (hmono h) (not_le.mpr (heq ▸ hlt))
    obtain ⟨b, ⟨hib, hab⟩, hmin⟩ := Set.Finite.exists_minimal
      (Set.toFinite {c | same i c ∧ a' < c}) ⟨j, hsame, ha'j⟩
    have hbj : b ≤ j := not_lt.mp fun h => absurd (hmin ⟨hsame, ha'j⟩ h.le) (not_le.mpr h)
    have hfollows : Follows same a' b := ⟨hab, hs.trans (hs.symm hia') hib, fun c hac hcb hc =>
      absurd (hmin ⟨hs.trans hia' hc, hac⟩ hcb.le) (not_le.mpr hcb)⟩
    refine ⟨b, hib, ?_, heq ▸ hun a' b hfollows hia' hii' hbj⟩
    exact not_le.mp fun h => absurd (hmax ⟨hib, h⟩ hab.le) (not_le.mpr hab)
  · intro hno a b hab hia hle hbj
    rcases lt_or_ge (time a) (time j) with hlt | hge
    · obtain ⟨c, hic, hac, hclose⟩ := hno a hia (hmono hle) hlt
      have hac' : a < c := not_le.mp fun h => absurd (hmono h) (not_le.mpr hac)
      have hbc : b ≤ c := not_lt.mp fun h => hab.next c hac' h (hs.trans (hs.symm hia) hic)
      exact (hmono hbc).trans hclose
    · exact ((hmono hbj).trans hge).trans (le_add_of_nonneg_right hgap)

/-- **Values tell the sessions of a group apart**, whatever the order of the elements. -/
def TellsApart {α : Type*} (same : ι → ι → Prop) (time : ι → T) (gap : T) (z : ι → α) : Prop :=
  ∀ i j, same i j → time i ≤ time j → (z i = z j ↔ NoGap same time gap i j)

theorem tellsApart_iff [Finite ι] {α : Type*} (hs : Equivalence same) (hmono : Monotone time)
    (hgap : 0 ≤ gap) {z : ι → α} :
    TellsApart same time gap z ↔
      ∀ i j, i ≤ j → same i j → (z i = z j ↔ Unbroken same time gap i j) := by
  constructor
  · intro h i j hij hsame
    rw [unbroken_iff_noGap hs hmono hgap hsame]
    exact h i j hsame (hmono hij)
  · intro h i j hsame hle
    rcases le_total i j with hij | hji
    · rw [← unbroken_iff_noGap hs hmono hgap hsame]
      exact h i j hij hsame
    · -- the times are equal, and there is nothing between them
      have hnone : ∀ {p q : ι}, time p = time q → NoGap same time gap p q := fun he a _ hpa haq =>
        absurd (he ▸ hpa) (not_le.mpr haq)
      have heq : time i = time j := le_antisymm hle (hmono hji)
      refine iff_of_true ((h j i hji (hs.symm hsame)).mpr ?_).symm (hnone heq)
      exact (unbroken_iff_noGap hs hmono hgap (hs.symm hsame)).mpr (hnone heq.symm)

end Sessions

/-! ## Labels -/

section Labels

variable [AddZeroClass T] (same : ι → ι → Prop) (time : ι → T) (gap : T) (marked : ι → Prop)
variable (reached : ι → Finset ι)

/-- **The marks suffice**: of two sessions of a group at least one is marked where it begins; the
elements of a marked session reach its mark, and those of an unmarked one reach no mark. -/
structure MarksSuffice : Prop where
  atMostOne {s s' : ι} (hsame : same s s') (hs : Opens same time gap s)
    (hs' : Opens same time gap s') (hne : s ≠ s') : marked s ∨ marked s'
  reaches {s r : ι} (h : OpenedBy same time gap s r) (hs : marked s) : s ∈ reached r
  unreached {s r : ι} (h : OpenedBy same time gap s r) (hs : ¬ marked s) :
    ∀ s' ∈ reached r, ¬ marked s'

/-- What the labels rest on: times that do not decrease in a group, marks at the beginnings of
sessions only, and reaching backwards in the group. -/
structure Marking : Prop where
  equivalence : Equivalence same
  mono {a b : ι} (hsame : same a b) (hle : a ≤ b) : time a ≤ time b
  gap_nonneg : 0 ≤ gap
  opens {s : ι} (hs : marked s) : Opens same time gap s
  self (r : ι) : r ∈ reached r
  back {r s : ι} (h : s ∈ reached r) : same s r ∧ s ≤ r

variable {same time gap marked reached} [AddLeftMono T] [Finite ι] {unmarked : T} {label : ι → T}

/-- Sessions of a group begin at different times. -/
theorem Marking.time_lt (hm : Marking same time gap marked reached) {s s' : ι} (hsame : same s s')
    (hlt : s < s') (hs' : Opens same time gap s') : time s < time s' := by
  obtain ⟨a, hsa, has'⟩ := exists_follows hm.equivalence hlt hsame
  have has : same s a := hm.equivalence.trans hsame (hm.equivalence.symm has'.group)
  calc time s ≤ time a := hm.mono has hsa
    _ ≤ time a + gap := le_add_of_nonneg_right hm.gap_nonneg
    _ < time s' := hs' a has'

variable [DecidablePred marked]

/-- The elements that `r` can be labelled with. -/
abbrev labels (time : ι → T) (marked : ι → Prop) [DecidablePred marked] (reached : ι → Finset ι)
    (unmarked : T) (r : ι) : Set T :=
  (fun s => if marked s then time s else unmarked) '' (reached r : Set ι)

section Label

variable (hm : Marking same time gap marked reached) (hun : ∀ s, unmarked < time s)
variable (hlabel : ∀ r, IsGreatest (labels time marked reached unmarked r) (label r))
include hm hun hlabel

omit [AddLeftMono T] in
/-- The label of a session whose mark is reached. -/
theorem label_of_reached {s r : ι} (h : OpenedBy same time gap s r) (hs : marked s)
    (hreach : s ∈ reached r) : label r = time s := by
  refine (hlabel r).unique ⟨⟨s, hreach, if_pos hs⟩, ?_⟩
  rintro _ ⟨s', hs', rfl⟩
  dsimp only
  split
  · rename_i hmark
    obtain ⟨hsame, hle⟩ := hm.back hs'
    have hle' := h.le_of_opens hm.equivalence (hm.opens hmark) hsame hle
    exact hm.mono (hm.equivalence.trans hsame (hm.equivalence.symm h.group)) hle'
  · exact (hun s).le

omit [AddLeftMono T] [Finite ι] hun in
/-- The label where no mark is reached. -/
theorem label_of_unreached {r : ι} (h : ∀ s ∈ reached r, ¬ marked s) : label r = unmarked := by
  refine (hlabel r).unique ⟨⟨r, hm.self r, if_neg (h r (hm.self r))⟩, ?_⟩
  rintro _ ⟨s, hs, rfl⟩
  exact (if_neg (h s hs)).le

/-- **The labels tell the sessions apart exactly if the marks suffice.** -/
theorem labels_iff : (∀ p q, p ≤ q → same p q → (label p = label q ↔ Unbroken same time gap p q))
    ↔ MarksSuffice same time gap marked reached := by
  have hequiv := hm.equivalence
  constructor
  · intro h
    -- a label that is not the default is the time of a mark that is reached
    have hattained : ∀ r, label r = unmarked ∨ ∃ s ∈ reached r, marked s ∧ label r = time s := by
      intro r
      obtain ⟨s, hs, he⟩ := (hlabel r).1
      dsimp only at he
      split at he
      · exact .inr ⟨s, hs, ‹_›, he.symm⟩
      · exact .inl he.symm
    have hmarked : ∀ {s}, marked s → label s = time s := fun hs =>
      label_of_reached hm hun hlabel ((hm.opens hs).openedBy hequiv) hs (hm.self _)
    have hunreached : ∀ {s r}, OpenedBy same time gap s r → ¬ marked s →
        ∀ s' ∈ reached r, ¬ marked s' := by
      intro s r hsr hs s' hs' hmark
      have hge := (hlabel r).2 ⟨s', hs', if_pos hmark⟩
      rcases hattained r with he | ⟨s'', hs'', hmark'', he⟩
      · exact absurd (hun s') (not_lt.mpr (he ▸ hge))
      · obtain ⟨hsame, hle⟩ := hm.back hs''
        have hun' := (h s'' r hle hsame).mp ((hmarked hmark'').trans he.symm)
        have heq := (unbroken_iff hequiv hle hsame ((hm.opens hmark'').openedBy hequiv) hsr).mp hun'
        exact hs (heq ▸ hmark'')
    refine ⟨?_, ?_, hunreached⟩
    · intro s s' hsame hs hs' hne
      by_contra hnone
      rw [not_or] at hnone
      have hlab : ∀ {s}, Opens same time gap s → ¬ marked s → label s = unmarked := fun ho hn =>
        label_of_unreached hm hlabel (hunreached (ho.openedBy hequiv) hn)
      have heq : label s = label s' := (hlab hs hnone.1).trans (hlab hs' hnone.2).symm
      rcases lt_or_gt_of_ne hne with hlt | hlt
      · exact hs'.not_unbroken hequiv hlt hsame ((h s s' hlt.le hsame).mp heq)
      · exact hs.not_unbroken hequiv hlt (hequiv.symm hsame)
          ((h s' s hlt.le (hequiv.symm hsame)).mp heq.symm)
    · intro s r hsr hs
      have heq : label s = label r := (h s r hsr.le hsr.group).mpr hsr.unbroken
      rw [hmarked hs] at heq
      rcases hattained r with he | ⟨s', hs', hmark', he⟩
      · exact absurd (hun s) (not_lt.mpr (heq.trans he).le)
      · obtain ⟨hsame, -⟩ := hm.back hs'
        have hss' : same s s' := hequiv.trans hsr.group (hequiv.symm hsame)
        rcases lt_trichotomy s s' with hlt | rfl | hlt
        · exact absurd (heq.trans he) (hm.time_lt hss' hlt (hm.opens hmark')).ne
        · exact hs'
        · exact absurd (heq.trans he)
            (hm.time_lt (hequiv.symm hss') hlt (hm.opens hs)).ne'
  · intro h p q hpq hsame
    obtain ⟨s, hs⟩ : ∃ s, OpenedBy same time gap s p := exists_openedBy hequiv p
    obtain ⟨s', hs'⟩ : ∃ s, OpenedBy same time gap s q := exists_openedBy hequiv q
    rw [unbroken_iff hequiv hpq hsame hs hs']
    have hss' : same s s' := hequiv.trans hs.group (hequiv.trans hsame (hequiv.symm hs'.group))
    -- the label of a session depends on its beginning only
    have hlab : ∀ {s r}, OpenedBy same time gap s r →
        label r = if marked s then time s else unmarked := by
      intro s r hsr
      split
      · exact label_of_reached hm hun hlabel hsr ‹_› (h.reaches hsr ‹_›)
      · exact label_of_unreached hm hlabel (h.unreached hsr ‹_›)
    rw [hlab hs, hlab hs']
    constructor
    · intro heq
      by_contra hne
      have htime : time s ≠ time s' := by
        rcases lt_or_gt_of_ne hne with hlt | hlt
        · exact (hm.time_lt hss' hlt hs'.opens).ne
        · exact (hm.time_lt (hequiv.symm hss') hlt hs.opens).ne'
      rcases h.atMostOne hss' hs.opens hs'.opens hne with hmark | hmark
      · rw [if_pos hmark] at heq
        split at heq
        exacts [htime heq, (hun s).ne' heq]
      · rw [if_pos hmark] at heq
        split at heq
        exacts [htime heq, (hun s').ne heq]
    · rintro rfl
      rfl

end Label

end Labels

/-! ## Blocks -/

section Blocks

/-- **The maximal block** of consecutive elements around `r` that are `on` and in its group begins
with `s`. -/
structure BlockStart (same : ι → ι → Prop) (on : ι → Prop) (s r : ι) : Prop where
  le : s ≤ r
  block : ∀ m, s ≤ m → m ≤ r → same m r ∧ on m
  first : ∀ m, m ⋖ s → ¬ (same m r ∧ on m)

variable [Finite ι] {same : ι → ι → Prop} {on : ι → Prop}

theorem exists_blockStart (hs : Equivalence same) {r : ι} (hr : on r) :
    ∃ s, BlockStart same on s r := by
  have hself : r ∈ {s | s ≤ r ∧ ∀ m, s ≤ m → m ≤ r → same m r ∧ on m} := by
    refine ⟨le_rfl, fun m hrm hmr => ?_⟩
    rw [le_antisymm hmr hrm]
    exact ⟨hs.refl r, hr⟩
  obtain ⟨s, ⟨hle, hblock⟩, hmin⟩ := Set.Finite.exists_minimal (Set.toFinite _) ⟨r, hself⟩
  refine ⟨s, hle, hblock, fun m hm hmr => ?_⟩
  refine absurd (hmin ⟨hm.lt.le.trans hle, fun m' hmm' hm'r => ?_⟩ hm.lt.le) (not_le.mpr hm.lt)
  rcases hmm'.lt_or_eq with hlt | rfl
  · exact hblock m' (not_lt.mp fun h => hm.2 hlt h) hm'r
  · exact hmr

variable {time value label : ι → T} {unmarked : T} {reached : ι → Finset ι} {e : ι}

/-- **The labels are the times at which the blocks begin** exactly if the first element has the
right value, and of two neighbours in different groups not both are on.  Every other element has its
value from its own and its neighbour's state. -/
theorem blocks_iff [DecidablePred on] (hs : Equivalence same)
    (hbetween : ∀ {a b c}, a ≤ b → b ≤ c → same a c → same a b)
    (hmono : ∀ {a b}, same a b → a ≤ b → time a ≤ time b) (hun : ∀ s, unmarked < time s)
    (he : ∀ s, e ≤ s)
    (hvalue : ∀ m s, m ⋖ s → value s = if on s ∧ ¬ on m then time s else unmarked)
    (hback : ∀ {r s}, s ∈ reached r → s = r ∨ s ≤ r ∧ same s r ∧ on r)
    (hreach : ∀ {r s}, s ≤ r → (∀ m, s ≤ m → m ≤ r → same m r ∧ on m) → s ∈ reached r)
    (hlabel : ∀ r, IsGreatest (value '' (reached r : Set ι)) (label r)) :
    (∀ r, (¬ on r → label r = unmarked) ∧
      (on r → ∃ s, BlockStart same on s r ∧ label r = time s)) ↔
    (value e = if on e then time e else unmarked) ∧ ∀ m s, m ⋖ s → ¬ same m s → on s → ¬ on m := by
  have halone : ∀ {r}, (∀ s ∈ reached r, s = r) → label r = value r := by
    intro r h
    obtain ⟨s, hsr, heq⟩ := (hlabel r).1
    rw [← heq, h s hsr]
  constructor
  · intro h
    constructor
    · have hfirst : label e = value e := halone fun s hse =>
        (hback hse).elim id fun h => le_antisymm h.1 (he s)
      rw [← hfirst]
      split
      · obtain ⟨s, hse, heq⟩ := (h e).2 ‹_›
        rw [heq, le_antisymm hse.le (he s)]
      · exact (h e).1 ‹_›
    · intro m s hms hsame hon hm
      -- nothing but `s` itself is reached, and it has no mark
      have hlab : label s = value s := halone fun s' hs' =>
        (hback hs').elim id fun h' => by
          by_contra hne
          have hle : s' ≤ m := not_lt.mp fun hlt => hms.2 hlt (lt_of_le_of_ne h'.1 hne)
          exact hsame (hs.trans (hs.symm (hbetween hle hms.lt.le h'.2.1)) h'.2.1)
      obtain ⟨s', hs', heq⟩ := (h s).2 hon
      have hval : value s = unmarked := (hvalue m s hms).trans (if_neg fun h' => h'.2 hm)
      exact absurd (hun s') (not_lt.mpr (heq.symm.trans (hlab.trans hval)).le)
  · rintro ⟨hfirst, hgroups⟩ r
    have hpred : ∀ {s}, s = e ∨ ∃ m, m ⋖ s := by
      intro s
      by_cases hse : IsMin s
      · exact .inl (le_antisymm (hse (he s)) (he s))
      · exact .inr (exists_covBy_of_wellFoundedGT hse)
    constructor
    · intro hr
      rw [halone fun s hsr => (hback hsr).elim id fun h => absurd h.2.2 hr]
      rcases hpred (s := r) with rfl | ⟨m, hm⟩
      · rw [hfirst, if_neg hr]
      · rw [hvalue m r hm, if_neg fun h => hr h.1]
    · intro hr
      obtain ⟨s, hsr⟩ := exists_blockStart hs hr
      refine ⟨s, hsr, (hlabel r).unique ⟨⟨s, hreach hsr.le hsr.block, ?_⟩, ?_⟩⟩
      · have hon : on s := (hsr.block s le_rfl hsr.le).2
        rcases hpred (s := s) with rfl | ⟨m, hm⟩
        · rw [hfirst, if_pos hon]
        · refine (hvalue m s hm).trans (if_pos ⟨hon, fun hom => ?_⟩)
          have hsame : ¬ same m r := fun h => hsr.first m hm ⟨h, hom⟩
          exact hgroups m s hm
            (fun h => hsame (hs.trans h (hsr.block s le_rfl hsr.le).1)) hon hom
      · rintro _ ⟨s', hs', rfl⟩
        have hsame : s' ≤ r ∧ same s' r := (hback hs').elim
          (fun h => h ▸ ⟨le_rfl, hs.refl _⟩) fun h => ⟨h.1, h.2.1⟩
        rcases le_or_gt s' s with hle | hlt
        · -- an earlier element of the group: its value is not more than its time
          have hval : value s' ≤ time s' := by
            rcases hpred (s := s') with rfl | ⟨m, hm⟩
            · rw [hfirst]
              split
              exacts [le_rfl, (hun _).le]
            · rw [hvalue m s' hm]
              split
              exacts [le_rfl, (hun _).le]
          exact hval.trans (hmono (hs.trans hsame.2 (hs.symm (hsr.block s le_rfl hsr.le).1)) hle)
        · -- a later element of the block
          obtain ⟨m, hm⟩ := (hpred (s := s')).resolve_left
            fun h => absurd (he s) (not_le.mpr (h ▸ hlt))
          have hsm : s ≤ m := not_lt.mp fun h => hm.2 h hlt
          rw [hvalue m s' hm, if_neg fun h => h.2 (hsr.block m hsm (hm.lt.le.trans hsame.1)).2]
          exact (hun s).le

end Blocks

end Machinery
