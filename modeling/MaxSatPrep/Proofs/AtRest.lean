import MaxSatPrep.Proofs.Flags
import MaxSatPrep.Proofs.Blocking
/-!
When a technique is at rest: the condition on an engine under which a run of it reports no change,
one for each technique (`Calm`). Unit propagation rests on rows with no fixed variable and no hard
unit (`UnitCalm`), subsumption on rows none of which has a hard row's literals among its own
(`subsumedPositions_eq_nil_iff_pairwise`), blocked clause elimination on an inprocessing engine or
on rows with no blocked hard row.

A run that reports no change finds its technique at rest (`Calm.of_idle`), and a run at rest
reports no change (`Calm.quiet`). Rest depends on the rows, the fixed literals and the inprocessing
flag only, and survives retiring the soft rows without literals (`Calm.retireBare`); for blocked
clause elimination this needs the pass over the rows without them to be the pass over all rows,
position by position (`blockedOut_filter`). `AtRest` bundles rest for a list of techniques with the
absence of such rows, under which a run at rest leaves the engine exactly as it is
(`AtRest.quiet`).
-/
namespace MaxSatPrep

namespace Engine

open Session (intOf)

/-! ## Folds that only extend -/

section Extending

variable {α : Type} {f : List Nat → α → List Nat}

theorem prefix_foldl (hf : ∀ acc a, acc <+: f acc a) (l : List α) (acc : List Nat) :
    acc <+: l.foldl f acc := by
  induction l generalizing acc with
  | nil => exact List.prefix_refl acc
  | cons a l ih => exact (hf acc a).trans (ih (f acc a))

theorem foldl_eq_nil_iff (hf : ∀ acc a, acc <+: f acc a) (l : List α) :
    l.foldl f [] = [] ↔ ∀ a ∈ l, f [] a = [] := by
  induction l with
  | nil => simp
  | cons a l ih =>
    rw [List.foldl_cons, List.forall_mem_cons]
    by_cases ha : f [] a = []
    · rw [ha, ih]
      exact ⟨fun h => ⟨rfl, h⟩, fun h => h.2⟩
    · refine ⟨fun h => absurd ?_ ha, fun h => absurd h.1 ha⟩
      have hkeep := prefix_foldl hf l (f [] a)
      rw [h] at hkeep
      exact List.prefix_nil.1 hkeep

end Extending

theorem appendIf_prefix (b : Prop) [Decidable b] (acc : List Nat) (j : Nat) :
    acc <+: (if b then acc ++ [j] else acc) := by
  split
  · exact List.prefix_append acc [j]
  · exact List.prefix_refl acc

/-! ## Subsumption at rest -/

theorem removeSupersets_prefix (rows : List Row) (i : Nat) (gone : List Nat) :
    gone <+: removeSupersets rows i gone := by
  unfold removeSupersets
  split
  · exact List.prefix_refl gone
  · split
    · exact List.prefix_refl gone
    · apply prefix_foldl
      exact fun acc j => appendIf_prefix _ acc j

/-- The hard row at `i` drops nothing when no other row contains its literals. -/
theorem removeSupersets_eq_nil {rows : List Row} {i : Nat} :
    removeSupersets rows i [] = [] ↔ ∀ ri, rows[i]? = some ri →
      ∀ j rj, j ≠ i → rows[j]? = some rj → subsetOf ri.lits rj.lits = false := by
  unfold removeSupersets
  rw [if_neg (by simp)]
  cases hget : rows[i]? with
  | none => simp
  | some ri =>
    dsimp only
    refine (foldl_eq_nil_iff (fun acc j => appendIf_prefix _ acc j) _).trans ?_
    constructor
    · intro h ri' hri' j rj hji hrj
      cases hri'
      have hj := (List.getElem?_eq_some_iff.1 hrj).1
      simpa [hji, hrj] using h j (List.mem_range.2 hj)
    · intro h j hj
      cases hrj : rows[j]? with
      | none => simp
      | some rj =>
        by_cases hji : j = i
        · simp [hji]
        · simp [h ri rfl j rj hji hrj]

theorem subsumedPositions_eq_nil {rows : List Row} :
    subsumedPositions rows = [] ↔ ∀ (i j : Nat) (ri rj : Row), i ≠ j → rows[i]? = some ri →
      rows[j]? = some rj → ri.weights = none → subsetOf ri.lits rj.lits = false := by
  unfold subsumedPositions
  rw [foldl_eq_nil_iff (fun acc i => removeSupersets_prefix rows i acc)]
  constructor
  · intro h i j ri rj hij hri hrj hw
    have hi : i ∈ hardOrder rows := List.mem_mergeSort.2 (mem_hardPositions.2 ⟨ri, hri, hw⟩)
    exact removeSupersets_eq_nil.1 (h i hi) ri hri j rj (Ne.symm hij) hrj
  · intro h i hi
    refine removeSupersets_eq_nil.2 (fun ri hri j rj hji hrj => ?_)
    exact h i j ri rj (Ne.symm hji) hri hrj (hardOrder_hard hi ri hri)

/-- Neither row of a pair is a hard row whose literals the other holds. -/
def NoneContains (a b : Row) : Prop :=
  (a.weights = none → subsetOf a.lits b.lits = false) ∧ (b.weights = none → subsetOf b.lits a.lits = false)

/-- Subsumption drops nothing exactly when no two rows contain one another's hard literals: a
property of the rows as a list, kept by every sublist. -/
theorem subsumedPositions_eq_nil_iff_pairwise {rows : List Row} :
    subsumedPositions rows = [] ↔ rows.Pairwise NoneContains := by
  rw [subsumedPositions_eq_nil, List.pairwise_iff_getElem]
  constructor
  · intro h i j hi hj hij
    exact ⟨h i j _ _ (Nat.ne_of_lt hij) (List.getElem?_eq_getElem hi) (List.getElem?_eq_getElem hj),
      h j i _ _ (Nat.ne_of_gt hij) (List.getElem?_eq_getElem hj) (List.getElem?_eq_getElem hi)⟩
  · intro h i j ri rj hij hri hrj
    obtain ⟨hi, rfl⟩ := List.getElem?_eq_some_iff.1 hri
    obtain ⟨hj, rfl⟩ := List.getElem?_eq_some_iff.1 hrj
    rcases Nat.lt_or_gt_of_ne hij with hlt | hlt
    · exact (h i j hi hj hlt).1
    · exact (h j i hj hi hlt).2

/-! ## Blocked clause elimination without the rows it does not read

Removing rows that are neither hard nor have literals moves the hard rows to new positions but
changes nothing the elimination reads: the pass over the filtered rows is the pass over the rows,
position by position. -/

theorem allM_map_eq {α : Type} {f g : α → Outcome Bool} (φ : α → α) {l : List α}
    (h : ∀ a ∈ l, f (φ a) = g a) : (l.map φ).allM f = l.allM g := by
  induction l with
  | nil => rfl
  | cons a l ih =>
    simp only [List.map_cons, List.allM, h a List.mem_cons_self,
      ih (fun b hb => h b (List.mem_cons_of_mem a hb))]

theorem firstBlocking_congr {rows rows' : List Row} {hard hard' gone gone' : List Nat} {i i' : Nat}
    {row : List Datum} (h : ∀ lit, blockedOn rows' hard' gone' i' row lit = blockedOn rows hard gone i row lit)
    (soft lits : List Datum) :
    firstBlocking rows' hard' gone' i' row soft lits = firstBlocking rows hard gone i row soft lits := by
  induction lits with
  | nil => rfl
  | cons lit lits ih => simp only [firstBlocking, h, ih]

section Filtered

variable (p : Row → Bool)

/-- the position, among the rows a filter keeps, of the row at position `j` -/
def keptIndex (rows : List Row) (j : Nat) : Nat := (rows.take j).countP p

@[simp] theorem keptIndex_zero (x : Row) (rows : List Row) : keptIndex p (x :: rows) 0 = 0 := rfl

theorem keptIndex_succ (x : Row) (rows : List Row) (j : Nat) :
    keptIndex p (x :: rows) (j + 1) = keptIndex p rows j + (if p x then 1 else 0) := by
  simp [keptIndex, List.countP_cons]

variable {p} {rows : List Row}

theorem getElem?_filter_keptIndex {j : Nat} {r : Row} (hr : rows[j]? = some r) (hp : p r = true) :
    (rows.filter p)[keptIndex p rows j]? = some r := by
  induction rows generalizing j with
  | nil => simp at hr
  | cons x rows ih =>
    cases j with
    | zero =>
      obtain rfl : x = r := by simpa using hr
      simp [hp]
    | succ j =>
      rw [List.getElem?_cons_succ] at hr
      rw [keptIndex_succ]
      by_cases hx : p x = true <;> simp [hx, ih hr]

theorem keptIndex_lt {i j : Nat} (hij : i < j) {r : Row} (hr : rows[i]? = some r) (hp : p r = true) :
    keptIndex p rows i < keptIndex p rows j := by
  induction rows generalizing i j with
  | nil => simp at hr
  | cons x rows ih =>
    obtain ⟨j, rfl⟩ : ∃ j', j = j' + 1 := ⟨j - 1, by omega⟩
    cases i with
    | zero =>
      obtain rfl : x = r := by simpa using hr
      rw [keptIndex_zero, keptIndex_succ, if_pos hp]
      omega
    | succ i =>
      rw [keptIndex_succ, keptIndex_succ]
      have := ih (Nat.lt_of_succ_lt_succ hij) (by simpa using hr)
      omega

theorem keptIndex_inj {i j : Nat} {ri rj : Row} (hri : rows[i]? = some ri) (hpi : p ri = true)
    (hrj : rows[j]? = some rj) (hpj : p rj = true) (h : keptIndex p rows i = keptIndex p rows j) :
    i = j := by
  rcases Nat.lt_trichotomy i j with hlt | heq | hgt
  · exact absurd h (Nat.ne_of_lt (keptIndex_lt hlt hri hpi))
  · exact heq
  · exact absurd h (Nat.ne_of_gt (keptIndex_lt hgt hrj hpj))

theorem hardPositions_cons (x : Row) (rows : List Row) :
    hardPositions (x :: rows) = (if x.hard then [0] else []) ++ (hardPositions rows).map (· + 1) := by
  simp only [hardPositions, List.length_cons, List.range_succ_eq_map, List.filter_cons,
    List.filter_map]
  cases h : x.hard <;> simp [h, Function.comp_def]

/-- A filter that keeps the hard rows keeps their positions in order. -/
theorem hardPositions_filter (hp : ∀ r ∈ rows, r.weights = none → p r = true) :
    hardPositions (rows.filter p) = (hardPositions rows).map (keptIndex p rows) := by
  induction rows with
  | nil => rfl
  | cons x rows ih =>
    have ih := ih (fun r hr => hp r (List.mem_cons_of_mem x hr))
    by_cases hx : p x = true
    · rw [List.filter_cons_of_pos hx, hardPositions_cons, hardPositions_cons, ih]
      cases hh : x.hard <;> simp [keptIndex_succ, hx, Function.comp_def]
    · have hw : x.hard = false := by
        cases hxw : x.weights with
        | none => exact absurd (hp x (List.mem_cons_self) hxw) hx
        | some ws => simp [Row.hard, hxw]
      rw [List.filter_cons_of_neg hx, hardPositions_cons, ih, hw]
      simp [keptIndex_succ, hx, Function.comp_def]

/-- A filter that drops only rows without literals keeps the literals of the soft rows. -/
theorem softMagnitudes_filter (hlits : ∀ r ∈ rows, p r = false → r.lits = []) :
    softMagnitudes (rows.filter p) = softMagnitudes rows := by
  unfold softMagnitudes
  congr 1
  induction rows with
  | nil => rfl
  | cons x rows ih =>
    have ih := ih (fun r hr => hlits r (List.mem_cons_of_mem x hr))
    by_cases hx : p x = true
    · rw [List.filter_cons_of_pos hx]
      cases hh : x.hard <;>
        simp only [List.filter_cons, hh, Bool.not_false, Bool.not_true, ↓reduceIte, List.flatMap_cons,
          ih, Bool.false_eq_true]
    · rw [List.filter_cons_of_neg hx, ih]
      have hnil := hlits x List.mem_cons_self (by simpa using hx)
      cases hh : x.hard <;>
        simp only [List.filter_cons, hh, Bool.not_false, Bool.not_true, ↓reduceIte, List.flatMap_cons,
          hnil, List.nil_append, Bool.false_eq_true]

theorem blockedOn_filter (hp : ∀ r ∈ rows, r.weights = none → p r = true) {i : Nat}
    (hi : i ∈ hardPositions rows) {gone : List Nat} (hgone : ∀ j ∈ gone, j ∈ hardPositions rows)
    (row : List Datum) (lit : Datum) :
    blockedOn (rows.filter p) (hardPositions (rows.filter p)) (gone.map (keptIndex p rows))
        (keptIndex p rows i) row lit = blockedOn rows (hardPositions rows) gone i row lit := by
  unfold blockedOn
  rw [hardPositions_filter hp]
  refine allM_map_eq _ (fun j hj => ?_)
  obtain ⟨ri, hri, hwi⟩ := mem_hardPositions.1 hi
  obtain ⟨rj, hrj, hwj⟩ := mem_hardPositions.1 hj
  have hpi := hp ri (List.mem_of_getElem? hri) hwi
  have hpj := hp rj (List.mem_of_getElem? hrj) hwj
  have hsame : (keptIndex p rows j == keptIndex p rows i) = (j == i) := by
    by_cases h : j = i
    · simp [h]
    · have hne : keptIndex p rows j ≠ keptIndex p rows i := fun he => h (keptIndex_inj hrj hpj hri hpi he)
      simp [h, hne]
  have hgone' : (gone.map (keptIndex p rows)).contains (keptIndex p rows j) = gone.contains j := by
    rw [Bool.eq_iff_iff]
    simp only [List.contains_iff_mem, List.mem_map]
    constructor
    · rintro ⟨g, hg, he⟩
      obtain ⟨rg, hrg, hwg⟩ := mem_hardPositions.1 (hgone g hg)
      rwa [← keptIndex_inj hrg (hp rg (List.mem_of_getElem? hrg) hwg) hrj hpj he]
    · exact fun hg => ⟨j, hg, rfl⟩
  rw [hsame, hgone', getElem?_filter_keptIndex hrj hpj, hrj]

/-- **The pass, filtered.** Over rows from which a filter drops only rows that are not hard, the
pass visits the same rows and finds the same eliminations, at the positions the filter gives. -/
theorem blockedPass_filter (hp : ∀ r ∈ rows, r.weights = none → p r = true) (soft : List Datum) :
    ∀ (is gone : List Nat) (events : List Event), (∀ i ∈ is, i ∈ hardPositions rows) →
      (∀ j ∈ gone, j ∈ hardPositions rows) →
      blockedPass (rows.filter p) (hardPositions (rows.filter p)) soft (is.map (keptIndex p rows))
          (gone.map (keptIndex p rows)) events =
        ((blockedPass rows (hardPositions rows) soft is gone events).1.map (keptIndex p rows),
          (blockedPass rows (hardPositions rows) soft is gone events).2.1,
          (blockedPass rows (hardPositions rows) soft is gone events).2.2) := by
  intro is
  induction is with
  | nil => intro gone events _ _; rfl
  | cons i is ih =>
    intro gone events his hgone
    have hi := his i List.mem_cons_self
    have his' : ∀ x ∈ is, x ∈ hardPositions rows := fun x hx => his x (List.mem_cons_of_mem i hx)
    obtain ⟨r, hr, hw⟩ := mem_hardPositions.1 hi
    have hpr := hp r (List.mem_of_getElem? hr) hw
    simp only [List.map_cons, blockedPass, getElem?_filter_keptIndex hr hpr, hr]
    rw [firstBlocking_congr (blockedOn_filter hp hi hgone r.lits)]
    cases firstBlocking rows (hardPositions rows) gone i r.lits soft r.lits with
    | error f => rfl
    | ok o =>
      cases o with
      | none => exact ih gone events his' hgone
      | some lit =>
        have hgone' : ∀ j ∈ gone ++ [i], j ∈ hardPositions rows :=
          List.forall_mem_append.2 ⟨hgone, List.forall_mem_singleton.2 hi⟩
        rw [show gone.map (keptIndex p rows) ++ [keptIndex p rows i] = (gone ++ [i]).map (keptIndex p rows)
          by simp]
        exact ih (gone ++ [i]) _ his' hgone'

/-- Blocked clause elimination over such filtered rows drops the rows it drops over all of them. -/
theorem blockedOut_filter (hp : ∀ r ∈ rows, r.weights = none → p r = true)
    (hlits : ∀ r ∈ rows, p r = false → r.lits = []) :
    blockedOut (rows.filter p) = ((blockedOut rows).1.map (keptIndex p rows), (blockedOut rows).2) := by
  have h := blockedPass_filter hp (softMagnitudes rows) (hardPositions rows) [] [] (fun i hi => hi)
    (by simp)
  rw [← hardPositions_filter hp, List.map_nil] at h
  simp only [blockedOut, softMagnitudes_filter hlits, h]

end Filtered

/-! ## Unit propagation at rest -/

/-- Propagation only appends to the fixed literals, whether it answers or fails. -/
theorem propagateLoop_fixed (fuel : Nat) (vs : Fixing) (c : Bool) (e : Engine) :
    e.fixed <+: ((propagateLoop fuel vs c).run e).2.fixed := by
  induction fuel generalizing vs c e with
  | zero => exact List.prefix_refl _
  | succ fuel ih =>
    simp only [propagateLoop, EngineM.run_bind, EngineM.run_get]
    split
    · simp only [EngineM.run_bind, EngineM.run_set, EngineM.run_throw]
      exact List.prefix_refl _
    · generalize collectUnits (sweep vs e.rows e.removed).alive vs [] = q
      obtain ⟨vs', fresh, failure⟩ := q
      simp only [EngineM.run_bind, EngineM.run_set, EngineM.run_modify]
      have hpre : e.fixed <+: e.fixed ++ fresh := List.prefix_append _ _
      cases failure with
      | some f => simpa only [EngineM.run_throw] using hpre
      | none =>
        dsimp only
        split
        · simpa only [EngineM.run_pure] using hpre
        · exact hpre.trans (ih vs' _
            { e with rows := (sweep vs e.rows e.removed).alive, fixed := e.fixed ++ fresh,
                     removed := (sweep vs e.rows e.removed).removed,
                     trace := e.trace ++ fresh.map Event.fix })

theorem propagateLoop_fixed_of {fuel : Nat} {vs : Fixing} {c : Bool} {e e' : Engine} {r : Outcome Bool}
    (h : (propagateLoop fuel vs c).run e = (r, e')) : e.fixed <+: e'.fixed := by
  have hpre := propagateLoop_fixed fuel vs c e
  rwa [h] at hpre

/-- Unit propagation finds nothing to do on the rows: none has a literal on a fixed variable, and
no hard row is a unit. -/
structure UnitCalm (e : Engine) : Prop where
  untouched : ∀ r ∈ e.rows, touchedBy (fixingOf e.fixed) r = false
  noUnits : ∀ r ∈ e.rows, r.weights = none → ∀ z, r.lits ≠ [.int z]

/-- On such rows unit propagation only retires the soft rows without literals, and reports no
change. -/
theorem UnitCalm.run {e : Engine} (ht : Tabled e) (hc : UnitCalm e) :
    unitPropagate.run e = (.ok false, e.retireBare) := by
  have hvs := fixingOf_wf ht.fixed
  obtain ⟨F, hnew, -, -, hrun⟩ := propagateLoop_succ hvs ht.rows false
  have hkept : e.rows.filterMap (keptRow (fixingOf e.fixed)) = e.rows.filter (fun r => !r.bare) :=
    filterMap_keptRow_untouched hc.untouched
  have hF : F = [] := by
    refine List.eq_nil_iff_forall_not_mem.2 (fun z hz => ?_)
    obtain ⟨-, -, r, hr, hw, hl⟩ := hnew z hz
    rw [hkept] at hr
    exact hc.noUnits r (List.mem_of_mem_filter hr) hw z hl
  have hchanged : (sweep (fixingOf e.fixed) e.rows e.removed).changed = false := by
    rw [sweep_changed hvs ht.rows.lits e.removed (sweep_removed hvs ht.rows).1]
    exact List.any_eq_false.2 (fun r hr => by simp [hc.untouched r hr])
  have hretired : e.rows.filter (retiredBy (fixingOf e.fixed)) = e.rows.filter Row.bare :=
    List.filter_congr (fun r hr => retiredBy_untouched (hc.untouched r hr))
  rw [unitPropagate_eq ht.fixed, hrun e.rows.length, if_pos hF, hchanged, hkept, hretired]
  rfl

/-- A run of unit propagation that reports no change finds the rows at rest. -/
theorem UnitCalm.of_idle {e e' : Engine} (ht : Tabled e) (h : unitPropagate.run e = (.ok false, e')) :
    UnitCalm e := by
  have he' : e' = e.retireBare := unitPropagate_quiet ht h
  obtain ⟨F, hrun, -⟩ := unitPropagate_flag ht
  have hflag : (e.rows.any (touchedBy (fixingOf e.fixed)) || !F.isEmpty) = false := by
    rw [hrun] at h
    exact (Except.ok.inj (Prod.mk.inj h).1)
  have hun : ∀ r ∈ e.rows, touchedBy (fixingOf e.fixed) r = false := by
    intro r hr
    simpa using List.any_eq_false.1 (Bool.or_eq_false_iff.1 hflag).1 r hr
  refine ⟨hun, fun r hr hw z hz => ?_⟩
  -- a hard unit row on a free variable is fixed in the first pass, and fixed literals only grow
  have hvs := fixingOf_wf ht.fixed
  obtain ⟨F₁, -, -, hunits, hrun₁⟩ := propagateLoop_succ hvs ht.rows false
  have hkept : r ∈ e.rows.filterMap (keptRow (fixingOf e.fixed)) := by
    rw [filterMap_keptRow_untouched hun]
    exact List.mem_filter.2 ⟨hr, by simp [Row.bare, hw]⟩
  have hfree : fixLit (fixingOf e.fixed) z.natAbs = none := by
    have := List.any_eq_false.1 (hun r hr) (.int z) (by simp [hz])
    simpa using this
  by_cases hF₁ : F₁ = []
  · have := hunits r hkept hw z hz
    simp [hF₁, hfree] at this
  · rw [unitPropagate_eq ht.fixed, hrun₁ e.rows.length, if_neg hF₁] at h
    have hgrow := (propagateLoop_fixed_of h).length_le
    rw [he'] at hgrow
    simp [retireBare] at hgrow
    exact hF₁ hgrow

/-! ## Techniques at rest -/

theorem runTechnique_letter (t : String) :
    (t = "u" ∧ runTechnique t = unitPropagate) ∨ (t = "s" ∧ runTechnique t = subsume) ∨
      (t = "b" ∧ runTechnique t = eliminateBlocked) ∨
      (t ≠ "u" ∧ t ≠ "s" ∧ t ≠ "b" ∧ runTechnique t = pure false) := by
  unfold runTechnique
  by_cases hu : t = "u"
  · exact .inl ⟨hu, by simp [hu]⟩
  by_cases hs : t = "s"
  · exact .inr (.inl ⟨hs, by simp [hs]⟩)
  by_cases hb : t = "b"
  · exact .inr (.inr (.inl ⟨hb, by simp [hb]⟩))
  exact .inr (.inr (.inr ⟨hu, hs, hb, by simp [hu, hs, hb]⟩))

/-- A technique is at rest on an engine when a run of it would report no change: unit
propagation on rows `UnitCalm` describes, subsumption on rows none of which has a hard row's
literals among its own, blocked clause elimination on an engine that is inprocessing or has no
blocked hard row. A name the engine does not implement is always at rest. -/
def Calm (t : String) (e : Engine) : Prop :=
  (t = "u" → UnitCalm e) ∧ (t = "s" → e.rows.Pairwise NoneContains) ∧
    (t = "b" → e.inprocessing = true ∨ (blockedOut e.rows).1 = [])

theorem Calm.other {t : String} (hu : t ≠ "u") (hs : t ≠ "s") (hb : t ≠ "b") (e : Engine) : Calm t e :=
  ⟨fun h => absurd h hu, fun h => absurd h hs, fun h => absurd h hb⟩

theorem Calm.unimplemented {t : String} (himp : implemented t = false) (e : Engine) : Calm t e := by
  simp only [implemented, Bool.or_eq_false_iff, beq_eq_false_iff_ne] at himp
  exact Calm.other himp.1.1 himp.1.2 himp.2 e

/-- A run at rest reports no change and leaves what `idleResult` leaves. -/
theorem Calm.quiet {t : String} {e : Engine} (ht : Tabled e) (hc : Calm t e) :
    (runTechnique t).run e = (.ok false, idleResult t e) := by
  rcases runTechnique_letter t with ⟨rfl, hr⟩ | ⟨rfl, hr⟩ | ⟨rfl, hr⟩ | ⟨hu, -, -, hr⟩ <;> rw [hr]
  · simpa [idleResult] using (hc.1 rfl).run ht
  · rw [subsume_run ht.rows.lits, subsumedPositions_eq_nil_iff_pairwise.2 (hc.2.1 rfl)]
    simp [idleResult, dropAt]
  · rw [eliminateBlocked_run ht.rows.lits]
    rcases hc.2.2 rfl with hin | hnil
    · simp [hin, idleResult]
    · have hlen := blockedPass_length e.rows (hardPositions e.rows) (softMagnitudes e.rows)
        (hardPositions e.rows) [] []
      have hev : (blockedOut e.rows).2 = [] := by
        simp only [blockedOut] at hnil ⊢
        rw [hnil] at hlen
        simpa using hlen
      simp [hnil, hev, idleResult, dropAt]
  · simp [idleResult, hu, EngineM.run_pure]

/-- A run that reports no change finds its technique at rest. -/
theorem Calm.of_idle {t : String} {e e' : Engine} (ht : Tabled e)
    (h : (runTechnique t).run e = (.ok false, e')) : Calm t e := by
  rcases runTechnique_letter t with ⟨rfl, hr⟩ | ⟨rfl, hr⟩ | ⟨rfl, hr⟩ | ⟨hu, hs, hb, -⟩
  · rw [hr] at h
    exact ⟨fun _ => UnitCalm.of_idle ht h, fun h' => absurd h' (by decide),
      fun h' => absurd h' (by decide)⟩
  · rw [hr, subsume_run ht.rows.lits] at h
    have hnil : (subsumedPositions e.rows).isEmpty = true := by
      simpa using Except.ok.inj (Prod.mk.inj h).1
    exact ⟨fun h' => absurd h' (by decide),
      fun _ => subsumedPositions_eq_nil_iff_pairwise.1 (List.isEmpty_iff.1 hnil),
      fun h' => absurd h' (by decide)⟩
  · rw [hr, eliminateBlocked_run ht.rows.lits] at h
    refine ⟨fun h' => absurd h' (by decide), fun h' => absurd h' (by decide), fun _ => ?_⟩
    split at h
    · exact .inl ‹_›
    · refine .inr (List.isEmpty_iff.1 ?_)
      simpa using Except.ok.inj (Prod.mk.inj h).1
  · exact Calm.other hu hs hb e

theorem Calm.congr {t : String} {e e' : Engine} (hc : Calm t e) (hrows : e'.rows = e.rows)
    (hfixed : e'.fixed = e.fixed) (hin : e'.inprocessing = e.inprocessing) : Calm t e' := by
  refine ⟨fun hu => ?_, fun hs => hrows ▸ hc.2.1 hs, fun hb => hrows ▸ hin ▸ hc.2.2 hb⟩
  have h := hc.1 hu
  constructor
  · rw [hrows, hfixed]; exact h.untouched
  · rw [hrows]; exact h.noUnits

/-- Retiring the soft rows without literals keeps every technique at rest: they hold no literal
to fix, never contain a hard row's literals, and are never hard, so they neither block nor are
blocked. -/
theorem Calm.retireBare {t : String} {e : Engine} (hc : Calm t e) : Calm t e.retireBare := by
  refine ⟨fun hu => ?_, fun hs => (hc.2.1 hs).sublist List.filter_sublist, fun hb => ?_⟩
  · have h := hc.1 hu
    exact ⟨fun r hr => h.untouched r (List.mem_of_mem_filter hr),
      fun r hr => h.noUnits r (List.mem_of_mem_filter hr)⟩
  · rcases hc.2.2 hb with hin | hnil
    · exact .inl hin
    · refine .inr ?_
      have hp : ∀ r ∈ e.rows, r.weights = none → (!r.bare) = true := by
        intro r _ hw
        simp [Row.bare, hw]
      have hlits : ∀ r ∈ e.rows, (!r.bare) = false → r.lits = [] := by
        intro r _ hr
        simp only [Row.bare, Bool.not_eq_false', Bool.and_eq_true, List.isEmpty_iff] at hr
        exact hr.1
      show (blockedOut (e.rows.filter (fun r => !r.bare))).1 = []
      rw [blockedOut_filter hp hlits, hnil]
      rfl

/-- An engine without soft rows that have no literals. -/
def NoBare (e : Engine) : Prop := ∀ r ∈ e.rows, r.bare = false

theorem noBare_retireBare (e : Engine) : NoBare e.retireBare := by
  intro r hr
  simpa using (List.mem_filter.1 hr).2

/-- An engine related to another by at most retiring its soft rows without literals, with the
same fixed literals and inprocessing flag: what a run at rest leaves. -/
structure UpToBare (e e' : Engine) : Prop where
  rows : e'.rows = e.rows ∨ e'.rows = e.rows.filter (fun r => !r.bare)
  fixed : e'.fixed = e.fixed
  inprocessing : e'.inprocessing = e.inprocessing

theorem UpToBare.refl (e : Engine) : UpToBare e e := ⟨.inl rfl, rfl, rfl⟩

theorem UpToBare.trans {e e' e'' : Engine} (h : UpToBare e e') (h' : UpToBare e' e'') :
    UpToBare e e'' := by
  refine ⟨?_, h'.fixed.trans h.fixed, h'.inprocessing.trans h.inprocessing⟩
  rcases h.rows with h₁ | h₁ <;> rcases h'.rows with h₂ | h₂ <;> rw [h₂, h₁]
  · exact .inl rfl
  · exact .inr rfl
  · exact .inr rfl
  · exact .inr (by rw [List.filter_filter]; simp)

theorem upToBare_idleResult (t : String) (e : Engine) : UpToBare e (idleResult t e) := by
  unfold idleResult
  split
  · exact ⟨.inr rfl, rfl, rfl⟩
  · exact .refl e

theorem Calm.upToBare {t : String} {e e' : Engine} (hc : Calm t e) (h : UpToBare e e') : Calm t e' := by
  rcases h.rows with hr | hr
  · exact hc.congr hr h.fixed h.inprocessing
  · exact hc.retireBare.congr hr h.fixed h.inprocessing

theorem NoBare.upToBare {e e' : Engine} (hn : NoBare e) (h : UpToBare e e') : NoBare e' := by
  intro r hr
  rcases h.rows with h₁ | h₁ <;> rw [h₁] at hr
  · exact hn r hr
  · exact hn r (List.mem_of_mem_filter hr)

/-- Every technique named is at rest, and when unit propagation is among them no soft row without
literals is left for it to retire. -/
structure AtRest (ts : List String) (e : Engine) : Prop where
  calm : ∀ t ∈ ts, Calm t e
  noBare : "u" ∈ ts → NoBare e

theorem AtRest.nil (e : Engine) : AtRest [] e := ⟨by simp, by simp⟩

theorem AtRest.cons {t : String} {ts : List String} {e : Engine} (hc : Calm t e) (hu : t = "u" → NoBare e)
    (h : AtRest ts e) : AtRest (t :: ts) e := by
  refine ⟨fun t' ht' => ?_, fun hmem => ?_⟩
  · rcases List.mem_cons.1 ht' with rfl | ht'
    exacts [hc, h.calm t' ht']
  · rcases List.mem_cons.1 hmem with hu' | hmem
    exacts [hu hu'.symm, h.noBare hmem]

theorem AtRest.congr {ts : List String} {e e' : Engine} (h : AtRest ts e) (hrows : e'.rows = e.rows)
    (hfixed : e'.fixed = e.fixed) (hin : e'.inprocessing = e.inprocessing) : AtRest ts e' :=
  ⟨fun t ht => (h.calm t ht).congr hrows hfixed hin, fun hu r hr => h.noBare hu r (hrows ▸ hr)⟩

theorem AtRest.mono {ts ts' : List String} {e : Engine} (h : AtRest ts e) (hsub : ∀ t ∈ ts', t ∈ ts) :
    AtRest ts' e :=
  ⟨fun t ht => h.calm t (hsub t ht), fun hu => h.noBare (hsub _ hu)⟩

/-- A technique at rest, run once more, reports no change and leaves the engine as it is. -/
theorem AtRest.quiet {ts : List String} {e : Engine} (ht : Tabled e) (h : AtRest ts e) {t : String}
    (hmem : t ∈ ts) : (runTechnique t).run e = (.ok false, e) := by
  rw [(h.calm t hmem).quiet ht]
  unfold idleResult
  split
  case isTrue hu =>
    have hbare := h.noBare (hu ▸ hmem)
    have hkeep : e.rows.filter (fun r => !r.bare) = e.rows :=
      List.filter_eq_self.2 (fun r hr => by simp [hbare r hr])
    have hnone : e.rows.filter Row.bare = [] :=
      List.filter_eq_nil_iff.2 (fun r hr => by simp [hbare r hr])
    simp only [retireBare, hkeep, hnone, addRemoved_nil ht.rows.removed]
  case isFalse => rfl

end Engine

end MaxSatPrep
