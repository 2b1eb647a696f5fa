import MaxSatPrep.Proofs.SoundReconstruction
/-!
Soft weights under the top weight. The top weight is an integer above the sum of all soft
weights of all objectives (`TopBound`), so no soft weight can equal it: this is how the instance
read back tells hard rows from soft ones by their weights alone. Preprocessing keeps the bound:
its steps drop rows or retire their weights into the removed weights, and adding the retired
weight to the top weight only raises it.

Main statements: a step keeps the table's shape and the bound and only adds to the removed
weights (`Step.tabled`, `Step.topBound`), and so does a whole preprocessing call
(`preprocess_topBound`).
-/

namespace MaxSatPrep

open Session (intOf)

/-- the weights of a row in all objectives together; a hard row weighs nothing -/
def Row.weightTotal (r : Row) : Int := ((r.weights.getD []).map intOf).sum

namespace Engine

/-- the weights of all rows together -/
def softTotal (rows : List Row) : Int := (rows.map Row.weightTotal).sum

/-- the removed weights of all objectives together -/
def removedTotal (removed : List Datum) : Int := (removed.map intOf).sum

@[simp] theorem softTotal_nil : softTotal [] = 0 := rfl

@[simp] theorem softTotal_cons (r : Row) (rows : List Row) :
    softTotal (r :: rows) = r.weightTotal + softTotal rows := by
  simp [softTotal]

@[simp] theorem softTotal_append (a b : List Row) :
    softTotal (a ++ b) = softTotal a + softTotal b := by
  simp [softTotal]

/-! ## Weights at least zero -/

/-- every weight of every row is a weight: an integer at least zero -/
def WeightsNonneg (rows : List Row) : Prop :=
  ∀ r ∈ rows, ∀ ws, r.weights = some ws → ∀ w ∈ ws, IsWeight w

theorem WeightsNonneg.sublist {rows rows' : List Row} (h : WeightsNonneg rows)
    (hsub : rows'.Sublist rows) : WeightsNonneg rows' :=
  fun r hr => h r (hsub.subset hr)

theorem WeightsNonneg.kept {rows : List Row} (h : WeightsNonneg rows) (vs : Fixing) :
    WeightsNonneg (rows.filterMap (keptRow vs)) := by
  intro r' hr' ws hws
  obtain ⟨r, hr, hk⟩ := List.mem_filterMap.1 hr'
  rw [(keptRow_eq_some hk).1, Row.without_weights] at hws
  exact h r hr ws hws

theorem weightTotal_nonneg {rows : List Row} (h : WeightsNonneg rows) {r : Row} (hr : r ∈ rows) :
    0 ≤ r.weightTotal := by
  unfold Row.weightTotal
  cases hw : r.weights with
  | none => simp
  | some ws =>
    apply List.sum_nonneg
    intro x hx
    obtain ⟨w, hw', rfl⟩ := List.mem_map.1 hx
    exact (h r hr ws hw w hw').nonneg

theorem weightAt_nonneg {rows : List Row} (h : WeightsNonneg rows) {r : Row} (hr : r ∈ rows)
    (i : Nat) : 0 ≤ r.weightAt i := by
  unfold Row.weightAt
  cases hw : r.weights with
  | none => simp
  | some ws =>
    rw [Option.getD_some, List.getD_eq_getElem?_getD]
    cases hget : ws[i]? with
    | none => simp
    | some w => exact (h r hr ws hw w (List.mem_of_getElem? hget)).nonneg

theorem weightAt_le_weightTotal {rows : List Row} (h : WeightsNonneg rows) {r : Row}
    (hr : r ∈ rows) (i : Nat) : r.weightAt i ≤ r.weightTotal := by
  unfold Row.weightAt Row.weightTotal
  cases hw : r.weights with
  | none => simp
  | some ws =>
    have hnn : ∀ x ∈ ws.map intOf, 0 ≤ x := by
      intro x hx
      obtain ⟨w, hw', rfl⟩ := List.mem_map.1 hx
      exact (h r hr ws hw w hw').nonneg
    rw [Option.getD_some, List.getD_eq_getElem?_getD]
    cases hget : ws[i]? with
    | none => simpa using List.sum_nonneg hnn
    | some w => exact List.single_le_sum hnn _ (List.mem_map_of_mem (List.mem_of_getElem? hget))

theorem weightTotal_le_softTotal {rows : List Row} (h : WeightsNonneg rows) {r : Row}
    (hr : r ∈ rows) : r.weightTotal ≤ softTotal rows := by
  have hnn : ∀ x ∈ rows.map Row.weightTotal, 0 ≤ x := by
    intro x hx
    obtain ⟨r', hr', rfl⟩ := List.mem_map.1 hx
    exact weightTotal_nonneg h hr'
  exact List.single_le_sum hnn _ (List.mem_map_of_mem hr)

theorem weightSum_nonneg {rows : List Row} (h : WeightsNonneg rows) (i : Nat) :
    0 ≤ weightSum rows i := by
  apply List.sum_nonneg
  intro x hx
  obtain ⟨r, hr, rfl⟩ := List.mem_map.1 hx
  exact weightAt_nonneg h hr i

/-! ## What dropping and retiring rows does to the totals -/

theorem softTotal_le_of_sublist {rows rows' : List Row} (h : WeightsNonneg rows)
    (hsub : rows'.Sublist rows) : softTotal rows' ≤ softTotal rows := by
  have hnn : ∀ x ∈ rows.map Row.weightTotal, 0 ≤ x := by
    intro x hx
    obtain ⟨r, hr, rfl⟩ := List.mem_map.1 hx
    exact weightTotal_nonneg h hr
  exact (hsub.map Row.weightTotal).sum_le_sum hnn

/-- A sweep keeps rows with their weights and drops the others. -/
theorem softTotal_kept_le {rows : List Row} (h : WeightsNonneg rows) (vs : Fixing) :
    softTotal (rows.filterMap (keptRow vs)) ≤ softTotal rows := by
  induction rows with
  | nil => simp
  | cons r rs ih =>
    have hr := weightTotal_nonneg h (List.mem_cons_self)
    have ih := ih (fun r' hr' => h r' (List.mem_cons_of_mem _ hr'))
    cases hk : keptRow vs r with
    | none =>
      simp only [List.filterMap_cons, hk, softTotal_cons]
      linarith
    | some r' =>
      have hsame : r'.weightTotal = r.weightTotal := by
        rw [(keptRow_eq_some hk).1]
        rfl
      simp only [List.filterMap_cons, hk, softTotal_cons, hsame]
      linarith

/-- Adding amounts at least zero to weights, position by position, keeps them weights and only
adds to their total. -/
theorem mapIdx_add_grows {removed : List Datum} (hrem : ∀ d ∈ removed, IsWeight d)
    {f : Nat → Int} (hf : ∀ i, 0 ≤ f i) :
    (∀ d ∈ removed.mapIdx (fun i d => .int (intOf d + f i)), IsWeight d) ∧
      removedTotal removed ≤ removedTotal (removed.mapIdx (fun i d => .int (intOf d + f i))) := by
  induction removed generalizing f with
  | nil => simp [removedTotal]
  | cons d ds ih =>
    obtain ⟨k, hk, rfl⟩ := hrem d List.mem_cons_self
    have hf' : ∀ i, 0 ≤ (fun i => f (i + 1)) i := fun i => hf (i + 1)
    obtain ⟨hw, hle⟩ := ih (fun x hx => hrem x (List.mem_cons_of_mem _ hx)) hf'
    have h0 := hf 0
    refine ⟨?_, ?_⟩
    · intro x hx
      rw [List.mapIdx_cons] at hx
      rcases List.mem_cons.1 hx with rfl | hx
      · exact (isWeight_int _).2 (by simp only [Session.intOf_int]; omega)
      · exact hw x hx
    · simp only [removedTotal, List.mapIdx_cons, List.map_cons, List.sum_cons,
        Session.intOf_int] at hle ⊢
      linarith

theorem addRemoved_grows {removed : List Datum} (hrem : ∀ d ∈ removed, IsWeight d)
    {rows : List Row} (hnn : WeightsNonneg rows) :
    (∀ d ∈ addRemoved removed rows, IsWeight d) ∧
      removedTotal removed ≤ removedTotal (addRemoved removed rows) :=
  mapIdx_add_grows hrem (weightSum_nonneg hnn)

/-! ## The bound -/

/-- The top weight is an integer above the sum of all soft weights, and all weights, the removed
ones too, are at least zero. -/
structure TopBound (e : Engine) : Prop where
  weights : WeightsNonneg e.rows
  removed : ∀ d ∈ e.removed, IsWeight d
  top : ∃ t : Int, e.top = .int t ∧ 1 + softTotal e.rows ≤ t

theorem TopBound.drop {e : Engine} (hb : TopBound e) {rows : List Row} (hsub : rows.Sublist e.rows)
    (events : List Event) : TopBound { e with rows := rows, trace := e.trace ++ events } := by
  obtain ⟨t, ht, hle⟩ := hb.top
  refine ⟨hb.weights.sublist hsub, hb.removed, t, ht, ?_⟩
  have := softTotal_le_of_sublist hb.weights hsub
  simp only
  linarith

theorem RowsWf.sublist {rows rows' : List Row} {removed : List Datum} (h : RowsWf rows removed)
    (hsub : rows'.Sublist rows) : RowsWf rows' removed :=
  ⟨fun r hr => h.lits r (hsub.subset hr), fun r hr => h.weights r (hsub.subset hr), h.removed⟩

/-- **Step lemma.** A step keeps the table's shape. -/
theorem Step.tabled {e e' : Engine} (ht : Tabled e) (hstep : Step e e') : Tabled e' := by
  cases hstep.effect ht with
  | propagate F hnew _ _ _ =>
    refine ⟨ht.rows.kept _ _, fun d hd => ?_⟩
    rcases List.mem_append.1 hd with hd | hd
    · exact ht.fixed d hd
    · obtain ⟨z, hz, rfl⟩ := List.mem_map.1 hd
      exact (isLit_int z).2 (hnew z hz).1
  | subsume gone _ => exact ⟨ht.rows.sublist (dropAt_sublist _ _), ht.fixed⟩
  | eliminate gone events _ _ _ _ => exact ⟨ht.rows.sublist (dropAt_sublist _ _), ht.fixed⟩
  | same => exact ht
  | note log idle info => exact ⟨ht.rows, ht.fixed⟩

/-- **Step lemma.** A step keeps the bound and only adds to the removed weights. -/
theorem Step.topBound {e e' : Engine} (ht : Tabled e) (hb : TopBound e) (hstep : Step e e') :
    TopBound e' ∧ removedTotal e.removed ≤ removedTotal e'.removed := by
  cases hstep.effect ht with
  | propagate F _ _ _ _ =>
    obtain ⟨t, htop, hle⟩ := hb.top
    have hretired : (e.rows.filter (retiredBy (fixingOf (e.fixed ++ F.map .int)))).Sublist e.rows :=
      List.filter_sublist
    obtain ⟨hrem, hgrow⟩ := addRemoved_grows hb.removed (hb.weights.sublist hretired)
    have hkept := softTotal_kept_le hb.weights (fixingOf (e.fixed ++ F.map .int))
    exact ⟨⟨hb.weights.kept _, hrem, t, htop, by simp only [propagated]; linarith⟩, hgrow⟩
  | subsume gone _ =>
    have hdrop := hb.drop (dropAt_sublist e.rows gone) []
    rw [List.append_nil] at hdrop
    exact ⟨hdrop, le_rfl⟩
  | eliminate gone events _ _ _ _ => exact ⟨hb.drop (dropAt_sublist e.rows gone) events, le_rfl⟩
  | same => exact ⟨hb, le_rfl⟩
  | note log idle info => exact ⟨⟨hb.weights, hb.removed, hb.top⟩, le_rfl⟩

/-- **Run lemma.** Along steps the table keeps its shape, the bound holds, the removed weights
only grow and the frame stays. -/
theorem Steps.topBound {e e' : Engine} (h : Steps e e') (ht : Tabled e) (hb : TopBound e) :
    Tabled e' ∧ TopBound e' ∧ removedTotal e.removed ≤ removedTotal e'.removed ∧ Frame e e' := by
  induction h with
  | refl => exact ⟨ht, hb, le_rfl, Frame.refl e⟩
  | tail _ hstep ih =>
    obtain ⟨ht₁, hb₁, hle₁, hfr₁⟩ := ih
    obtain ⟨hb₂, hle₂⟩ := hstep.topBound ht₁ hb₁
    exact ⟨hstep.tabled ht₁, hb₂, hle₁.trans hle₂, hfr₁.trans (hstep.frame ht₁)⟩

/-- **Preprocessing keeps the bound.** A preprocessing call, whether it answers or fails, leaves
the table's shape and the bound: the weight it may add to the top weight is the removed weight
gained meanwhile, which is at least zero. -/
theorem preprocess_topBound (techniques logLevel timeLimit : Datum) (addRemoved : Bool)
    {e : Engine} (ht : Tabled e) (hb : TopBound e) :
    Tabled ((preprocess techniques logLevel timeLimit addRemoved).run e).2 ∧
      TopBound ((preprocess techniques logLevel timeLimit addRemoved).run e).2 := by
  obtain ⟨e₁, hsteps, top, p, info, heq, htop, -⟩ :=
    preprocess_steps techniques logLevel timeLimit addRemoved e
  obtain ⟨ht₁, hb₁, hle, hfr⟩ := hsteps.topBound ht hb
  obtain ⟨t₁, ht₁top, hbound⟩ := hb₁.top
  have hint : ∀ {ds : List Datum}, (∀ d ∈ ds, IsWeight d) → ∀ d ∈ ds, ∃ k : Int, d = .int k :=
    fun hds d hd => ⟨_, (hds d hd).eq⟩
  have htop' : ∃ t : Int, top = .int t ∧ t₁ ≤ t := by
    rcases htop.eq_int (hint hb.removed) (hint hb₁.removed) ht₁top with h' | h'
    · exact ⟨t₁, h', le_rfl⟩
    · refine ⟨_, h', ?_⟩
      have : removedTotal e.removed ≤ removedTotal e₁.removed := hle
      unfold removedTotal at this
      linarith
  obtain ⟨t, htop'', hle'⟩ := htop'
  rw [heq]
  exact ⟨⟨ht₁.rows, ht₁.fixed⟩, ⟨hb₁.weights, hb₁.removed, t, htop'', by simp only; linarith⟩⟩

end Engine

end MaxSatPrep
