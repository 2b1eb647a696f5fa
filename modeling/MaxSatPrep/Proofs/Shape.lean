import MaxSatPrep.Proofs.Edits
/-!
The shape of a finalized engine between the calls of a session with `n` objectives: no literal
zero, every variable known, soft rows with one weight at least zero per objective, one removed
weight per objective, label rows soft units on distinct variables, fixed literals on distinct
variables, and nothing left in the buffers. `Grows` says what only grows: the largest variable,
and the fixed literals, which are only appended to.

Main statements: `Step.shape` (a step of preprocessing keeps the shape) and `preprocess_shape`
(a preprocessing call keeps it, whether it answers or fails).
-/

namespace MaxSatPrep

open Session (intOf)

/-! ## Label rows -/

section Labels

variable {rows rows' : List Row}

theorem labelLits_append (rows rows' : List Row) :
    labelLits (rows ++ rows') = labelLits rows ++ labelLits rows' := by
  simp [labelLits]

theorem labelLits_sublist (h : rows'.Sublist rows) : (labelLits rows').Sublist (labelLits rows) :=
  (h.filter _).map _

theorem labelLits_eq_filterMap (rows : List Row) :
    labelLits rows =
      (rows.map (fun r => (r.label, r.labelLit))).filterMap (fun p => if p.1 then some p.2 else none) := by
  induction rows with
  | nil => rfl
  | cons r rows ih =>
    cases hlab : r.label <;> simp_all [labelLits]

theorem labelLits_set {i : Nat} {r r' : Row} (hr : rows[i]? = some r) (hlab : r'.label = r.label)
    (hlit : r'.labelLit = r.labelLit) : labelLits (rows.set i r') = labelLits rows := by
  have hi : i < rows.length := (List.getElem?_eq_some_iff.1 hr).1
  have hget : rows[i] = r := (List.getElem?_eq_some_iff.1 hr).2
  have hkeys : (rows.set i r').map (fun r => (r.label, r.labelLit)) =
      rows.map (fun r => (r.label, r.labelLit)) := by
    apply List.ext_getElem?
    intro j
    rw [List.getElem?_map, List.getElem?_set, List.getElem?_map]
    by_cases hj : i = j
    · subst hj
      simp [hi, hlab, hlit, hget]
    · simp [hj]
  rw [labelLits_eq_filterMap, hkeys, ← labelLits_eq_filterMap]

end Labels

namespace Engine

theorem keptRow_unit {vs : Fixing} {r r' : Row} (hk : keptRow vs r = some r') (hw : r.weights.isSome)
    (hl : r.lits.length = 1) : r'.lits = r.lits := by
  obtain ⟨d, hd⟩ := List.length_eq_one_iff.1 hl
  have hsome : keptRow vs r = some (Row.without vs r) := by
    rw [hk, (keptRow_eq_some hk).1]
  unfold keptRow at hsome
  split at hsome
  · cases hsome
  rename_i hkeep
  rw [(keptRow_eq_some hk).1]
  simp only [Row.without, hd, List.filter_cons, List.filter_nil]
  split
  · rfl
  · simp_all [Row.without]

/-- A sweep keeps the label literals of its rows, or drops some, when every label row is a soft
unit row. -/
theorem labelLits_kept {rows : List Row} (vs : Fixing)
    (h : ∀ r ∈ rows, r.label = true → r.weights.isSome ∧ r.lits.length = 1) :
    (labelLits (rows.filterMap (keptRow vs))).Sublist (labelLits rows) := by
  induction rows with
  | nil => simp [labelLits]
  | cons r rows ih =>
    have ih' := ih (fun r' hr' => h r' (List.mem_cons_of_mem _ hr'))
    cases hk : keptRow vs r with
    | none =>
      rw [List.filterMap_cons_none hk]
      refine ih'.trans ?_
      rw [← List.singleton_append, labelLits_append]
      exact List.sublist_append_right _ _
    | some r' =>
      rw [List.filterMap_cons_some hk, ← List.singleton_append, labelLits_append,
        ← List.singleton_append (l := rows),
        labelLits_append]
      refine List.Sublist.append ?_ ih'
      have hlab : r'.label = r.label := by rw [(keptRow_eq_some hk).1, Row.without_label]
      cases hr : r.label
      · simp [labelLits, hlab, hr]
      · obtain ⟨hw, hl⟩ := h r (by simp) hr
        have hlit : r'.labelLit = r.labelLit := by rw [Row.labelLit, keptRow_unit hk hw hl, Row.labelLit]
        simp [labelLits, hlab, hr, hlit]

theorem fixLit_fixingOf_eq_none {ds : List Datum} {k : Nat} (h : fixLit (fixingOf ds) k = none) :
    ∀ d ∈ ds, (intOf d).natAbs ≠ k := by
  have hfix := @fixLit_append_map (ds.map intOf).reverse [] k
  rw [List.append_nil] at hfix
  rw [fixingOf, hfix, fixLit_nil, Option.or_none, List.find?_eq_none] at h
  intro d hd
  simpa using h (intOf d) (by simpa using ⟨d, hd, rfl⟩)

end Engine

/-! ## The shape of the rows -/

/-- The rows of an engine with `n` objectives and largest variable `m`: integer literals other
than zero on variables up to `m`; soft rows, only with objectives, with one weight at least zero
per objective; label rows soft rows of one literal, no two on one variable. -/
structure RowsShape (n m : Nat) (rows : List Row) : Prop where
  lits : ∀ r ∈ rows, ∀ d ∈ r.lits, IsLit d ∧ (intOf d).natAbs ≤ m
  weights : ∀ r ∈ rows, ∀ ws, r.weights = some ws → 0 < n ∧ ws.length = n ∧ ∀ w ∈ ws, IsWeight w
  labels : ∀ r ∈ rows, r.label = true → r.weights.isSome ∧ r.lits.length = 1
  labelVars : ((labelLits rows).map Int.natAbs).Nodup

namespace RowsShape

variable {n m : Nat} {rows : List Row}

theorem unitLabels (h : RowsShape n m rows) : UnitLabels rows := by
  intro r hr hlab
  obtain ⟨d, hd⟩ := List.length_eq_one_iff.1 (h.labels r hr hlab).2
  obtain ⟨z, -, rfl⟩ := (h.lits r hr d (by simp [hd])).1
  exact ⟨z, hd⟩

theorem sublist (h : RowsShape n m rows) {rows' : List Row} (hsub : rows'.Sublist rows) :
    RowsShape n m rows' where
  lits r hr := h.lits r (hsub.subset hr)
  weights r hr := h.weights r (hsub.subset hr)
  labels r hr := h.labels r (hsub.subset hr)
  labelVars := h.labelVars.sublist ((labelLits_sublist hsub).map _)

theorem mono (h : RowsShape n m rows) {m' : Nat} (hm : m ≤ m') : RowsShape n m' rows :=
  { h with lits := fun r hr d hd => ⟨(h.lits r hr d hd).1, (h.lits r hr d hd).2.trans hm⟩ }

/-- A sweep keeps the shape of the rows it keeps. -/
theorem kept (h : RowsShape n m rows) (vs : Engine.Fixing) : RowsShape n m (rows.filterMap (Engine.keptRow vs)) := by
  have hsrc : ∀ r' ∈ rows.filterMap (Engine.keptRow vs),
      ∃ r ∈ rows, Engine.keptRow vs r = some r' ∧ r' = Engine.Row.without vs r := by
    intro r' hr'
    obtain ⟨r, hr, hk⟩ := List.mem_filterMap.1 hr'
    exact ⟨r, hr, hk, (Engine.keptRow_eq_some hk).1⟩
  refine ⟨fun r' hr' d hd => ?_, fun r' hr' ws hws => ?_, fun r' hr' hlab => ?_, ?_⟩
  · obtain ⟨r₀, hr₀, hd₀⟩ := Engine.mem_lits_of_kept hr' hd
    exact h.lits r₀ hr₀ d hd₀
  · obtain ⟨r, hr, -, rfl⟩ := hsrc r' hr'
    exact h.weights r hr ws hws
  · obtain ⟨r, hr, hk, rfl⟩ := hsrc r' hr'
    have hl := h.labels r hr hlab
    exact ⟨hl.1, by rw [← (Engine.keptRow_eq_some hk).1, Engine.keptRow_unit hk hl.1 hl.2, hl.2]⟩
  · exact h.labelVars.sublist ((Engine.labelLits_kept vs h.labels).map _)

/-- A row in shape, whose label, if it has one, is on a variable no label row uses, can be
appended. -/
theorem append (h : RowsShape n m rows) {r : Row} (hlits : ∀ d ∈ r.lits, IsLit d ∧ (intOf d).natAbs ≤ m)
    (hw : ∀ ws, r.weights = some ws → 0 < n ∧ ws.length = n ∧ ∀ w ∈ ws, IsWeight w)
    (hlab : r.label = true → r.weights.isSome ∧ r.lits.length = 1 ∧
      ∀ x ∈ labelLits rows, x.natAbs ≠ r.labelLit.natAbs) :
    RowsShape n m (rows ++ [r]) := by
  refine ⟨fun r' hr' => ?_, fun r' hr' => ?_, fun r' hr' => ?_, ?_⟩
  · rcases List.mem_append.1 hr' with hr' | hr'
    · exact h.lits r' hr'
    · rw [List.mem_singleton.1 hr']
      exact hlits
  · rcases List.mem_append.1 hr' with hr' | hr'
    · exact h.weights r' hr'
    · rw [List.mem_singleton.1 hr']
      exact hw
  · rcases List.mem_append.1 hr' with hr' | hr'
    · exact h.labels r' hr'
    · rw [List.mem_singleton.1 hr']
      exact fun hl => ⟨(hlab hl).1, (hlab hl).2.1⟩
  · rw [labelLits_append, List.map_append]
    cases hr : r.label
    · simpa [labelLits, hr] using h.labelVars
    · have hfresh := (hlab hr).2.2
      refine List.nodup_append.2 ⟨h.labelVars, by simp [labelLits, hr], ?_⟩
      intro a ha b hb
      simp only [labelLits, List.filter_cons, hr, if_true, List.filter_nil, List.map_cons, List.map_nil,
        List.mem_singleton] at hb
      obtain ⟨x, hx, rfl⟩ := List.mem_map.1 ha
      rw [hb]
      exact hfresh x hx

/-- A row can be replaced by one with the same literals and label flag, in shape. -/
theorem set (h : RowsShape n m rows) {i : Nat} {r r' : Row} (hr : rows[i]? = some r)
    (hlits : r'.lits = r.lits) (hlab : r'.label = r.label) (hsoft : r'.weights.isSome = r.weights.isSome)
    (hw : ∀ ws, r'.weights = some ws → 0 < n ∧ ws.length = n ∧ ∀ w ∈ ws, IsWeight w) :
    RowsShape n m (rows.set i r') := by
  have hmem : r ∈ rows := List.mem_of_getElem? hr
  have hset : ∀ x ∈ rows.set i r', x ∈ rows ∨ x = r' := by
    intro x hx
    rcases List.mem_or_eq_of_mem_set hx with hx | hx
    · exact .inl hx
    · exact .inr hx
  refine ⟨fun x hx => ?_, fun x hx => ?_, fun x hx => ?_, ?_⟩
  · rcases hset x hx with hx | rfl
    · exact h.lits x hx
    · rw [hlits]
      exact h.lits r hmem
  · rcases hset x hx with hx | rfl
    · exact h.weights x hx
    · exact hw
  · rcases hset x hx with hx | rfl
    · exact h.labels x hx
    · rw [hlab, hsoft, hlits]
      exact h.labels r hmem
  · rw [labelLits_set hr hlab (by rw [Row.labelLit, hlits, Row.labelLit])]
    exact h.labelVars

end RowsShape

/-! ## The shape of the engine -/

namespace Engine

/-- The engine of a session with `n` objectives between calls: finalized, with integer top
weight and largest variable, rows in shape, one removed weight at least zero per objective,
integer fixed literals on distinct variables, an integer trace, and empty buffers for a clause
being added and an assignment being pushed. -/
structure Shape (n : Nat) (e : Engine) : Prop where
  finalized : e.finalized = true
  nObj : e.nObj = .int n
  nBound : (n : Int) ≤ Datum.repeatLimit
  top : ∃ t : Int, e.top = .int t
  maxVar : ∃ m : Nat, e.maxVar = .int m
  rows : RowsShape n (intOf e.maxVar).natAbs e.rows
  removed : e.removed.length = n ∧ ∀ d ∈ e.removed, IsWeight d
  fixed : ∀ d ∈ e.fixed, IsLit d
  fixedVars : ((e.fixed.map intOf).map Int.natAbs).Nodup
  trace : ∀ ev ∈ e.trace, ev.IsInt
  addBuffer : e.addBuffer = []
  assignment : e.assignment = []

/-- What only grows: the largest variable, and the fixed literals, only ever appended to. -/
structure Grows (e e' : Engine) : Prop where
  maxVar : (intOf e.maxVar).natAbs ≤ (intOf e'.maxVar).natAbs
  fixed : e.fixed <+: e'.fixed

theorem Grows.refl (e : Engine) : Grows e e := ⟨le_rfl, List.prefix_refl _⟩

theorem Grows.trans {e e' e'' : Engine} (h : Grows e e') (h' : Grows e' e'') : Grows e e'' :=
  ⟨h.maxVar.trans h'.maxVar, h.fixed.trans h'.fixed⟩

namespace Shape

variable {n : Nat} {e : Engine}

theorem tabled (h : Shape n e) : Tabled e where
  rows := ⟨fun r hr d hd => (h.rows.lits r hr d hd).1,
    fun r hr ws hws => by
      obtain ⟨-, hlen, hws⟩ := h.rows.weights r hr ws hws
      exact ⟨by rw [hlen, h.removed.1], fun w hw => ⟨_, (hws w hw).eq⟩⟩,
    fun d hd => ⟨_, (h.removed.2 d hd).eq⟩⟩
  fixed := h.fixed

theorem unitLabels (h : Shape n e) : UnitLabels e.rows := h.rows.unitLabels

theorem drop (h : Shape n e) {rows : List Row} (hsub : rows.Sublist e.rows) (events : List Event)
    (hev : ∀ ev ∈ events, ev.IsInt) : Shape n { e with rows := rows, trace := e.trace ++ events } :=
  { h with
    rows := h.rows.sublist hsub
    trace := fun ev hev' => (List.mem_append.1 hev').elim (h.trace ev) (hev ev) }

/-- Unit propagation keeps the shape: it sweeps the rows, retires weights at least zero and
appends fresh literals on distinct variables. -/
theorem propagate (h : Shape n e) {F : List Int}
    (hnew : ∀ z ∈ F, z ≠ 0 ∧ fixLit (fixingOf e.fixed) z.natAbs = none) (hnd : (F.map Int.natAbs).Nodup) :
    Shape n (e.propagated F) := by
  unfold Engine.propagated
  have hnn : WeightsNonneg e.rows := fun r hr ws hws => (h.rows.weights r hr ws hws).2.2
  refine { h with rows := h.rows.kept _, removed := ⟨?_, ?_⟩, fixed := ?_, fixedVars := ?_, trace := ?_ }
  · rw [length_addRemoved, h.removed.1]
  · exact (addRemoved_grows h.removed.2 (hnn.sublist List.filter_sublist)).1
  · intro d hd
    rcases List.mem_append.1 hd with hd | hd
    · exact h.fixed d hd
    · obtain ⟨z, hz, rfl⟩ := List.mem_map.1 hd
      exact (isLit_int z).2 (hnew z hz).1
  · have hF : ((F.map Datum.int).map intOf).map Int.natAbs = F.map Int.natAbs := by
      simp [Function.comp_def]
    rw [List.map_append, List.map_append, hF]
    refine List.nodup_append.2 ⟨h.fixedVars, hnd, ?_⟩
    intro a ha b hb
    obtain ⟨x, hx, rfl⟩ := List.mem_map.1 ha
    obtain ⟨d, hd, rfl⟩ := List.mem_map.1 hx
    obtain ⟨z, hz, rfl⟩ := List.mem_map.1 hb
    exact fixLit_fixingOf_eq_none (hnew z hz).2 d hd
  · intro ev hev
    rcases List.mem_append.1 hev with hev | hev
    · exact h.trace ev hev
    · obtain ⟨z, hz, rfl⟩ := List.mem_map.1 hev
      exact (isLit_int z).2 (hnew z hz).1

end Shape

/-- **Step lemma.** A step of preprocessing keeps the shape, and only grows the fixed literals. -/
theorem Step.shape {n : Nat} {e e' : Engine} (h : Shape n e) (hstep : Step e e') :
    Shape n e' ∧ Grows e e' := by
  cases hstep.effect h.tabled with
  | propagate F hnew hnd _ _ => exact ⟨h.propagate hnew hnd, le_rfl, List.prefix_append _ _⟩
  | subsume gone _ =>
    have hdrop := h.drop (dropAt_sublist e.rows gone) [] (by simp)
    rw [List.append_nil] at hdrop
    exact ⟨hdrop, le_rfl, List.prefix_refl _⟩
  | eliminate gone events _ _ hev _ =>
    exact ⟨h.drop (dropAt_sublist e.rows gone) events (isInt_of_blocked hev), le_rfl,
      List.prefix_refl _⟩
  | same => exact ⟨h, Grows.refl _⟩
  | note log idle info => exact ⟨{ h with }, le_rfl, List.prefix_refl _⟩

/-- **Run lemma.** Along steps the shape and the frame hold and the fixed literals only grow. -/
theorem Steps.shape {n : Nat} {e e' : Engine} (h : Steps e e') (hs : Shape n e) :
    Shape n e' ∧ Grows e e' ∧ Frame e e' := by
  induction h with
  | refl => exact ⟨hs, Grows.refl e, Frame.refl e⟩
  | tail _ hstep ih =>
    obtain ⟨hs₁, hg₁, hfr₁⟩ := ih
    obtain ⟨hs₂, hg₂⟩ := hstep.shape hs₁
    exact ⟨hs₂, hg₁.trans hg₂, hfr₁.trans (hstep.frame hs₁.tabled)⟩

/-- **Preprocessing keeps the shape.** A preprocessing call, whether it answers or fails, keeps
the shape and the largest variable and only grows the fixed literals. -/
theorem preprocess_shape (techniques logLevel timeLimit : Datum) (addRemoved : Bool) {n : Nat}
    {e : Engine} (h : Shape n e) :
    Shape n ((preprocess techniques logLevel timeLimit addRemoved).run e).2 ∧
      Grows e ((preprocess techniques logLevel timeLimit addRemoved).run e).2 ∧
      ((preprocess techniques logLevel timeLimit addRemoved).run e).2.maxVar = e.maxVar := by
  obtain ⟨e₁, hsteps, top, p, info, heq, htop, -⟩ :=
    preprocess_steps techniques logLevel timeLimit addRemoved e
  obtain ⟨hs₁, hg₁, hfr⟩ := hsteps.shape h
  obtain ⟨t, ht⟩ := h.top
  have hint : ∀ {ds : List Datum}, (∀ d ∈ ds, IsWeight d) → ∀ d ∈ ds, ∃ k : Int, d = .int k :=
    fun hds d hd => ⟨_, (hds d hd).eq⟩
  have htop' : ∃ t' : Int, top = .int t' := by
    rcases htop.eq_int (hint h.removed.2) (hint hs₁.removed.2) (hfr.top.trans ht) with h' | h'
    · exact ⟨_, h'⟩
    · exact ⟨_, h'⟩
  rw [heq]
  exact ⟨{ hs₁ with top := htop' }, ⟨hg₁.maxVar, hg₁.fixed⟩, hfr.maxVar⟩

end Engine

end MaxSatPrep
