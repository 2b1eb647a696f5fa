import MaxSatPrep.Proofs.TopWeight
/-!
Freezing. A session that does not inprocess takes rows, labels and weights only until it is
preprocessed: a preprocessing call that answers, whatever its techniques and time limit, raises the
engine's preprocessed flag, and from then on the engine is frozen. Every later call keeps the
largest variable, only deletes rows or literals of rows, keeping the weights and the label flag of
every row it keeps, only loses label literals, only appends fixed literals, and moves the top
weight only as a preprocessing run that adds the weight it removed. A preprocessing call that fails
does not raise the flag, though a run stopped after its first technique (a log level that does not
compare with numbers) keeps what the technique did. An inprocessing engine skips blocked clause
elimination, so the trace of an inprocessing session holds only fixed literals.

Main statements: `Steps.trims` (what preprocessing steps do to the rows and the trace),
`Engine.Change.shrinks` (what a call does to a frozen engine) and `frozen_after_preprocessing`.
-/

namespace MaxSatPrep

open Session (intOf)

/-! ## Trimmed rows -/

namespace Row

/-- `r'` is `r` with some of its literals deleted, with the weights and the label flag of `r`. -/
structure Trimmed (r' r : Row) : Prop where
  lits : r'.lits.Sublist r.lits
  weights : r'.weights = r.weights
  label : r'.label = r.label

theorem Trimmed.refl (r : Row) : Trimmed r r := ⟨List.Sublist.refl _, rfl, rfl⟩

theorem Trimmed.trans {r r' r'' : Row} (h : Trimmed r r') (h' : Trimmed r' r'') : Trimmed r r'' :=
  ⟨h.lits.trans h'.lits, h.weights.trans h'.weights, h.label.trans h'.label⟩

instance : Std.Refl Trimmed := ⟨Trimmed.refl⟩

instance : IsTrans Row Trimmed := ⟨fun _ _ _ => Trimmed.trans⟩

theorem trimmed_without (vs : Engine.Fixing) (r : Row) : Trimmed (Engine.Row.without vs r) r :=
  ⟨List.filter_sublist, rfl, rfl⟩

theorem Trimmed.labelLit_eq {r' r : Row} (h : Trimmed r' r) (hu' : ∃ z : Int, r'.lits = [.int z])
    (hu : ∃ z : Int, r.lits = [.int z]) : r'.labelLit = r.labelLit := by
  obtain ⟨z', hz'⟩ := hu'
  obtain ⟨z, hz⟩ := hu
  have hlits : r'.lits = r.lits := h.lits.eq_of_length (by rw [hz', hz]; rfl)
  rw [labelLit, labelLit, hlits]

end Row

/-- `rows'` is `rows` with rows and literals deleted: each row of `rows'` is a row of `rows`
trimmed, in order, no two from one row. -/
def RowsTrimmed (rows' rows : List Row) : Prop := List.SublistForall₂ Row.Trimmed rows' rows

namespace RowsTrimmed

variable {rows rows' rows'' : List Row}

theorem refl (rows : List Row) : RowsTrimmed rows rows := refl_of (List.SublistForall₂ Row.Trimmed) rows

theorem trans (h : RowsTrimmed rows rows') (h' : RowsTrimmed rows' rows'') : RowsTrimmed rows rows'' :=
  trans_of (List.SublistForall₂ Row.Trimmed) h h'

theorem of_sublist (h : rows'.Sublist rows) : RowsTrimmed rows' rows := h.sublistForall₂

theorem kept (vs : Engine.Fixing) (rows : List Row) :
    RowsTrimmed (rows.filterMap (Engine.keptRow vs)) rows := by
  induction rows with
  | nil => exact .nil
  | cons r rows ih =>
    cases hk : Engine.keptRow vs r with
    | none =>
      rw [List.filterMap_cons_none hk]
      exact .cons_right ih
    | some r' =>
      rw [List.filterMap_cons_some hk]
      obtain ⟨rfl, -⟩ := Engine.keptRow_eq_some hk
      exact .cons (Row.trimmed_without vs r) ih

theorem label_sublist (h : RowsTrimmed rows' rows) (hu' : UnitLabels rows') (hu : UnitLabels rows) :
    (labelLits rows').Sublist (labelLits rows) := by
  induction h with
  | nil => exact List.nil_sublist _
  | @cons r' r rows' rows hr h ih =>
    have ih := ih (fun x hx => hu' x (List.mem_cons_of_mem _ hx)) (fun x hx => hu x (List.mem_cons_of_mem _ hx))
    rw [labelLits_cons, labelLits_cons, hr.label]
    split_ifs with hlab
    · rw [hr.labelLit_eq (hu' r' List.mem_cons_self (hr.label ▸ hlab)) (hu r List.mem_cons_self hlab)]
      exact ih.cons_cons _
    · exact ih
  | @cons_right r rows' rows h ih =>
    exact (ih hu' (fun x hx => hu x (List.mem_cons_of_mem _ hx))).trans
      (labelLits_sublist (List.sublist_cons_self r rows))

end RowsTrimmed

/-! ## What preprocessing steps do -/

/-- an event of blocked clause elimination -/
def Event.isBlocked : Event → Bool
  | .fix _ => false
  | .blocked _ _ => true

namespace Engine

/-- a trace without blocked clause eliminations -/
def FixesOnly (e : Engine) : Prop := ∀ ev ∈ e.trace, ev.isBlocked = false

theorem FixesOnly.append_fixes {e : Engine} (h : FixesOnly e) (F : List Int) :
    ∀ ev ∈ e.trace ++ F.map (fun z => Event.fix (.int z)), ev.isBlocked = false := by
  intro ev hev
  rcases List.mem_append.1 hev with hev | hev
  · exact h ev hev
  · obtain ⟨z, -, rfl⟩ := List.mem_map.1 hev
    rfl

/-- What preprocessing steps do to the table and the trace: rows are only deleted or trimmed, the
flags stay, and an inprocessing engine records only fixed literals. -/
structure Trims (e e' : Engine) : Prop where
  rows : RowsTrimmed e'.rows e.rows
  preprocessed : e'.preprocessed = e.preprocessed
  inprocessing : e'.inprocessing = e.inprocessing
  fixesOnly : e.inprocessing = true → FixesOnly e → FixesOnly e'

theorem Trims.refl (e : Engine) : Trims e e := ⟨RowsTrimmed.refl _, rfl, rfl, fun _ hf => hf⟩

theorem Trims.trans {e e' e'' : Engine} (h : Trims e e') (h' : Trims e' e'') : Trims e e'' :=
  ⟨h'.rows.trans h.rows, h'.preprocessed.trans h.preprocessed, h'.inprocessing.trans h.inprocessing,
    fun hin hf => h'.fixesOnly (h.inprocessing ▸ hin) (h.fixesOnly hin hf)⟩

/-- **Step lemma.** A step of preprocessing deletes rows and literals of rows, keeps the flags, and
on an inprocessing engine records only fixed literals. -/
theorem Step.trims {e e' : Engine} (ht : Tabled e) (hstep : Step e e') : Trims e e' := by
  cases hstep.effect ht with
  | propagate F _ _ _ _ => exact ⟨RowsTrimmed.kept _ _, rfl, rfl, fun _ hf => hf.append_fixes F⟩
  | subsume gone _ => exact ⟨RowsTrimmed.of_sublist (dropAt_sublist _ _), rfl, rfl, fun _ hf => hf⟩
  | eliminate gone events hin _ _ _ =>
    exact ⟨RowsTrimmed.of_sublist (dropAt_sublist _ _), rfl, rfl, fun hin' => by simp [hin] at hin'⟩
  | same => exact Trims.refl _
  | note log idle info => exact ⟨RowsTrimmed.refl _, rfl, rfl, fun _ hf => hf⟩

/-- **Run lemma.** Preprocessing steps from an engine in shape delete rows and literals of rows,
keep the flags, and on an inprocessing engine record only fixed literals. -/
theorem Steps.trims {n : Nat} {e e' : Engine} (h : Steps e e') (hs : Shape n e) : Trims e e' := by
  induction h with
  | refl => exact Trims.refl e
  | tail hsteps hstep ih => exact ih.trans (hstep.trims (Steps.shape hsteps hs).1.tabled)

theorem preprocess_ok_preprocessed {techniques logLevel timeLimit : Datum} {addRemoved : Bool}
    {e e' : Engine} {u : Unit} (h : (preprocess techniques logLevel timeLimit addRemoved).run e = (.ok u, e')) :
    e'.preprocessed = true := by
  obtain ⟨e₁, -, top, p, info, heq, -, hp⟩ := preprocess_steps techniques logLevel timeLimit addRemoved e
  rw [h] at heq hp
  obtain rfl : e' = { e₁ with top := top, preprocessed := p, info := info } := heq
  rcases hp with rfl | ⟨-, f, hf⟩
  · rfl
  · cases hf

/-! ## Frozen engines -/

theorem mutable_eq_false_iff {e : Engine} (hfin : e.finalized = true) :
    e.mutable = false ↔ e.inprocessing = false ∧ e.preprocessed = true := by
  cases hin : e.inprocessing <;> cases hp : e.preprocessed <;> simp [mutable, hfin, hin, hp]

/-- What a call may do to a frozen engine: keep the largest variable, delete rows and literals of
rows, lose label literals, append fixed literals, move the top weight only as a preprocessing run
that adds the weight it removed, and leave the engine frozen. -/
structure Shrinks (c : Session.Call) (e e' : Engine) : Prop where
  maxVar : e'.maxVar = e.maxVar
  rows : RowsTrimmed e'.rows e.rows
  labels : (labelLits e'.rows).Sublist (labelLits e.rows)
  top : e'.top = e.top ∨ c.addsRemoved = true
  fixed : e.fixed <+: e'.fixed
  frozen : e'.mutable = false

theorem Shrinks.of_untouched {c : Session.Call} {e e' : Engine} (hmut : e.mutable = false)
    (hrows : e'.rows = e.rows) (hmax : e'.maxVar = e.maxVar) (htop : e'.top = e.top)
    (hfix : e'.fixed = e.fixed) (hflags : e'.mutable = e.mutable) : Shrinks c e e' :=
  ⟨hmax, hrows ▸ RowsTrimmed.refl _, hrows ▸ List.Sublist.refl _, .inl htop, hfix ▸ List.prefix_refl _,
    hflags.trans hmut⟩

/-- A preprocessing call on a frozen engine, whether it answers or fails, shrinks it. -/
theorem preprocess_shrinks {n : Nat} {e : Engine} (hs : Shape n e) (hmut : e.mutable = false)
    (techniques logLevel timeLimit : Datum) (addRemoved : Bool) (ot ol otl : Option Datum) :
    Shrinks (.preprocess ot ol otl addRemoved) e ((preprocess techniques logLevel timeLimit addRemoved).run e).2 := by
  obtain ⟨e₁, hsteps, top, p, info, heq, htop, hp⟩ := preprocess_steps techniques logLevel timeLimit addRemoved e
  obtain ⟨hs₁, hg₁, hfr⟩ := hsteps.shape hs
  have htr := hsteps.trims hs
  obtain ⟨hin, hpre⟩ := (mutable_eq_false_iff hs.finalized).1 hmut
  -- frozen before, the engine keeps the flag raised whether the call answers or fails
  have hp' : p = true := by
    rcases hp with rfl | ⟨rfl, -⟩
    · rfl
    · exact htr.preprocessed.trans hpre
  rw [heq]
  refine ⟨hfr.maxVar, htr.rows, htr.rows.label_sublist hs₁.unitLabels hs.unitLabels, ?_, hg₁.fixed, ?_⟩
  · rcases htop with rfl | ⟨hadd, -⟩
    · exact .inl hfr.top
    · exact .inr hadd
  · exact (@mutable_eq_false_iff { e₁ with top := top, preprocessed := p, info := info } hs₁.finalized).2
      ⟨htr.inprocessing.trans hin, hp'⟩

/-- **Step lemma.** Every call shrinks a frozen engine: the calls that add or reweigh are refused. -/
theorem Change.shrinks {n : Nat} {c : Session.Call} {e e' : Engine} (hs : Shape n e)
    (hc : Change n c e e') (hmut : e.mutable = false) : Shrinks c e e' := by
  cases hc with
  | keep => exact Shrinks.of_untouched hmut rfl rfl rfl rfl rfl
  | setOptions => exact Shrinks.of_untouched hmut rfl rfl rfl rfl rfl
  | preprocess ot ol otl addRemoved _ techniques logLevel timeLimit =>
    exact preprocess_shrinks hs hmut techniques logLevel timeLimit addRemoved ot ol otl
  | addVar _ _ hmut' => rw [hmut] at hmut'; cases hmut'
  | addClause _ _ _ _ hmut' => rw [hmut] at hmut'; cases hmut'
  | addLabel _ _ _ _ _ _ _ hmut' => rw [hmut] at hmut'; cases hmut'
  | alterWeight _ _ _ _ _ _ _ hmut' => rw [hmut] at hmut'; cases hmut'
  | labelToVar _ _ _ hmut' => rw [hmut] at hmut'; cases hmut'
  | resetRemoved => exact Shrinks.of_untouched hmut rfl rfl rfl rfl rfl
  | reconstruct => exact Shrinks.of_untouched hmut rfl rfl rfl rfl rfl
  | printSolution => exact Shrinks.of_untouched hmut rfl rfl rfl rfl rfl

theorem Change.inprocessing {n : Nat} {c : Session.Call} {e e' : Engine} (hs : Shape n e)
    (hc : Change n c e e') : e'.inprocessing = e.inprocessing := by
  cases hc with
  | preprocess ot ol otl addRemoved _ techniques logLevel timeLimit =>
    obtain ⟨e₁, hsteps, top, p, info, heq, -, -⟩ := preprocess_steps techniques logLevel timeLimit addRemoved e
    rw [heq]
    exact (hsteps.trims hs).inprocessing
  | _ => rfl

/-- **Step lemma.** Calls on an inprocessing engine record only fixed literals in its trace. -/
theorem Change.fixesOnly {n : Nat} {c : Session.Call} {e e' : Engine} (hs : Shape n e)
    (hc : Change n c e e') (hin : e.inprocessing = true) (hf : FixesOnly e) : FixesOnly e' := by
  cases hc with
  | preprocess ot ol otl addRemoved _ techniques logLevel timeLimit =>
    obtain ⟨e₁, hsteps, top, p, info, heq, -, -⟩ := preprocess_steps techniques logLevel timeLimit addRemoved e
    rw [heq]
    exact (hsteps.trims hs).fixesOnly hin hf
  | _ => exact hf

end Engine

/-! ## Frozen sessions -/

namespace Session

variable {s : Session}

/-- A preprocessing call that answers ran the engine's preprocessing to its end. -/
theorem preprocess_answered {techniques logLevel timeLimit : Option Datum} {addRemoved : Bool}
    (h : (s.preprocess techniques logLevel timeLimit addRemoved).2 = none) :
    ∃ (t l tl : Datum) (u : Unit), (Engine.preprocess t l tl addRemoved).run s.engine =
      (.ok u, (s.preprocess techniques logLevel timeLimit addRemoved).1.engine) := by
  unfold Session.preprocess at h ⊢
  dsimp only at h ⊢
  split at h
  · cases h
  · cases h
  split at h
  · cases h
  rename_i e he
  obtain ⟨rfl, -, -⟩ := exclusive_ok he
  refine ⟨techniques.getD s.config.techniques, logLevel.getD s.config.logLevel,
    timeLimit.getD s.config.timeLimit, ?_⟩
  split at h
  · rename_i u e' hrun
    exact ⟨u, hrun⟩
  · cases h

theorem Reachable.inprocessing_eq (h : s.Reachable) : s.engine.inprocessing = s.inprocessing := by
  induction h with
  | opened h =>
    obtain ⟨top, M, info, -, -, -, -, -, heng, -, hin, -⟩ := Engine.openWith_engine h
    rw [heng, hin]
    rfl
  | perform hr c ih =>
    obtain ⟨e', heq, hc⟩ := hr.ready.perform_change c
    rw [heq]
    exact (hc.inprocessing hr.ready.shape).trans ih

/-- **Run lemma.** The trace of a reachable inprocessing session holds only fixed literals. -/
theorem Reachable.fixesOnly (h : s.Reachable) (hin : s.inprocessing = true) : s.engine.FixesOnly := by
  induction h with
  | opened h =>
    obtain ⟨top, M, info, -, -, -, -, -, heng, -⟩ := Engine.openWith_engine h
    rw [Engine.FixesOnly, heng]
    intro ev hev
    cases hev
  | perform hr c ih =>
    obtain ⟨e', heq, hc⟩ := hr.ready.perform_change c
    rw [heq] at hin ⊢
    exact hc.fixesOnly hr.ready.shape (hr.inprocessing_eq.trans hin) (ih hin)

theorem Reachable.preprocess_freezes (h : s.Reachable) (hin : s.inprocessing = false)
    {techniques logLevel timeLimit : Option Datum} {addRemoved : Bool}
    (hok : (s.preprocess techniques logLevel timeLimit addRemoved).2 = none) :
    (s.preprocess techniques logLevel timeLimit addRemoved).1.engine.mutable = false := by
  obtain ⟨t, l, tl, u, hrun⟩ := preprocess_answered hok
  have h₁ : (s.perform (.preprocess techniques logLevel timeLimit addRemoved)).Reachable := h.perform _
  obtain ⟨e', heq, -⟩ := h.ready.perform_change (.preprocess techniques logLevel timeLimit addRemoved)
  have hin₁ : (s.perform (.preprocess techniques logLevel timeLimit addRemoved)).inprocessing = false := by
    rw [heq]
    exact hin
  exact (Engine.mutable_eq_false_iff h₁.ready.shape.finalized).2
    ⟨h₁.inprocessing_eq.trans hin₁, Engine.preprocess_ok_preprocessed hrun⟩

/-- **Step lemma.** Every call shrinks a reachable frozen session. -/
theorem Reachable.shrinks (h : s.Reachable) (hmut : s.engine.mutable = false) (c : Call) :
    Engine.Shrinks c s.engine (s.perform c).engine := by
  obtain ⟨e', heq, hc⟩ := h.ready.perform_change c
  rw [heq]
  exact hc.shrinks h.ready.shape hmut

/-- **Run lemma.** A reachable frozen session stays frozen along every run of calls. -/
theorem Reachable.frozen_performAll (h : s.Reachable) (hmut : s.engine.mutable = false)
    (calls : List Call) : (s.performAll calls).engine.mutable = false := by
  induction calls generalizing s with
  | nil => exact hmut
  | cons c calls ih => exact ih (h.perform c) (h.shrinks hmut c).frozen

end Session

/-- **Freezing at the first preprocessing.** A reachable session that does not inprocess is frozen
by a preprocessing call that answers, whatever its techniques and time limit: along every run of
calls after it, each call keeps the largest variable, only deletes rows or literals of rows,
keeping the weights and label flag of the rows it keeps, only loses label literals, only appends
fixed literals, moves the top weight only as a preprocessing run that adds the weight it removed,
and leaves the session frozen. The trace of a reachable inprocessing session records no blocked
clause elimination. -/
theorem frozen_after_preprocessing {s : Session} (h : s.Reachable) :
    (s.inprocessing = false → ∀ (techniques logLevel timeLimit : Option Datum) (addRemoved : Bool),
      (s.preprocess techniques logLevel timeLimit addRemoved).2 = none →
      ∀ (calls : List Session.Call) (c : Session.Call),
        Engine.Shrinks c ((s.preprocess techniques logLevel timeLimit addRemoved).1.performAll calls).engine
          (((s.preprocess techniques logLevel timeLimit addRemoved).1.performAll calls).perform c).engine) ∧
    (s.inprocessing = true → ∀ ev ∈ s.engine.trace, ev.isBlocked = false) := by
  refine ⟨fun hin techniques logLevel timeLimit addRemoved hok calls c => ?_, h.fixesOnly⟩
  have h₁ : (s.preprocess techniques logLevel timeLimit addRemoved).1.Reachable :=
    h.perform (.preprocess techniques logLevel timeLimit addRemoved)
  exact (h₁.performAll calls).shrinks (h₁.frozen_performAll (h.preprocess_freezes hin hok) calls) c

/-- Unit propagation with a time limit of zero freezes the session of `x1 ∨ x2` under the soft
unit `x3`. -/
theorem frozen_after_timed_out_preprocessing :
    ∃ s, Session.openWith .reference {} [[⟨1, false, by decide⟩, ⟨2, false, by decide⟩]]
        [[([⟨3, false, by decide⟩], 1)]] false none = .ok s ∧
      ∀ (calls : List Session.Call) (c : Session.Call),
        Engine.Shrinks c ((s.preprocess (some (.str "u")) none (some (.int 0)) false).1.performAll calls).engine
          (((s.preprocess (some (.str "u")) none (some (.int 0)) false).1.performAll calls).perform c).engine := by
  have hview : (Session.openWith .reference {} [[⟨1, false, by decide⟩, ⟨2, false, by decide⟩]]
      [[([⟨3, false, by decide⟩], 1)]] false none).toOption.map
        (fun s => (s.inprocessing, (s.preprocess (some (.str "u")) none (some (.int 0)) false).2.isNone)) =
      some (false, true) := by
    decide +kernel
  obtain ⟨s, hO, hs⟩ := Outcome.exists_of_toOption_map hview
  simp only [Prod.mk.injEq] at hs
  exact ⟨s, hO, (frozen_after_preprocessing (.opened hO)).1 hs.1 _ _ _ _ (Option.isNone_iff_eq_none.1 hs.2)⟩

/-- A preprocessing call whose log level is no number fails after its first technique, keeping
what it did. Here unit propagation has fixed `x1` and `x2` of `x1 ∧ (¬x1 ∨ x2) ∧ (x2 ∨ x3)` and
deleted every row when the call fails, yet the session is not frozen: a variable is added after it. -/
theorem failed_preprocessing_leaves_session_open :
    ∃ s, Session.openWith .reference {} [[⟨1, false, by decide⟩], [⟨1, true, by decide⟩, ⟨2, false, by decide⟩],
        [⟨2, false, by decide⟩, ⟨3, false, by decide⟩]] [] false none = .ok s ∧
      (s.preprocess (some (.str "u")) (some (.str "x")) none false).2.isSome = true ∧
      (s.preprocess (some (.str "u")) (some (.str "x")) none false).1.preproFixedLits = .ok [1, 2] ∧
      (s.preprocess (some (.str "u")) (some (.str "x")) none false).1.nPreproClauses = .ok 0 ∧
      (s.preprocess (some (.str "u")) (some (.str "x")) none false).1.maxOrigVar = .ok 3 ∧
      ((s.preprocess (some (.str "u")) (some (.str "x")) none false).1.perform .addVar).maxOrigVar = .ok 4 := by
  have hview : (Session.openWith .reference {} [[⟨1, false, by decide⟩],
      [⟨1, true, by decide⟩, ⟨2, false, by decide⟩], [⟨2, false, by decide⟩, ⟨3, false, by decide⟩]] []
      false none).toOption.map (fun s =>
        ((s.preprocess (some (.str "u")) (some (.str "x")) none false).2.isSome,
          (s.preprocess (some (.str "u")) (some (.str "x")) none false).1.preproFixedLits.toOption,
          (s.preprocess (some (.str "u")) (some (.str "x")) none false).1.nPreproClauses.toOption,
          (s.preprocess (some (.str "u")) (some (.str "x")) none false).1.maxOrigVar.toOption,
          ((s.preprocess (some (.str "u")) (some (.str "x")) none false).1.perform .addVar).maxOrigVar.toOption)) =
      some (true, some [1, 2], some 0, some 3, some 4) := by
    decide +kernel
  obtain ⟨s, hO, hs⟩ := Outcome.exists_of_toOption_map hview
  simp only [Prod.mk.injEq] at hs
  obtain ⟨hfail, hfixed, hrows, hvar, hadded⟩ := hs
  exact ⟨s, hO, hfail, Outcome.eq_ok_of_toOption hfixed, Outcome.eq_ok_of_toOption hrows,
    Outcome.eq_ok_of_toOption hvar, Outcome.eq_ok_of_toOption hadded⟩

end MaxSatPrep
