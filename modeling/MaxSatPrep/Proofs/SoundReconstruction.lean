import MaxSatPrep.Proofs.Soundness
import MaxSatPrep.Proofs.Build
import MaxSatPrep.Proofs.Readback
import MaxSatPrep.Proofs.Reconstruction
import MaxSatPrep.Session.Calls
/-!
Reconstruction after preprocessing runs. A session opened on hard clauses `H` and then given
option settings and preprocessing calls in any order stays reconstructible for `H`
(`Reconstructible`): it is open with nothing pushed, its engine is well formed and sound for
`H`, its top weight and largest variable are integers, and no variable of `H` lies above the
largest. Opening establishes it (`openWith_reconstructible`) and each such call keeps it
(`Reconstructible.perform`).

Main statement, `reconstruct_satisfies_hards`: for an assignment satisfying every hard clause of
the simplified instance, reconstruction answers with one literal for each variable from one to
the largest original variable, and these literals satisfy every hard clause given at opening
and hold every fixed literal.
-/

namespace MaxSatPrep

open Session (intOf)

/-! ## Engines that agree on their formula -/

namespace Engine

/-- Well-formedness reads only the rows, removed weights, fixed literals, trace and largest
variable. -/
theorem Wf.congr {e e' : Engine} (hwf : Wf e) (hrows : e'.rows = e.rows)
    (hremoved : e'.removed = e.removed) (hfixed : e'.fixed = e.fixed) (htrace : e'.trace = e.trace)
    (hmax : e'.maxVar = e.maxVar) : Wf e' := by
  constructor
  · rw [hrows, hremoved]
    exact hwf.rows
  · rw [hfixed]
    exact hwf.fixed
  · rw [hrows, hfixed]
    exact hwf.free
  · rw [htrace]
    exact hwf.trace
  · rw [hrows, hmax]
    exact hwf.vars
  · rw [hfixed, hmax]
    exact hwf.fixedVars

theorem Sound.congr {H : List (List Int)} {e e' : Engine} (hs : Sound H e) (hrows : e'.rows = e.rows)
    (hfixed : e'.fixed = e.fixed) (htrace : e'.trace = e.trace) : Sound H e' := by
  unfold Sound Entails HardTrue at *
  rw [hrows, hfixed, htrace]
  exact hs

theorem Sound.of_trace_nil {H : List (List Int)} {e : Engine} (htrace : e.trace = [])
    (hfixed : e.fixed = []) (hH : ∀ c ∈ H, ∀ α : Valuation, HardTrue α e → α.clause c) :
    Sound H e := by
  intro α hα
  rw [htrace, Valuation.replay_nil]
  refine ⟨fun c hc => hH c hc α hα, fun z hz => hz α hα ?_⟩
  simp [hfixed]

theorem foldl_putOption (e : Engine) (ps : List (String × OptionValue)) :
    ∃ opts, ps.foldl (fun e p => e.putOption p.1 p.2) e = { e with options := opts } := by
  induction ps generalizing e with
  | nil => exact ⟨e.options, rfl⟩
  | cons p ps ih =>
    obtain ⟨opts, h⟩ := ih (e.putOption p.1 p.2)
    refine ⟨opts, ?_⟩
    rw [List.foldl_cons, h]
    unfold putOption
    split <;> rfl

end Engine

/-! ## Option settings and preprocessing calls -/

namespace Session

theorem exclusive_ok {s : Session} {e : Engine} (h : s.exclusive = .ok e) :
    e = s.engine ∧ s.closed = false ∧ s.locked = false := by
  unfold exclusive live at h
  cases hc : s.closed <;> cases hl : s.locked <;>
    simp [hc, hl, refuse, bind, Except.bind, pure, Except.pure] at h
  exact ⟨h.symm, rfl, rfl⟩

/-- Setting options that are accepted changes only the engine's options. -/
theorem setOptions_ok {s s' : Session} {o : Datum} (h : s.setOptions o = .ok s') :
    ∃ opts, s' = s.withEngine { s.engine with options := opts } := by
  unfold setOptions at h
  simp only [bind, Except.bind] at h
  split at h
  · cases h
  split at h
  · simp only [pure, Except.pure] at h
    split at h
    · cases h
    rename_i e he
    obtain ⟨rfl, -, -⟩ := exclusive_ok he
    cases h
    obtain ⟨opts, hopts⟩ := Engine.foldl_putOption s.engine _
    exact ⟨opts, by rw [hopts]⟩
  · simp [refuse] at h

/-- A preprocessing call leaves the session as it was, or gives it the engine that
preprocessing leaves on the techniques, log level and time limit of the call, each the session's
setting where the call gives none, whether the run answers or fails. -/
theorem preprocess_fst_eq (s : Session) (techniques logLevel timeLimit : Option Datum)
    (addRemoved : Bool) :
    (s.preprocess techniques logLevel timeLimit addRemoved).1 = s ∨
      (s.preprocess techniques logLevel timeLimit addRemoved).1 =
        s.withEngine ((Engine.preprocess (techniques.getD s.config.techniques)
          (logLevel.getD s.config.logLevel) (timeLimit.getD s.config.timeLimit) addRemoved).run s.engine).2 := by
  unfold preprocess
  dsimp only
  split
  · exact .inl rfl
  · exact .inl rfl
  split
  · exact .inl rfl
  rename_i e he
  obtain ⟨rfl, -, -⟩ := exclusive_ok he
  refine .inr ?_
  split <;> rename_i heq <;> rw [heq]

theorem preprocess_fst (s : Session) (techniques logLevel timeLimit : Option Datum)
    (addRemoved : Bool) :
    (s.preprocess techniques logLevel timeLimit addRemoved).1 = s ∨
      ∃ t l tl, (s.preprocess techniques logLevel timeLimit addRemoved).1 =
        s.withEngine ((Engine.preprocess t l tl addRemoved).run s.engine).2 :=
  (preprocess_fst_eq s techniques logLevel timeLimit addRemoved).imp_right
    (fun h => ⟨_, _, _, h⟩)

end Session

/-! ## Reconstructible sessions -/

/-- A session that reconstruction serves for the hard clauses `H`: open with nothing pushed,
its engine well formed and sound for `H`, with an integer top weight and an integer largest
variable that no variable of `H` exceeds. -/
structure Reconstructible (H : List (List Int)) (s : Session) : Prop where
  wf : Engine.Wf s.engine
  sound : Engine.Sound H s.engine
  top : ∃ t : Int, s.engine.top = .int t
  maxVar : ∃ m : Nat, s.engine.maxVar = .int m
  hardVars : ∀ c ∈ H, ∀ z ∈ c, z.natAbs ≤ (intOf s.engine.maxVar).natAbs
  pushed : s.engine.assignment = []
  closed : s.closed = false
  locked : s.locked = false

namespace Reconstructible

variable {H : List (List Int)} {s : Session}

/-- A new engine keeps the session reconstructible when it is well formed and sound, keeps the
largest variable, has an integer top weight and nothing pushed. -/
theorem withEngine (h : Reconstructible H s) {e : Engine} (hwf : Engine.Wf e)
    (hs : Engine.Sound H e) (htop : ∃ t : Int, e.top = .int t) (hmax : e.maxVar = s.engine.maxVar)
    (hpushed : e.assignment = []) : Reconstructible H (s.withEngine e) where
  wf := hwf
  sound := hs
  top := htop
  maxVar := by
    obtain ⟨m, hm⟩ := h.maxVar
    exact ⟨m, hmax.trans hm⟩
  hardVars := by
    intro c hc z hz
    simpa [Session.withEngine, hmax] using h.hardVars c hc z hz
  pushed := hpushed
  closed := h.closed
  locked := h.locked

theorem setOptions (h : Reconstructible H s) (opts : List (String × OptionValue)) :
    Reconstructible H (s.withEngine { s.engine with options := opts }) :=
  h.withEngine (h.wf.congr rfl rfl rfl rfl rfl) (h.sound.congr rfl rfl rfl) h.top rfl h.pushed

theorem preprocess (h : Reconstructible H s) (techniques logLevel timeLimit : Datum)
    (addRemoved : Bool) :
    Reconstructible H
      (s.withEngine ((Engine.preprocess techniques logLevel timeLimit addRemoved).run s.engine).2) := by
  obtain ⟨e₁, hwf₁, hs₁, hfr, top, p, info, heq, htop⟩ :=
    Engine.preprocess_sound techniques logLevel timeLimit addRemoved h.wf h.sound
  obtain ⟨t, ht⟩ := h.top
  have htop' : ∃ t' : Int, top = .int t' := by
    rcases htop.eq_int h.wf.rows.removed hwf₁.rows.removed (hfr.top.trans ht) with h' | h'
    · exact ⟨_, h'⟩
    · exact ⟨_, h'⟩
  rw [heq]
  exact h.withEngine (hwf₁.congr rfl rfl rfl rfl rfl) (hs₁.congr rfl rfl rfl) htop' hfr.maxVar
    (hfr.assignment.trans h.pushed)

/-- **Step lemma.** Setting options and preprocessing keep a session reconstructible. -/
theorem perform (h : Reconstructible H s) {c : Session.Call} (hc : c.isPreprocessing = true) :
    Reconstructible H (s.perform c) := by
  cases c
  case setOptions o =>
    rw [Session.perform]
    rcases hs : s.setOptions o with f | s'
    · exact h
    · obtain ⟨opts, rfl⟩ := Session.setOptions_ok hs
      exact h.setOptions opts
  case preprocess techniques logLevel timeLimit addRemoved =>
    rcases Session.preprocess_fst s techniques logLevel timeLimit addRemoved with heq | ⟨t, l, tl, heq⟩
    · rw [Session.perform, heq]
      exact h
    · rw [Session.perform, heq]
      exact h.preprocess t l tl addRemoved
  all_goals simp [Session.Call.isPreprocessing] at hc

/-- **Run lemma.** Any run of option settings and preprocessing calls keeps a session
reconstructible. -/
theorem performAll (h : Reconstructible H s) {calls : List Session.Call}
    (hcalls : ∀ c ∈ calls, c.isPreprocessing = true) : Reconstructible H (s.performAll calls) := by
  induction calls generalizing s with
  | nil => exact h
  | cons c calls ih =>
    rw [Session.performAll_cons]
    exact ih (h.perform (hcalls c (by simp))) (fun c' hc' => hcalls c' (by simp [hc']))

end Reconstructible

/-! ## Opening -/

section Opening

variable {hards : List (List Lit)} {objs : List (List (List Lit × Nat))}

theorem lits_of_streamedRows {P : Lit → Prop} (hh : ∀ c ∈ hards, ∀ l ∈ c, P l)
    (hs : ∀ p ∈ Weights.weightRows objs, ∀ l ∈ p.1, P l) :
    ∀ r ∈ streamedRows hards objs, ∀ d ∈ r.lits, ∃ l : Lit, P l ∧ d = .int l.toInt := by
  intro r hr d hd
  simp only [streamedRows, List.mem_append, List.mem_map] at hr
  rcases hr with ⟨c, hc, rfl⟩ | ⟨p, hp, rfl⟩
  · obtain ⟨l, hl, rfl⟩ := mem_litData.1 hd
    exact ⟨l, hh c hc l hl, rfl⟩
  · obtain ⟨l, hl, rfl⟩ := mem_litData.1 hd
    exact ⟨l, hs p hp l hl, rfl⟩

theorem weights_of_streamedRows :
    ∀ r ∈ streamedRows hards objs, ∀ ws, r.weights = some ws →
      ws.length = objs.length ∧ ∀ w ∈ ws, ∃ k : Int, w = .int k := by
  intro r hr ws hws
  simp only [streamedRows, List.mem_append, List.mem_map] at hr
  rcases hr with ⟨c, -, rfl⟩ | ⟨p, hp, rfl⟩
  · cases hws
  · cases hws
    refine ⟨by simpa using (Engine.weightRows_width hp).1, fun w hw => ?_⟩
    obtain ⟨k, -, rfl⟩ := List.mem_map.1 hw
    exact ⟨k, rfl⟩

theorem Row.eq_of_unlabelled {r r₀ : Row} (h : r.unlabelled = r₀.unlabelled) :
    r.lits = r₀.lits ∧ r.weights = r₀.weights := by
  have hl := congrArg Row.lits h
  have hw := congrArg Row.weights h
  exact ⟨hl, hw⟩

/-- Marking labels keeps each row's literals and weights, row for row. -/
theorem markLabels_rows {n : Nat} {rows : List Row}
    (h : ∀ r ∈ rows, ∀ ws, r.weights = some ws → ws.length = n) :
    (∀ r ∈ (Engine.markLabels (.int n) [] rows).1, ∃ r₀ ∈ rows, r.lits = r₀.lits ∧ r.weights = r₀.weights) ∧
      ∀ r₀ ∈ rows, ∃ r ∈ (Engine.markLabels (.int n) [] rows).1, r.lits = r₀.lits ∧ r.weights = r₀.weights := by
  have hu := Engine.markLabels_unlabelled [] h
  constructor
  · intro r hr
    have hmem : r.unlabelled ∈ rows.map Row.unlabelled := hu ▸ List.mem_map_of_mem hr
    obtain ⟨r₀, hr₀, heq⟩ := List.mem_map.1 hmem
    exact ⟨r₀, hr₀, Row.eq_of_unlabelled heq.symm⟩
  · intro r₀ hr₀
    have hmem : r₀.unlabelled ∈ (Engine.markLabels (.int n) [] rows).1.map Row.unlabelled :=
      hu ▸ List.mem_map_of_mem hr₀
    obtain ⟨r, hr, heq⟩ := List.mem_map.1 hmem
    exact ⟨r, hr, Row.eq_of_unlabelled heq⟩

/-- **Opening.** A session opened on hard clauses is reconstructible for them. -/
theorem openWith_reconstructible {backend : Backend} {config : SessionConfig} {inprocessing : Bool}
    {offsets : Option Datum} {s : Session}
    (h : Session.openWith backend config hards objs inprocessing offsets = .ok s) :
    Reconstructible (hards.map clauseInts) s := by
  obtain ⟨top, M, info, -, hM, hhv, hsv, -, heng, -, -, hcl, hlk⟩ := Engine.openWith_engine h
  have hwidth : ∀ r ∈ streamedRows hards objs, ∀ ws, r.weights = some ws →
      ws.length = objs.length ∧ ∀ w ∈ ws, ∃ k : Int, w = .int k := weights_of_streamedRows
  obtain ⟨hfrom, hto⟩ := markLabels_rows (fun r hr ws hws => (hwidth r hr ws hws).1)
  have hlits : ∀ r ∈ s.engine.rows, ∀ d ∈ r.lits, ∃ l : Lit, (l.var : Int) ≤ M ∧ d = .int l.toInt := by
    intro r hr d hd
    rw [heng] at hr
    obtain ⟨r₀, hr₀, hl, -⟩ := hfrom r hr
    exact lits_of_streamedRows hhv hsv r₀ hr₀ d (hl ▸ hd)
  have hhard : ∀ c ∈ hards, ∃ r ∈ s.engine.rows, r.ints = clauseInts c ∧ r.weights = none := by
    intro c hc
    have hr₀ : streamedRow c none ∈ streamedRows hards objs :=
      List.mem_append_left _ (List.mem_map_of_mem hc)
    obtain ⟨r, hr, hl, hw⟩ := hto _ hr₀
    refine ⟨r, by rw [heng]; exact hr, ?_, hw⟩
    simp [Row.ints, hl, streamedRow, litData, clauseInts, Function.comp_def]
  have hmax : s.engine.maxVar = .int M := by rw [heng]
  have hfixed : s.engine.fixed = [] := by rw [heng]; rfl
  have hwf : Engine.Wf s.engine := by
    refine ⟨⟨?_, ?_, ?_⟩, ?_, ?_, ?_, ?_, ?_⟩
    · intro r hr d hd
      obtain ⟨l, -, rfl⟩ := hlits r hr d hd
      exact (isLit_int _).2 (Lit.toInt_ne_zero l)
    · intro r hr ws hws
      rw [heng] at hr ⊢
      obtain ⟨r₀, hr₀, -, hw⟩ := hfrom r hr
      obtain ⟨hlen, hints⟩ := hwidth r₀ hr₀ ws (hw ▸ hws)
      exact ⟨by simp [hlen], hints⟩
    · intro d hd
      rw [heng] at hd
      obtain ⟨-, rfl⟩ := List.mem_replicate.1 hd
      exact ⟨0, rfl⟩
    · simp [hfixed]
    · intro r _ d _
      rw [hfixed]
      rfl
    · rw [heng]
      simp [Engine.start]
    · intro r hr d hd
      obtain ⟨l, hl, rfl⟩ := hlits r hr d hd
      rw [hmax]
      simp only [Session.intOf_int, Lit.natAbs_toInt]
      omega
    · simp [hfixed]
  refine ⟨hwf, ?_, ⟨top, by rw [heng]; rfl⟩, ⟨M.toNat, by rw [hmax, Int.toNat_of_nonneg hM]⟩,
    ?_, by rw [heng]; rfl, hcl, hlk⟩
  · refine Engine.Sound.of_trace_nil (by rw [heng]; rfl) hfixed ?_
    intro c hc α hα
    obtain ⟨c', hc', rfl⟩ := List.mem_map.1 hc
    obtain ⟨r, hr, hints, hw⟩ := hhard c' hc'
    exact hints ▸ hα r hr hw
  · intro c hc z hz
    obtain ⟨c', hc', rfl⟩ := List.mem_map.1 hc
    obtain ⟨l, hl, rfl⟩ := List.mem_map.1 hz
    have hvar := hhv c' hc' l hl
    rw [hmax, Session.intOf_int, Lit.natAbs_toInt]
    omega

end Opening

/-! ## Reconstruction -/

theorem Engine.hardTrue_of_extract {e : Engine} {n : Nat} {inst : Simplified}
    (hlits : ∀ r ∈ e.rows, ∀ d ∈ r.lits, IsLit d) {t : Int} (htop : e.top = .int t)
    (hext : e.extract (.int n) = .ok inst) {tau : List Datum} {a : Assignment}
    (htau : Assignment.ofDatums tau = .ok a)
    (hsat : ∀ c ∈ inst.hards, ∃ l ∈ c, a.litValue? l = some true) :
    Engine.HardTrue (Engine.Values.val (Engine.setLits [] (a.lits.map Lit.toInt))) e := by
  intro r hr hw
  obtain ⟨c, hc, hperm⟩ := Engine.extract_hard_rows hlits htop hext r hr hw
  obtain ⟨l, hl, hval⟩ := hsat c hc
  have hlit := Engine.lit_setLits Engine.intKeys_nil (Assignment.ofDatums_keysNodup htau).lits
    l.toInt (List.mem_map_of_mem (Assignment.mem_lits_of_litValue hval))
  exact ⟨l.toInt, hperm.subset (List.mem_map_of_mem hl), hlit⟩

namespace Reconstructible

variable {H : List (List Int)} {s : Session}

theorem shared_eq (h : Reconstructible H s) : s.shared = .ok s.engine := by
  simp [Session.shared, Session.live, h.closed, h.locked, bind, Except.bind, pure, Except.pure]

theorem maxOrigVar_eq (h : Reconstructible H s) :
    s.maxOrigVar = .ok (intOf s.engine.maxVar).natAbs := by
  simp only [Session.maxOrigVar, h.shared_eq, bind, Except.bind, pure, Except.pure]

theorem preproFixedLits_eq (h : Reconstructible H s) :
    s.preproFixedLits = .ok (s.engine.fixed.map intOf) := by
  simp only [Session.preproFixedLits, h.shared_eq, bind, Except.bind, pure, Except.pure]

/-- **Reconstruction from a reconstructible session.** For an assignment satisfying every hard
clause of the simplified instance, reconstruction answers with the model of a valuation that
satisfies `H` and every fixed literal. -/
theorem reconstruct_sound (h : Reconstructible H s) {inst : Simplified}
    (hinst : s.preproInstance = .ok inst) {tau : List Datum} {a : Assignment}
    (htau : Assignment.ofDatums tau = .ok a)
    (hsat : ∀ c ∈ inst.hards, ∃ l ∈ c, a.litValue? l = some true) :
    ∃ (σ : Valuation) (s' : Session),
      s.reconstruct tau = .ok (σ.model (intOf s.engine.maxVar).natAbs, s') ∧
        (∀ c ∈ H, σ.clause c) ∧ ∀ d ∈ s.engine.fixed, σ.lit (intOf d) := by
  obtain ⟨m, hm⟩ := h.maxVar
  obtain ⟨t, ht⟩ := h.top
  have hext : s.engine.extract (.int s.nObj) = .ok inst := by
    simpa [Session.preproInstance, h.shared_eq, bind, Except.bind] using hinst
  have hα := Engine.hardTrue_of_extract h.wf.rows.lits ht hext htau hsat
  -- soundness: the replay of the trace satisfies `H` and every fixed literal
  obtain ⟨hH, hfix⟩ := h.sound _ hα
  obtain ⟨vs, hrec, hvs⟩ := Session.reconstruct_model h.closed h.locked h.wf.trace hm h.pushed htau
  refine ⟨Engine.Values.val vs, s.withEngine { s.engine with assignment := [], reconstructed := vs },
    ?_, ?_, ?_⟩
  · rw [hrec, hm, Session.intOf_int, Int.natAbs_natCast]
  · rw [hvs]
    exact hH
  · intro d hd
    rw [hvs]
    exact hfix _ (Engine.Entails.fixed hd)

theorem model_satisfies {hards : List (List Lit)} (h : Reconstructible (hards.map clauseInts) s)
    {σ : Valuation} (hH : ∀ c ∈ hards.map clauseInts, σ.clause c) :
    ∀ c ∈ hards, ∃ l ∈ c, l.toInt ∈ σ.model (intOf s.engine.maxVar).natAbs := by
  intro c hc
  obtain ⟨z, hz, hσz⟩ := hH (clauseInts c) (List.mem_map_of_mem hc)
  obtain ⟨l, hl, rfl⟩ := List.mem_map.1 hz
  have hbound := h.hardVars _ (List.mem_map_of_mem hc) _ hz
  exact ⟨l, hl, (Valuation.mem_model (Lit.toInt_ne_zero l) hbound).2 hσz⟩

end Reconstructible

/-- **Reconstruction is sound after preprocessing.** Open a session on hard clauses and
objectives, then set options and preprocess any number of times. For every assignment that
satisfies each hard clause of the simplified instance, reconstruction answers with one literal
for each variable from one to the largest original variable, in order; these literals satisfy
every hard clause given at opening and include every fixed literal. -/
theorem reconstruct_satisfies_hards {backend : Backend} {config : SessionConfig}
    {hards : List (List Lit)} {objs : List (List (List Lit × Nat))} {inprocessing : Bool}
    {offsets : Option Datum} {s₀ : Session}
    (hopen : Session.openWith backend config hards objs inprocessing offsets = .ok s₀)
    {calls : List Session.Call} (hcalls : ∀ c ∈ calls, c.isPreprocessing = true)
    {inst : Simplified} (hinst : (s₀.performAll calls).preproInstance = .ok inst)
    {tau : List Datum} {a : Assignment} (htau : Assignment.ofDatums tau = .ok a)
    (hsat : ∀ c ∈ inst.hards, ∃ l ∈ c, a.litValue? l = some true) :
    ∃ (n : Nat) (model : List Int) (s' : Session),
      (s₀.performAll calls).maxOrigVar = .ok n ∧
      (s₀.performAll calls).reconstruct tau = .ok (model, s') ∧
      model.map Int.natAbs = List.range' 1 n ∧
      (∀ c ∈ hards, ∃ l ∈ c, l.toInt ∈ model) ∧
      ∃ fixed, (s₀.performAll calls).preproFixedLits = .ok fixed ∧ ∀ z ∈ fixed, z ∈ model := by
  have hr := (openWith_reconstructible hopen).performAll hcalls
  obtain ⟨σ, s', hrec, hH, hfix⟩ := hr.reconstruct_sound hinst htau hsat
  refine ⟨_, _, s', hr.maxOrigVar_eq, hrec, σ.model_natAbs _, hr.model_satisfies hH, _,
    hr.preproFixedLits_eq, ?_⟩
  · intro z hz
    obtain ⟨d, hd, rfl⟩ := List.mem_map.1 hz
    exact (Valuation.mem_model (hr.wf.fixed d hd).ne_zero (hr.wf.fixedVars d hd)).2 (hfix d hd)

/-- Unit propagation fixes `x1` and `x2` in `x1`, `¬x1 ∨ x2`, `¬x2 ∨ x3 ∨ x4` under the objective
`¬x3` of weight 5, and blocked clause elimination removes what is left of the last clause,
`x3 ∨ x4`. An assignment making `x3` false satisfies the empty hard part, and reconstruction
turns it into a model of all three clauses. -/
theorem reconstruct_after_elimination :
    ∃ s₀, Session.openWith .reference {}
        [[⟨1, false, by decide⟩], [⟨1, true, by decide⟩, ⟨2, false, by decide⟩],
          [⟨2, true, by decide⟩, ⟨3, false, by decide⟩, ⟨4, false, by decide⟩]]
        [[([⟨3, true, by decide⟩], 5)]] false none = .ok s₀ ∧
      ∃ (n : Nat) (model : List Int) (s' : Session),
        (s₀.performAll [.preprocess (some (.str "ub")) none none false]).maxOrigVar = .ok n ∧
        (s₀.performAll [.preprocess (some (.str "ub")) none none false]).reconstruct [.int (-3)] =
          .ok (model, s') ∧
        model.map Int.natAbs = List.range' 1 n ∧
        (∀ c ∈ [[(⟨1, false, by decide⟩ : Lit)], [⟨1, true, by decide⟩, ⟨2, false, by decide⟩],
            [⟨2, true, by decide⟩, ⟨3, false, by decide⟩, ⟨4, false, by decide⟩]],
          ∃ l ∈ c, l.toInt ∈ model) ∧
        ∃ fixed, (s₀.performAll [.preprocess (some (.str "ub")) none none false]).preproFixedLits =
          .ok fixed ∧ ∀ z ∈ fixed, z ∈ model := by
  have hrun : ((Session.openWith .reference {}
      [[⟨1, false, by decide⟩], [⟨1, true, by decide⟩, ⟨2, false, by decide⟩],
        [⟨2, true, by decide⟩, ⟨3, false, by decide⟩, ⟨4, false, by decide⟩]]
      [[([⟨3, true, by decide⟩], 5)]] false none).toOption.bind (fun s =>
        ((s.performAll [.preprocess (some (.str "ub")) none none false]).preproInstance).toOption)).map
        Simplified.hards = some [] := by
    decide +kernel
  obtain ⟨inst, hview, hhards⟩ := Option.map_eq_some_iff.1 hrun
  obtain ⟨s₀, hO, hI⟩ := Outcome.exists_of_toOption_bind hview
  refine ⟨s₀, hO, reconstruct_satisfies_hards hO (by decide) (Outcome.eq_ok_of_toOption hI) rfl ?_⟩
  simp [hhards]

end MaxSatPrep
