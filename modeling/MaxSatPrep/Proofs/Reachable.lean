import MaxSatPrep.Proofs.SessionCalls
/-!
The sessions that calls reach. A session opens with its engine in shape (`Engine.Shape`), and
every call, answered or refused, changes the engine in one of the ways `Engine.Change` lists:
options set, a preprocessing run, a variable, a clause or a label added, a label reweighed or
turned back into a variable, the removed weights reset, or an assignment read back. Each such
change keeps the shape, and the largest variable and the fixed literals only grow.

Main statements: `Session.openWith_ready` (an opened session is ready), `Engine.Shape.change`
(the step lemma) and `Session.Reachable.ready` (every reachable session is ready).
-/

namespace MaxSatPrep

open Session (intOf)

/-! ## The labels marked at the start -/

/-- the literals that finalizing marks as labels: the literal of each soft row of one literal
whose variable is not seen yet, in row order -/
def unitLits (seen : List Nat) : List Row → List Int
  | [] => []
  | r :: rs =>
    if r.weights.isSome ∧ r.lits.length = 1 ∧ r.labelLit.natAbs ∉ seen then
      r.labelLit :: unitLits (r.labelLit.natAbs :: seen) rs
    else unitLits seen rs

/-- The literals marked are on distinct variables, none of them seen before. -/
theorem unitLits_vars (seen : List Nat) (rows : List Row) :
    ((unitLits seen rows).map Int.natAbs).Nodup ∧ ∀ x ∈ unitLits seen rows, x.natAbs ∉ seen := by
  induction rows generalizing seen with
  | nil => simp [unitLits]
  | cons r rs ih =>
    unfold unitLits
    split_ifs with hc
    · obtain ⟨hnd, hfresh⟩ := ih (r.labelLit.natAbs :: seen)
      refine ⟨List.nodup_cons.2 ⟨fun hmem => ?_, hnd⟩, fun x hx => ?_⟩
      · obtain ⟨x, hx, hxe⟩ := List.mem_map.1 hmem
        exact hfresh x hx (by simp [hxe])
      · rcases List.mem_cons.1 hx with rfl | hx
        · exact hc.2.2
        · exact fun hs => hfresh x hx (List.mem_cons_of_mem _ hs)
    · exact ih seen

theorem labelLits_cons (r : Row) (rows : List Row) :
    labelLits (r :: rows) = if r.label then r.labelLit :: labelLits rows else labelLits rows := by
  cases h : r.label <;> simp [labelLits, h]

namespace Engine

/-- Marking labels from the variables `seen` marks soft units only, and marks the literals
`unitLits` picks. -/
theorem markLabels_labels {n : Nat} (seen : List Nat) {rows : List Row}
    (hw : ∀ r ∈ rows, ∀ ws, r.weights = some ws → ws.length = n)
    (hl : ∀ r ∈ rows, ∀ d ∈ r.lits, IsLit d) (hu : ∀ r ∈ rows, r.label = false) :
    (∀ r ∈ (markLabels (.int n) (seen.map (fun k : Nat => Datum.int k)) rows).1, r.label = true →
        r.weights.isSome ∧ r.lits.length = 1) ∧
      labelLits (markLabels (.int n) (seen.map (fun k : Nat => Datum.int k)) rows).1 =
        unitLits seen rows := by
  induction rows generalizing seen with
  | nil => simp [markLabels, labelLits, unitLits]
  | cons r rs ih =>
    have ih' := fun seen => ih seen (fun r' hr' => hw r' (by simp [hr']))
      (fun r' hr' => hl r' (by simp [hr'])) (fun r' hr' => hu r' (by simp [hr']))
    have hr0 : r.label = false := hu r (by simp)
    rcases hws : r.weights with _ | ws
    case none =>
      obtain ⟨ih1, ih2⟩ := ih' seen
      simp only [markLabels, hws]
      refine ⟨fun r' hr' hlab => ?_, ?_⟩
      · rcases List.mem_cons.1 hr' with rfl | hr'
        · rw [hr0] at hlab
          cases hlab
        · exact ih1 r' hr' hlab
      · rw [labelLits_cons, hr0, if_neg (by simp), ih2]
        simp [unitLits, hws]
    case some =>
      have hpad : (do Datum.zeros (← Datum.minus (.int n) (.int ws.length)) : Outcome (List Datum)) =
          .ok [] := by
        rw [hw r (by simp) ws hws, Datum.minus_int, sub_self]
        exact zeros_zero
      simp only [markLabels, hws, hpad, List.append_nil]
      split
      · rename_i l hlits
        obtain ⟨z, hz, rfl⟩ := hl r (by simp) l (by simp [hlits])
        have hlit : r.labelLit = z := by simp [Row.labelLit, hlits]
        have hmem : Datum.memberOf (.int (z.natAbs : Int)) (seen.map (fun k : Nat => Datum.int k)) =
            decide (z.natAbs ∈ seen) := by
          rw [show seen.map (fun k : Nat => Datum.int k) = (seen.map (fun k : Nat => (k : Int))).map Datum.int by
            simp, Datum.memberOf_ints, decide_eq_decide]
          constructor
          · intro hm
            obtain ⟨a, ha, he⟩ := List.mem_map.1 hm
            rwa [show a = z.natAbs by exact_mod_cast he] at ha
          · intro hm
            exact List.mem_map.2 ⟨_, hm, rfl⟩
        simp only [Datum.magnitude_int, hmem]
        by_cases hs : z.natAbs ∈ seen
        · obtain ⟨ih1, ih2⟩ := ih' seen
          simp only [hs, decide_true, if_true]
          refine ⟨fun r' hr' hlab => ?_, ?_⟩
          · rcases List.mem_cons.1 hr' with rfl | hr'
            · simp [hr0] at hlab
            · exact ih1 r' hr' hlab
          · rw [labelLits_cons, if_neg (by simp [hr0]), ih2]
            simp [unitLits, hlit, hs]
        · obtain ⟨ih1, ih2⟩ := ih' (z.natAbs :: seen)
          simp only [List.map_cons] at ih1 ih2
          simp only [hs, decide_false, Bool.false_eq_true, if_false]
          refine ⟨fun r' hr' hlab => ?_, ?_⟩
          · rcases List.mem_cons.1 hr' with rfl | hr'
            · simp [hlits]
            · exact ih1 r' hr' hlab
          · rw [labelLits_cons, if_pos rfl, ih2]
            simp [unitLits, hs, hws, hlits, Row.labelLit]
      · rename_i hne
        obtain ⟨ih1, ih2⟩ := ih' seen
        have hlen : r.lits.length ≠ 1 := fun h1 => by
          obtain ⟨d, hd⟩ := List.length_eq_one_iff.1 h1
          exact hne d hd
        refine ⟨fun r' hr' hlab => ?_, ?_⟩
        · rcases List.mem_cons.1 hr' with rfl | hr'
          · simp [hr0] at hlab
          · exact ih1 r' hr' hlab
        · rw [labelLits_cons, if_neg (by simp [hr0]), ih2]
          simp [unitLits, hlen]

end Engine

/-! ## Opening -/

namespace Session

/-- **Opening.** A session that opens is ready: its engine holds the streamed rows in shape, with
labels marked on distinct variables, a zero removed weight per objective, nothing fixed and
nothing traced. -/
theorem openWith_ready {backend : Backend} {config : SessionConfig} {hards : List (List Lit)}
    {objs : List (List (List Lit × Nat))} {inprocessing : Bool} {offsets : Option Datum} {s : Session}
    (h : Session.openWith backend config hards objs inprocessing offsets = .ok s) : s.Ready := by
  obtain ⟨top, M, info, -, hM, hhv, hsv, hbound, heng, hn, -, hcl, hlk⟩ := Engine.openWith_engine h
  have hw : ∀ r ∈ streamedRows hards objs, ∀ ws, r.weights = some ws →
      0 < objs.length ∧ ws.length = objs.length ∧ ∀ w ∈ ws, IsWeight w := by
    intro r hr ws hws
    simp only [streamedRows, List.mem_append, List.mem_map] at hr
    rcases hr with ⟨c, -, rfl⟩ | ⟨p, hp, rfl⟩
    · cases hws
    · cases hws
      obtain ⟨hlen, hne⟩ := Engine.weightRows_width hp
      refine ⟨?_, by simp [hlen], fun w hw => ?_⟩
      · rw [← hlen]
        exact List.length_pos_of_ne_nil hne
      · simp [weightData] at hw
        obtain ⟨k, -, rfl⟩ := hw
        exact (isWeight_int _).2 (Int.natCast_nonneg k)
  have hlits : ∀ r ∈ streamedRows hards objs, ∀ d ∈ r.lits, IsLit d ∧ (intOf d).natAbs ≤ M.toNat := by
    intro r hr d hd
    obtain ⟨l, hl, rfl⟩ := lits_of_streamedRows hhv hsv r hr d hd
    refine ⟨(isLit_int _).2 (Lit.toInt_ne_zero l), ?_⟩
    simp only [intOf_int, Lit.natAbs_toInt]
    omega
  have hunl : ∀ r ∈ streamedRows hards objs, r.label = false := by
    intro r hr
    simp only [streamedRows, List.mem_append, List.mem_map] at hr
    rcases hr with ⟨c, -, rfl⟩ | ⟨p, -, rfl⟩ <;> rfl
  have hwidth : ∀ r ∈ streamedRows hards objs, ∀ ws, r.weights = some ws → ws.length = objs.length :=
    fun r hr ws hws => (hw r hr ws hws).2.1
  obtain ⟨hlab, hlabels⟩ := Engine.markLabels_labels [] hwidth (fun r hr d hd => (hlits r hr d hd).1) hunl
  obtain ⟨hfrom, -⟩ := markLabels_rows hwidth
  have hM' : s.engine.maxVar = .int (M.toNat : Nat) := by rw [heng, Int.toNat_of_nonneg hM]
  have hrows : s.engine.rows = (Engine.markLabels (.int objs.length) [] (streamedRows hards objs)).1 := by
    rw [heng]
  have hfixed : s.engine.fixed = [] := by rw [heng]; rfl
  have htrace : s.engine.trace = [] := by rw [heng]; rfl
  rw [List.map_nil] at hlab hlabels
  refine ⟨⟨by rw [heng], by rw [heng, hn]; rfl, hn ▸ hbound, ⟨top, by rw [heng]; rfl⟩, ⟨M.toNat, hM'⟩,
    ?_, ?_, by simp [hfixed], by simp [hfixed], by simp [htrace], by rw [heng]; rfl,
    by rw [heng]; rfl⟩, hcl, hlk⟩
  · rw [hM', intOf_int, Int.natAbs_natCast, hrows, hn]
    refine ⟨fun r hr d hd => ?_, fun r hr ws hws => ?_, hlab, ?_⟩
    · obtain ⟨r₀, hr₀, hl, -⟩ := hfrom r hr
      exact hlits r₀ hr₀ d (hl ▸ hd)
    · obtain ⟨r₀, hr₀, -, hw'⟩ := hfrom r hr
      exact hw r₀ hr₀ ws (hw' ▸ hws)
    · rw [hlabels]
      exact (unitLits_vars [] _).1
  · rw [heng, hn]
    refine ⟨by simp, fun d hd => ?_⟩
    obtain ⟨-, rfl⟩ := List.mem_replicate.1 hd
    exact (isWeight_int 0).2 le_rfl

end Session

/-! ## What a call does to the engine -/

namespace Engine

/-- What a call of a session with `n` objectives can do to its engine. A call that is refused
leaves the engine as it is; reconstruction and the printed solution read an assignment back. -/
inductive Change (n : Nat) : Session.Call → Engine → Engine → Prop
  | keep (c : Session.Call) (e : Engine) : Change n c e e
  | setOptions (o : Datum) (e : Engine) (opts : List (String × OptionValue)) :
      Change n (.setOptions o) e { e with options := opts }
  | preprocess (ot ol otl : Option Datum) (addRemoved : Bool) (e : Engine)
      (techniques logLevel timeLimit : Datum) :
      Change n (.preprocess ot ol otl addRemoved) e
        ((preprocess techniques logLevel timeLimit addRemoved).run e).2
  | addVar (e : Engine) (m : Nat) (hmut : e.mutable = true) (hm : e.maxVar = .int m) :
      Change n .addVar e { e with maxVar := .int ((m + 1 : Nat) : Int) }
  | addClause (d : Datum) (e : Engine) (m : Nat) (c : List Lit) (hmut : e.mutable = true)
      (hm : e.maxVar = .int m) (hc : ∀ l ∈ c, l.var ≤ m) :
      Change n (.addClause d) e { e with rows := e.rows ++ [streamedRow c none] }
  | addLabel (lit weight : Datum) (e : Engine) (m : Nat) (t : Int) (l : Lit) (w : Nat)
      (hmut : e.mutable = true) (hn : n ≠ 0) (hm : e.maxVar = .int m) (hl : l.var ≤ m)
      (hfresh : ∀ x ∈ labelLits e.rows, x.natAbs ≠ l.var) (ht : e.top = .int t)
      (hroom : t + w ≤ u64Max) :
      Change n (.addLabel lit weight) e
        { e with rows := e.rows ++ [labelRow l.toInt w n], top := .int (t + w) }
  | alterWeight (label weight : Datum) (e : Engine) (t : Int) (i : Nat) (r : Row) (w : Nat)
      (hmut : e.mutable = true) (hr : e.rows[i]? = some r) (hlab : r.label = true)
      (ht : e.top = .int t) (hroom : ¬ (r.labelWeight < w ∧ u64Max < t + w - r.labelWeight)) :
      Change n (.alterWeight label weight) e { e with
        rows := e.rows.set i (r.reweigh w)
        top := .int (if r.labelWeight < w then t + (w - r.labelWeight) else t) }
  | labelToVar (label : Datum) (e : Engine) (i : Nat) (hmut : e.mutable = true) :
      Change n (.labelToVar label) e { e with rows := e.rows.eraseIdx i }
  | resetRemoved (e : Engine) :
      Change n .resetRemovedWeight e { e with removed := List.replicate n (.int 0) }
  | reconstruct (a : List Datum) (e : Engine) (vs : List (Datum × Bool)) :
      Change n (.reconstruct a) e { e with assignment := [], reconstructed := vs }
  | printSolution (a : List Datum) (w : Datum) (e : Engine) (vs : List (Datum × Bool)) :
      Change n (.printSolution a w) e { e with assignment := [], reconstructed := vs }

end Engine

namespace Session

variable {s : Session}

/-- **What a call does.** On a ready session every call leaves the session with its engine
changed as `Engine.Change` allows. -/
theorem Ready.perform_change (h : s.Ready) (c : Call) :
    ∃ e', s.perform c = s.withEngine e' ∧ Engine.Change s.nObj c s.engine e' := by
  cases c with
  | setOptions o =>
    rcases hs : s.setOptions o with f | s'
    · exact ⟨s.engine, by simp [perform, keep, hs], .keep _ _⟩
    · obtain ⟨opts, rfl⟩ := setOptions_ok hs
      exact ⟨_, by simp [perform, keep, hs], .setOptions o _ opts⟩
  | preprocess techniques logLevel timeLimit addRemoved =>
    rcases preprocess_fst s techniques logLevel timeLimit addRemoved with heq | ⟨t, l, tl, heq⟩
    · exact ⟨s.engine, by rw [perform, heq]; rfl, .keep _ _⟩
    · exact ⟨_, by rw [perform, heq], .preprocess _ _ _ addRemoved _ t l tl⟩
  | addVar =>
    rw [perform, addVar_eq h]
    split_ifs with hmut
    · exact ⟨_, rfl, .addVar _ _ hmut h.maxVar⟩
    · exact ⟨s.engine, rfl, .keep _ _⟩
  | addClause d =>
    rw [perform, addClause_eq h]
    rcases clauseOf d with f | c
    · exact ⟨s.engine, rfl, .keep _ _⟩
    · dsimp only [Except.bind]
      split_ifs with hg
      · exact ⟨_, rfl, .addClause d _ _ c hg.1 h.maxVar hg.2⟩
      · exact ⟨s.engine, rfl, .keep _ _⟩
  | addLabel lit weight =>
    rw [perform, addLabel_eq h]
    rcases Lit.ofDatum lit with f | l
    · exact ⟨s.engine, rfl, .keep _ _⟩
    rcases checkWeight weight with f | w
    · exact ⟨s.engine, rfl, .keep _ _⟩
    dsimp only [Except.bind]
    split_ifs with hg
    · obtain ⟨hmut, hn, hl, hfresh, hroom⟩ := hg
      exact ⟨_, rfl, .addLabel lit weight _ _ _ l w hmut hn h.maxVar hl hfresh h.top hroom⟩
    · exact ⟨s.engine, rfl, .keep _ _⟩
  | alterWeight label weight =>
    rw [perform, alterWeight_eq h]
    rcases Lit.ofDatum label with f | l
    · exact ⟨s.engine, rfl, .keep _ _⟩
    rcases checkWeight weight with f | w
    · exact ⟨s.engine, rfl, .keep _ _⟩
    dsimp only [Except.bind]
    rcases he : labelEntry s.engine.rows l.toInt with _ | ⟨i, r⟩
    · exact ⟨s.engine, rfl, .keep _ _⟩
    obtain ⟨hr, hlab, -⟩ := labelEntry_eq_some he
    dsimp only [Option.elim]
    by_cases hg : s.engine.mutable ∧
        ¬ (r.labelWeight < w ∧ Engine.u64Max < intOf s.engine.top + w - r.labelWeight)
    · rw [if_pos hg]
      exact ⟨_, rfl, .alterWeight label weight _ _ i r w hg.1 hr hlab h.top hg.2⟩
    · rw [if_neg hg]
      exact ⟨s.engine, rfl, .keep _ _⟩
  | labelToVar label =>
    rw [perform, labelToVar_eq h]
    rcases Lit.ofDatum label with f | l
    · exact ⟨s.engine, rfl, .keep _ _⟩
    dsimp only [Except.bind]
    rcases he : labelEntry s.engine.rows l.toInt with _ | ⟨i, r⟩
    · exact ⟨s.engine, rfl, .keep _ _⟩
    dsimp only [Option.elim]
    split_ifs with hmut
    · exact ⟨_, rfl, .labelToVar label _ i hmut⟩
    · exact ⟨s.engine, rfl, .keep _ _⟩
  | resetRemovedWeight =>
    rw [perform, resetRemovedWeight_eq h]
    exact ⟨_, rfl, .resetRemoved _⟩
  | reconstruct a =>
    rcases hr : s.reconstruct a with f | ⟨model, s'⟩
    · exact ⟨s.engine, by rw [perform, hr]; rfl, .keep _ _⟩
    · obtain ⟨vs, rfl⟩ := reconstruct_engine h hr
      exact ⟨_, by rw [perform, hr]; rfl, .reconstruct a _ vs⟩
  | printSolution a w =>
    rcases hp : s.printSolution a w with f | ⟨lines, s'⟩
    · exact ⟨s.engine, by rw [perform, hp]; rfl, .keep _ _⟩
    · obtain ⟨vs, rfl⟩ := printSolution_engine h hp
      exact ⟨_, by rw [perform, hp]; rfl, .printSolution a w _ vs⟩

end Session

/-! ## The shape along a run -/

namespace Engine

/-- **Step lemma.** Every change a call makes keeps the engine's shape, and the largest variable
and the fixed literals only grow. -/
theorem Shape.change {n : Nat} {c : Session.Call} {e e' : Engine} (h : Shape n e)
    (hc : Change n c e e') :
    Shape n e' ∧ Grows e e' := by
  cases hc with
  | keep => exact ⟨h, Grows.refl _⟩
  | setOptions o _ opts => exact ⟨{ h with }, le_rfl, List.prefix_refl _⟩
  | preprocess ot ol otl addRemoved _ techniques logLevel timeLimit =>
    obtain ⟨hs, hg, -⟩ := preprocess_shape techniques logLevel timeLimit addRemoved h
    exact ⟨hs, hg⟩
  | addVar _ m hmut hm =>
    have hle : (intOf e.maxVar).natAbs ≤ m + 1 := by simp [hm]
    have hnew : (intOf (Datum.int ((m + 1 : Nat) : Int))).natAbs = m + 1 := by
      rw [Session.intOf_int, Int.natAbs_natCast]
    have hrows : RowsShape n (intOf (Datum.int ((m + 1 : Nat) : Int))).natAbs e.rows := by
      rw [hnew]
      exact h.rows.mono hle
    exact ⟨{ h with maxVar := ⟨m + 1, rfl⟩, rows := hrows }, hnew ▸ hle, List.prefix_refl _⟩
  | addClause d _ m c hmut hm hc =>
    have hlits : ∀ d ∈ (streamedRow c none).lits, IsLit d ∧ (intOf d).natAbs ≤ (intOf e.maxVar).natAbs := by
      intro d hd
      obtain ⟨l, hl, rfl⟩ := mem_litData.1 hd
      refine ⟨(isLit_int _).2 (Lit.toInt_ne_zero l), ?_⟩
      simpa [hm] using hc l hl
    have hrows := h.rows.append hlits (fun ws hws => by cases hws) (fun hlab => by cases hlab)
    exact ⟨{ h with rows := hrows }, le_rfl, List.prefix_refl _⟩
  | addLabel lit weight _ m t l w hmut hn hm hl hfresh ht hroom =>
    have hlits : ∀ d ∈ (labelRow l.toInt w n).lits, IsLit d ∧ (intOf d).natAbs ≤ (intOf e.maxVar).natAbs := by
      intro d hd
      rw [labelRow, List.mem_singleton] at hd
      subst hd
      exact ⟨(isLit_int _).2 (Lit.toInt_ne_zero l), by simpa [hm] using hl⟩
    have hweights : ∀ ws, (labelRow l.toInt w n).weights = some ws →
        0 < n ∧ ws.length = n ∧ ∀ x ∈ ws, IsWeight x := by
      intro ws hws
      simp only [labelRow, Option.some.injEq] at hws
      subst hws
      refine ⟨Nat.pos_of_ne_zero hn, by simp; omega, fun x hx => ?_⟩
      rcases List.mem_cons.1 hx with rfl | hx
      · exact (isWeight_int _).2 (Int.natCast_nonneg w)
      · obtain ⟨-, rfl⟩ := List.mem_replicate.1 hx
        exact (isWeight_int 0).2 le_rfl
    have hrows := h.rows.append hlits hweights
      (fun _ => ⟨rfl, rfl, by simpa [labelRow, Row.labelLit] using hfresh⟩)
    exact ⟨{ h with top := ⟨_, rfl⟩, rows := hrows }, le_rfl, List.prefix_refl _⟩
  | alterWeight label weight _ t i r w hmut hr hlab ht hroom =>
    have hmem : r ∈ e.rows := List.mem_of_getElem? hr
    obtain ⟨ws, hws⟩ := Option.isSome_iff_exists.1 (h.rows.labels r hmem hlab).1
    obtain ⟨hn, hlen, hwts⟩ := h.rows.weights r hmem ws hws
    have hweights : ∀ ws', (r.reweigh w).weights = some ws' →
        0 < n ∧ ws'.length = n ∧ ∀ x ∈ ws', IsWeight x := by
      intro ws' hws'
      simp only [Row.reweigh, hws, Option.getD_some, Option.some.injEq] at hws'
      subst hws'
      refine ⟨hn, by simp [hlen], fun x hx => ?_⟩
      rcases List.mem_or_eq_of_mem_set hx with hx | rfl
      · exact hwts x hx
      · exact (isWeight_int _).2 (Int.natCast_nonneg w)
    have hrows : RowsShape n (intOf e.maxVar).natAbs (e.rows.set i (r.reweigh w)) :=
      h.rows.set hr rfl rfl (by simp [Row.reweigh, hws]) hweights
    exact ⟨{ h with top := ⟨_, rfl⟩, rows := hrows }, le_rfl, List.prefix_refl _⟩
  | labelToVar label _ i hmut =>
    exact ⟨{ h with rows := h.rows.sublist (List.eraseIdx_sublist _ _) }, le_rfl, List.prefix_refl _⟩
  | resetRemoved =>
    refine ⟨{ h with removed := ⟨by simp, fun d hd => ?_⟩ }, le_rfl, List.prefix_refl _⟩
    obtain ⟨-, rfl⟩ := List.mem_replicate.1 hd
    exact (isWeight_int 0).2 le_rfl
  | reconstruct a _ vs => exact ⟨{ h with assignment := rfl }, le_rfl, List.prefix_refl _⟩
  | printSolution a w _ vs => exact ⟨{ h with assignment := rfl }, le_rfl, List.prefix_refl _⟩

end Engine

namespace Session

variable {s : Session}

/-- **Step lemma.** Every call keeps a session ready; its largest variable and fixed literals only
grow. -/
theorem Ready.perform (h : s.Ready) (c : Call) :
    (s.perform c).Ready ∧ Engine.Grows s.engine (s.perform c).engine := by
  obtain ⟨e', heq, hc⟩ := h.perform_change c
  obtain ⟨hs, hg⟩ := h.shape.change hc
  rw [heq]
  exact ⟨⟨hs, h.closed, h.locked⟩, hg⟩

/-- The sessions that an opening and then calls reach. A refused call keeps its session. -/
inductive Reachable : Session → Prop
  | opened {backend : Backend} {config : SessionConfig} {hards : List (List Lit)}
      {objs : List (List (List Lit × Nat))} {inprocessing : Bool} {offsets : Option Datum}
      {s : Session} (h : openWith backend config hards objs inprocessing offsets = .ok s) : Reachable s
  | perform {s : Session} (h : Reachable s) (c : Call) : Reachable (s.perform c)

theorem Reachable.performAll (h : s.Reachable) (calls : List Call) : (s.performAll calls).Reachable := by
  induction calls generalizing s with
  | nil => exact h
  | cons c calls ih => exact ih (h.perform c)

/-- **Run lemma.** Every reachable session is ready. -/
theorem Reachable.ready (h : s.Reachable) : s.Ready := by
  induction h with
  | opened h => exact openWith_ready h
  | perform _ c ih => exact (ih.perform c).1

end Session

end MaxSatPrep
