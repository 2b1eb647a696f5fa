import MaxSatPrep.Proofs.Reachable
/-!
The top weight along a session. A session opens with the top weight one more than all soft
weights together, and every call keeps it above them (`TopBound.change`), so that no soft row is
ever read back as hard. The 64-bit bound on the top weight is checked when a session opens, when
a label is added and when the weight of a label is raised; every call keeps it but one: a
preprocessing run asked to add the weight it removes to the top weight checks nothing, and the
top weight can pass 64 bits there.

Main statements: `Session.Reachable.topBound`, `top_fits_without_added_removed`, and the run
`added_removed_weight_passes_64_bits` that takes the top weight past 64 bits.
-/

namespace MaxSatPrep

open Session (intOf)
open Engine (softTotal WeightsNonneg)

/-! ## The soft weight at the start -/

theorem weightData_eq (ws : List Nat) : weightData ws = ws.map (fun k : Nat => Datum.int k) := by
  change (ws.flatMap fun k : Nat => [(k : Int)]).map Datum.int = _
  rw [← List.map_eq_flatMap, List.map_map]
  rfl

theorem weightTotal_weightRow {n o : Nat} (ho : o < n) (c : List Lit) (w : Nat) :
    (streamedRow c (some (weightData ((List.range n).map (fun j => if j = o then w else 0))))).weightTotal =
      w := by
  have hcount : (List.range n).count o = 1 := List.count_eq_one_of_mem List.nodup_range (List.mem_range.2 ho)
  have hsum := List.sum_map_ite_eq (List.range n) (fun _ => (w : Int)) (fun _ => 0) o
  simp only [List.map_const', List.sum_replicate, smul_zero, add_zero, sub_zero, hcount, one_smul] at hsum
  simp only [Row.weightTotal, streamedRow, weightData_eq, Option.getD_some, List.map_map,
    Function.comp_def, Session.intOf_int, Nat.cast_ite, Nat.cast_zero]
  exact hsum

/-- The rows an instance streams weigh all weights of all objectives together. -/
theorem softTotal_streamedRows (hards : List (List Lit)) (objs : List (List (List Lit × Nat))) :
    softTotal (streamedRows hards objs) = ((objs.map fun ps => (ps.map Prod.snd).sum).sum : Nat) := by
  have hhard : softTotal (hards.map fun c => streamedRow c none) = 0 := by
    simp [softTotal, Row.weightTotal, streamedRow, Function.comp_def]
  have hobj : ∀ p ∈ objs.zipIdx, softTotal (p.1.map fun cw => streamedRow cw.1
      (some (weightData ((List.range objs.length).map (fun j => if j = p.2 then cw.2 else 0))))) =
        ((p.1.map Prod.snd).sum : Nat) := by
    intro p hp
    have ho : p.2 < objs.length := by simpa using (List.mem_zipIdx hp).2.1
    simp only [softTotal, List.map_map, Function.comp_def, weightTotal_weightRow ho, Nat.cast_list_sum]
  simp only [streamedRows, Weights.weightRows, Engine.softTotal_append, hhard, zero_add]
  have hflat : ∀ L : List (List Row), softTotal L.flatten = (L.map softTotal).sum := by
    intro L
    simp only [softTotal, List.map_flatten, List.sum_flatten, List.map_map, Function.comp_def]
    rfl
  rw [List.map_flatten, hflat]
  simp only [List.map_map, Function.comp_def]
  rw [List.map_congr_left (fun p hp => hobj p hp), Nat.cast_list_sum, List.map_map]
  conv => rhs; rw [← List.zipIdx_map_fst 0 objs, List.map_map]
  rfl

theorem softTotal_markLabels {n : Nat} (seen : List Datum) {rows : List Row}
    (h : ∀ r ∈ rows, ∀ ws, r.weights = some ws → ws.length = n) :
    softTotal (Engine.markLabels (.int n) seen rows).1 = softTotal rows := by
  have hmap : ∀ rows : List Row, softTotal (rows.map Row.unlabelled) = softTotal rows := by
    intro rows
    simp only [softTotal, List.map_map]
    rfl
  rw [← hmap, Engine.markLabels_unlabelled seen h, hmap]

theorem Weights.topWeight_ok {objs : List (List (List Lit × Nat))} {top : Nat}
    (h : Weights.topWeight objs = .ok top) :
    top = 1 + (objs.map fun ps => (ps.map Prod.snd).sum).sum ∧ (top : Int) ≤ Engine.u64Max := by
  unfold Weights.topWeight at h
  dsimp only at h
  split at h
  · cases h
  · rename_i hle
    cases h
    have hu : ((Weights.u64Max : Nat) : Int) = Engine.u64Max := by decide
    refine ⟨by simp [List.sum_eq_foldl_nat], ?_⟩
    rw [← hu]
    exact_mod_cast Nat.le_of_not_lt hle

namespace Session

/-- **The top weight at the start.** A session opens with its top weight one more than the weight
of all its soft rows, within 64 bits. -/
theorem openWith_top {backend : Backend} {config : SessionConfig} {hards : List (List Lit)}
    {objs : List (List (List Lit × Nat))} {inprocessing : Bool} {offsets : Option Datum} {s : Session}
    (h : openWith backend config hards objs inprocessing offsets = .ok s) :
    s.engine.top = .int (1 + softTotal s.engine.rows) ∧ 1 + softTotal s.engine.rows ≤ Engine.u64Max := by
  obtain ⟨top, M, info, htop, -, -, -, -, heng, -, -, -, -⟩ := Engine.openWith_engine h
  obtain ⟨htop, hfits⟩ := Weights.topWeight_ok htop
  have hwidth : ∀ r ∈ streamedRows hards objs, ∀ ws, r.weights = some ws → ws.length = objs.length :=
    fun r hr ws hws => (weights_of_streamedRows r hr ws hws).1
  have hsoft : softTotal s.engine.rows = ((objs.map fun ps => (ps.map Prod.snd).sum).sum : Nat) := by
    rw [heng]
    exact (softTotal_markLabels [] hwidth).trans (softTotal_streamedRows hards objs)
  rw [hsoft, heng]
  subst htop
  exact ⟨by simp [Engine.start], by simpa using hfits⟩

end Session

/-! ## The bound along calls -/

namespace Engine

theorem Shape.weightsNonneg {n : Nat} {e : Engine} (h : Shape n e) : WeightsNonneg e.rows :=
  fun r hr ws hws => (h.rows.weights r hr ws hws).2.2

theorem weightTotal_labelRow (z w : Int) (n : Nat) : (labelRow z w n).weightTotal = w := by
  simp [labelRow, Row.weightTotal]

theorem weightTotal_reweigh {r : Row} {ws : List Datum} (hws : r.weights = some ws) (hne : ws ≠ [])
    (w : Int) : (r.reweigh w).weightTotal = r.weightTotal - r.labelWeight + w := by
  have hj := labelObjective_lt hne
  simp only [Row.weightTotal, Row.reweigh, Row.labelWeight, hws, Option.getD_some, List.map_set,
    List.sum_set', List.length_map, hj, dite_true, List.getElem_map, List.getD_eq_getElem _ _ hj]
  simp [Session.intOf_int]
  ring

theorem softTotal_set {rows : List Row} {i : Nat} {r : Row} (hr : rows[i]? = some r) (r' : Row) :
    softTotal (rows.set i r') = softTotal rows - r.weightTotal + r'.weightTotal := by
  obtain ⟨hi, rfl⟩ := List.getElem?_eq_some_iff.1 hr
  simp only [softTotal, List.map_set, List.sum_set', List.length_map, hi, dite_true, List.getElem_map]
  ring

theorem TopBound.of_shape {n : Nat} {e : Engine} (hs : Shape n e)
    (htop : ∃ t : Int, e.top = .int t ∧ 1 + softTotal e.rows ≤ t) : TopBound e :=
  ⟨hs.weightsNonneg, hs.removed.2, htop⟩

/-- **Step lemma.** Every change a call makes keeps the top weight above the soft weight. -/
theorem TopBound.change {n : Nat} {c : Session.Call} {e e' : Engine} (hb : TopBound e)
    (hs : Shape n e) (hc : Change n c e e') : TopBound e' := by
  refine TopBound.of_shape (hs.change hc).1 ?_
  obtain ⟨t₀, ht₀, hle⟩ := hb.top
  cases hc with
  | keep => exact ⟨t₀, ht₀, hle⟩
  | setOptions => exact ⟨t₀, ht₀, hle⟩
  | preprocess ot ol otl addRemoved _ techniques logLevel timeLimit =>
    exact (preprocess_topBound techniques logLevel timeLimit addRemoved hs.tabled hb).2.top
  | addVar => exact ⟨t₀, ht₀, hle⟩
  | addClause d _ m c hmut hm hc =>
    refine ⟨t₀, ht₀, ?_⟩
    have hhard : (streamedRow c none).weightTotal = 0 := rfl
    simpa [hhard] using hle
  | addLabel lit weight _ m t l w hmut hn hm hl hfresh ht hroom =>
    rw [ht, Datum.int.injEq] at ht₀
    subst ht₀
    refine ⟨t + w, rfl, ?_⟩
    simp only [softTotal_append, softTotal_cons, softTotal_nil, weightTotal_labelRow]
    linarith
  | alterWeight label weight _ t i r w hmut hr hlab ht hroom =>
    rw [ht, Datum.int.injEq] at ht₀
    subst ht₀
    have hmem : r ∈ e.rows := List.mem_of_getElem? hr
    obtain ⟨ws, hws⟩ := Option.isSome_iff_exists.1 (hs.rows.labels r hmem hlab).1
    obtain ⟨hn, hlen, -⟩ := hs.rows.weights r hmem ws hws
    have hne : ws ≠ [] := List.ne_nil_of_length_pos (hlen ▸ hn)
    refine ⟨_, rfl, ?_⟩
    rw [softTotal_set hr, weightTotal_reweigh hws hne]
    split_ifs with hlt <;> linarith
  | labelToVar label _ i hmut =>
    exact ⟨t₀, ht₀, le_trans (by linarith [softTotal_le_of_sublist hb.weights (List.eraseIdx_sublist e.rows i)]) hle⟩
  | resetRemoved => exact ⟨t₀, ht₀, hle⟩
  | reconstruct => exact ⟨t₀, ht₀, hle⟩
  | printSolution => exact ⟨t₀, ht₀, hle⟩

end Engine

namespace Session

variable {s : Session}

theorem openWith_topBound {backend : Backend} {config : SessionConfig} {hards : List (List Lit)}
    {objs : List (List (List Lit × Nat))} {inprocessing : Bool} {offsets : Option Datum} {s : Session}
    (h : openWith backend config hards objs inprocessing offsets = .ok s) : Engine.TopBound s.engine :=
  Engine.TopBound.of_shape (openWith_ready h).shape ⟨_, (openWith_top h).1, le_rfl⟩

/-- **Run lemma.** In every reachable session the top weight is above the soft weight. -/
theorem Reachable.topBound (h : s.Reachable) : Engine.TopBound s.engine := by
  induction h with
  | opened h => exact openWith_topBound h
  | perform hr c ih =>
    obtain ⟨e', heq, hc⟩ := hr.ready.perform_change c
    rw [heq]
    exact ih.change hr.ready.shape hc

end Session

/-! ## The 64-bit bound -/

/-- a preprocessing call that adds the weight it removes to the top weight -/
def Session.Call.addsRemoved : Session.Call → Bool
  | .preprocess _ _ _ addRemoved => addRemoved
  | _ => false

namespace Engine

/-- **Step lemma.** A change keeps the top weight within 64 bits, unless it is a preprocessing
run that adds the removed weight to it. -/
theorem Change.top_fits {n : Nat} {c : Session.Call} {e e' : Engine} (hc : Change n c e e')
    (hs : Shape n e) (hadd : c.addsRemoved = false) (ht : intOf e.top ≤ u64Max) :
    intOf e'.top ≤ u64Max := by
  cases hc with
  | keep => exact ht
  | setOptions => exact ht
  | preprocess ot ol otl addRemoved _ techniques logLevel timeLimit =>
    obtain ⟨e₁, hsteps, top, p, info, heq, htop, -⟩ :=
      preprocess_steps techniques logLevel timeLimit addRemoved e
    obtain ⟨-, -, hfr⟩ := hsteps.shape hs
    rcases htop with rfl | ⟨hadded, -⟩
    · rw [heq]
      exact hfr.top ▸ ht
    · simp [Session.Call.addsRemoved, hadded] at hadd
  | addVar => exact ht
  | addClause => exact ht
  | addLabel lit weight _ m t l w hmut hn hm hl hfresh ht' hroom => exact hroom
  | alterWeight label weight _ t i r w hmut hr hlab ht' hroom =>
    rw [ht', Session.intOf_int] at ht
    show intOf (.int _) ≤ u64Max
    rw [Session.intOf_int]
    split_ifs with hlt
    · exact not_lt.1 (fun hgt => hroom ⟨hlt, by linarith⟩)
    · exact ht
  | labelToVar => exact ht
  | resetRemoved => exact ht
  | reconstruct => exact ht
  | printSolution => exact ht

end Engine

namespace Session

variable {s : Session}

/-- **Run lemma.** Calls none of which adds the removed weight to the top weight keep it within
64 bits. -/
theorem Ready.performAll_top_fits (h : s.Ready) (ht : intOf s.engine.top ≤ Engine.u64Max)
    {calls : List Call} (hcalls : ∀ c ∈ calls, c.addsRemoved = false) :
    intOf (s.performAll calls).engine.top ≤ Engine.u64Max := by
  induction calls generalizing s with
  | nil => exact ht
  | cons c calls ih =>
    obtain ⟨e', heq, hc⟩ := h.perform_change c
    have ht' : intOf (s.perform c).engine.top ≤ Engine.u64Max := by
      rw [heq]
      exact hc.top_fits h.shape (hcalls c List.mem_cons_self) ht
    exact ih (h.perform c).1 ht' (fun c' hc' => hcalls c' (List.mem_cons_of_mem c hc'))

end Session

/-- **The top weight within 64 bits.** A session opened on weights whose top weight fits into 64
bits keeps it there along calls none of which is a preprocessing run that adds the removed
weight to the top weight. -/
theorem top_fits_without_added_removed {backend : Backend} {config : SessionConfig}
    {hards : List (List Lit)} {objs : List (List (List Lit × Nat))} {inprocessing : Bool}
    {offsets : Option Datum} {s₀ : Session}
    (h : Session.openWith backend config hards objs inprocessing offsets = .ok s₀)
    (calls : List Session.Call) (hcalls : ∀ c ∈ calls, c.addsRemoved = false) :
    ∃ t, (s₀.performAll calls).topWeight = .ok t ∧ t ≤ Engine.u64Max := by
  have hready := Session.openWith_ready h
  obtain ⟨htop, hfits⟩ := Session.openWith_top h
  have hstart : intOf s₀.engine.top ≤ Engine.u64Max := by rw [htop, Session.intOf_int]; exact hfits
  refine ⟨_, ?_, hready.performAll_top_fits hstart hcalls⟩
  have hreach := (Session.Reachable.opened h).performAll calls
  simp [Session.topWeight, hreach.ready.shared, bind, Except.bind, pure, Except.pure]

/-- A label added and a preprocessing run that keeps the removed weight apart leave the top weight
of `x1 ∨ x2` under the soft unit `x3` of weight 5 within 64 bits. -/
theorem top_fits_after_label_and_preprocessing :
    ∃ s₀, Session.openWith .reference {} [[⟨1, false, by decide⟩, ⟨2, false, by decide⟩]]
        [[([⟨3, false, by decide⟩], 5)]] false none = .ok s₀ ∧
      (∀ c ∈ [Session.Call.addLabel (.int 2) (.int 7), .preprocess (some (.str "u")) none none false],
        c.addsRemoved = false) ∧
      ∃ t, (s₀.performAll [.addLabel (.int 2) (.int 7), .preprocess (some (.str "u")) none none false]).topWeight =
        .ok t ∧ t ≤ Engine.u64Max := by
  have hopen : (Session.openWith .reference {} [[⟨1, false, by decide⟩, ⟨2, false, by decide⟩]]
      [[([⟨3, false, by decide⟩], 5)]] false none).toOption.isSome = true := by
    decide +kernel
  obtain ⟨s₀, hO⟩ := Outcome.exists_of_toOption_isSome hopen
  have hcalls : ∀ c ∈ [Session.Call.addLabel (.int 2) (.int 7), .preprocess (some (.str "u")) none none false],
      c.addsRemoved = false := by decide
  exact ⟨s₀, hO, hcalls, top_fits_without_added_removed hO _ hcalls⟩

/-- Unit propagation fixes `¬x1` and retires the soft unit `x1` of weight 2^64 - 2; asked to add
the removed weight, the run lifts the top weight from 2^64 - 1 to 2^65 - 3, past 64 bits. -/
theorem added_removed_weight_passes_64_bits :
    ∃ s₀, Session.openWith .reference {} [[⟨1, true, by decide⟩]]
        [[([⟨1, false, by decide⟩], 18446744073709551614)]] false none = .ok s₀ ∧
      (s₀.performAll [.preprocess (some (.str "u")) none none true]).topWeight =
        .ok 36893488147419103229 ∧ Engine.u64Max < 36893488147419103229 := by
  have hrun : ((Session.openWith .reference {} [[⟨1, true, by decide⟩]]
      [[([⟨1, false, by decide⟩], 18446744073709551614)]] false none).toOption.bind fun s =>
        (s.performAll [.preprocess (some (.str "u")) none none true]).topWeight.toOption) =
      some 36893488147419103229 := by
    decide +kernel
  obtain ⟨s₀, hO, htop⟩ := Outcome.exists_of_toOption_bind hrun
  exact ⟨s₀, hO, Outcome.eq_ok_of_toOption htop, by decide⟩

end MaxSatPrep
