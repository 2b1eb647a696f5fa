import MaxSatPrep.Proofs.CallContract
/-!
Opening a session and reading it straight back. A session opened on hard clauses and objectives
whose weights, with one, fit into 64 bits answers with the top weight one more than all weights,
one objective per objective given, no removed weight, the hard clauses in canonical order, and
for every objective the canonical clause of every pair of every objective, in order of first
occurrence, weighing there what that objective's pairs on it weigh; its labels are the first
soft unit clause on each variable. When the weights do not fit, opening fails before an engine
is started: as a validation error, or as a value error when the top weight has more digits than
are written out.

Main statements: `column_eq_gathered` (a soft map read back lists its clauses in order of first
occurrence), `Session.openWith_ok` (opening succeeds) and `Session.openWith_readBack`.
-/

namespace MaxSatPrep

open Session (intOf)

/-! ## Gathering soft clauses -/

/-- the soft map of objective `j` that rows gather: each clause once, in order of first
occurrence, with what the rows with that clause report there summed -/
def gathered (j : Nat) (rows : List (List Lit × List Datum)) : List (List Lit × Datum) :=
  ((rows.map Prod.fst).eraseDups).map fun c =>
    (c, .int (((rows.filter fun p => p.1 = c).map (reportedAt j)).sum))

section Gathered

variable {j : Nat}

theorem lookupInt_keyed (K : List (List Lit)) (g : List Lit → Int) (c : List Lit) :
    lookupInt (K.map fun c' => (c', .int (g c'))) c = if c ∈ K then g c else 0 := by
  induction K with
  | nil => rfl
  | cons a K ih =>
    by_cases hac : a = c
    · subst hac
      simp [lookupInt]
    · simpa [lookupInt, List.find?_cons, hac, Ne.symm hac] using ih

/-- Putting a clause into a soft map with one entry per clause sets its entry, appended when
new. -/
theorem putValue_keyed (K : List (List Lit)) (f : List Lit → Datum) (c : List Lit) (v : Datum) :
    putValue (K.map fun c' => (c', f c')) c v =
      (if c ∈ K then K else K ++ [c]).map fun c' => (c', if c' = c then v else f c') := by
  unfold putValue
  by_cases hc : c ∈ K
  · have hany : (K.map fun c' => (c', f c')).any (fun p => p.1 == c) = true := by simpa using hc
    rw [if_pos hany, if_pos hc, List.map_map]
    refine List.map_congr_left (fun c' _ => ?_)
    by_cases h : c' = c <;> simp [h]
  · have hany : (K.map fun c' => (c', f c')).any (fun p => p.1 == c) = false := by
      refine List.any_eq_false.2 fun q hq hqc => hc ?_
      obtain ⟨c', hc', rfl⟩ := List.mem_map.1 hq
      exact (beq_iff_eq.1 hqc) ▸ hc'
    rw [if_neg (by simp [hany]), if_neg hc, List.map_append]
    have hold : (K.map fun c' => (c', if c' = c then v else f c')) = K.map fun c' => (c', f c') :=
      List.map_congr_left (fun c' hc' => by rw [if_neg (fun (h : c' = c) => hc (h ▸ hc'))])
    simp [hold]

theorem eraseDups_keys_append (rows : List (List Lit × List Datum)) (p : List Lit × List Datum) :
    ((rows ++ [p]).map Prod.fst).eraseDups =
      if p.1 ∈ (rows.map Prod.fst).eraseDups then (rows.map Prod.fst).eraseDups
      else (rows.map Prod.fst).eraseDups ++ [p.1] := by
  rw [List.map_append, List.eraseDups_append]
  by_cases h : p.1 ∈ rows.map Prod.fst
  · rw [if_pos (List.mem_eraseDups.2 h)]
    simp [List.removeAll, h]
  · rw [if_neg (mt List.mem_eraseDups.1 h)]
    simp [List.removeAll, h, List.eraseDups_cons]

/-- Gathering one row more adds its weight to its clause's, the clause appended when new. -/
theorem addInt_gathered (rows : List (List Lit × List Datum)) (p : List Lit × List Datum) :
    addInt (gathered j rows) p.1 (reportedAt j p) = gathered j (rows ++ [p]) := by
  have habsent : ∀ c, c ∉ (rows.map Prod.fst).eraseDups →
      ((rows.filter fun q => q.1 = c).map (reportedAt j)).sum = 0 := by
    intro c hc
    have hnil : (rows.filter fun q => q.1 = c) = [] := List.filter_eq_nil_iff.2 fun q hq hqc =>
      hc (List.mem_eraseDups.2 (List.mem_map.2 ⟨q, hq, of_decide_eq_true hqc⟩))
    simp [hnil]
  have hsum : ∀ c, (((rows ++ [p]).filter fun q => q.1 = c).map (reportedAt j)).sum =
      ((rows.filter fun q => q.1 = c).map (reportedAt j)).sum +
        (if c = p.1 then reportedAt j p else 0) := by
    intro c
    by_cases h : p.1 = c
    · simp [List.filter_append, h]
    · simp [List.filter_append, h, Ne.symm h]
  unfold addInt gathered
  rw [lookupInt_keyed, putValue_keyed, eraseDups_keys_append]
  refine congrArg (List.map _) rfl |>.trans (List.map_congr_left fun c _ => ?_)
  rw [hsum c]
  by_cases hc : c = p.1
  · subst hc
    by_cases hmem : p.1 ∈ (rows.map Prod.fst).eraseDups
    · simp [hmem]
    · simp [hmem, habsent _ hmem]
  · simp [hc]

/-- **The soft map of an objective read back** lists each clause once, in order of first
occurrence among the rows, with the weights the rows with that clause report there summed. -/
theorem column_eq_gathered (rows : List (List Lit × List Datum)) : column j rows = gathered j rows := by
  -- row by row the map gathered so far is the map of the rows so far
  have hfold : ∀ pre : List (List Lit × List Datum),
      rows.foldl (fun m p => addInt m p.1 (reportedAt j p)) (gathered j pre) = gathered j (pre ++ rows) := by
    induction rows with
    | nil => simp
    | cons p rows ih =>
      intro pre
      rw [List.foldl_cons, addInt_gathered, ih]
      simp
  have h := hfold []
  rw [List.nil_append] at h
  exact h

end Gathered

/-! ## The weight rows of objectives -/

/-- all weights of all objectives together -/
def Weights.totalWeight (objs : List (List (List Lit × Nat))) : Nat :=
  (objs.map fun ps => (ps.map Prod.snd).sum).sum

theorem weightRows_clauses (objs : List (List (List Lit × Nat))) :
    (Weights.weightRows objs).map Prod.fst = objs.flatten.map Prod.fst := by
  have hobjs : objs.map (List.map Prod.fst) = objs.zipIdx.map fun q => q.1.map Prod.fst := by
    conv => lhs; rw [← List.zipIdx_map_fst 0 objs]
    rw [List.map_map]
    rfl
  simp only [Weights.weightRows, List.map_flatten, List.map_map, Function.comp_def, hobjs]

/-- Over positioned items, what only the item at position `s + d` gives sums to what it gives. -/
theorem sum_zipIdx_at {α : Type} (T : α → Int) (L : List α) (s d : Nat) :
    ((L.zipIdx s).map fun q => if q.2 = s + d then T q.1 else 0).sum = (L[d]?.map T).getD 0 := by
  induction L generalizing s d with
  | nil => simp
  | cons a L ih =>
    rw [List.zipIdx_cons, List.map_cons, List.sum_cons]
    cases d with
    | zero =>
      have hrest : ((L.zipIdx (s + 1)).map fun q => if q.2 = s then T q.1 else 0).sum = 0 := by
        refine List.sum_eq_zero fun x hx => ?_
        obtain ⟨q, hq, rfl⟩ := List.mem_map.1 hx
        have hpos := (List.mem_zipIdx hq).1
        rw [if_neg (by omega)]
      simp [hrest]
    | succ d =>
      have hd := ih (s + 1) d
      rw [show s + 1 + d = s + (d + 1) by omega] at hd
      simp [hd]

/-- **The weight rows of an objective.** Under objective `i`, the weight rows whose clause passes
a test weigh what objective `i`'s pairs whose clause passes it weigh: the other objectives' rows
weigh nothing there. -/
theorem weightRows_weight (objs : List (List (List Lit × Nat))) (P : List Lit → Bool) {i : Nat}
    (hi : i < objs.length) :
    (((Weights.weightRows objs).filter fun p => P p.1).map fun p => ((p.2.getD i 0 : Nat) : Int)).sum =
      (((objs[i]?.getD []).filter fun p => P p.1).map fun p => (p.2 : Int)).sum := by
  have hrow : ∀ o (cw : List Lit × Nat),
      (((List.range objs.length).map fun j => if j = o then cw.2 else 0).getD i 0 : Int) =
        if o = i then (cw.2 : Int) else 0 := by
    intro o cw
    rw [List.getD_eq_getElem?_getD, List.getElem?_map, List.getElem?_range hi]
    by_cases h : i = o
    · simp [h]
    · simp [h, Ne.symm h]
  have hobj : ∀ q : List (List Lit × Nat) × Nat,
      (((q.1.map fun cw => (cw.1, (List.range objs.length).map fun j => if j = q.2 then cw.2 else 0)).filter
          (fun p => P p.1)).map fun p => ((p.2.getD i 0 : Nat) : Int)).sum =
        if q.2 = 0 + i then ((q.1.filter fun p => P p.1).map fun p => (p.2 : Int)).sum else 0 := by
    intro q
    rw [List.filter_map, List.map_map, Nat.zero_add]
    simp only [Function.comp_def, hrow]
    by_cases h : q.2 = i
    · simp [h]
    · simp [h]
  simp only [Weights.weightRows]
  rw [List.filter_flatten, List.map_flatten, List.sum_flatten, List.map_map, List.map_map, List.map_map]
  refine (congrArg List.sum (List.map_congr_left fun q _ => hobj q)).trans ?_
  refine (sum_zipIdx_at (fun ps => ((ps.filter fun p => P p.1).map fun p => (p.2 : Int)).sum) objs 0 i).trans ?_
  simp [List.getElem?_eq_getElem hi]

/-! ## The table an opened session holds -/

/-- The soft clauses objective `i` reads back as on a session opened on `objs`: the canonical
clause of every pair of every objective, in objective-major order of first occurrence, each
weighing what objective `i`'s pairs on that clause weigh together, zero when it has none. -/
def openedObjective (objs : List (List (List Lit × Nat))) (i : Nat) : SoftMap :=
  ⟨((objs.flatten.map fun p => canonicalClause p.1).eraseDups).map fun c =>
    (c, (((objs[i]?.getD []).filter fun p => canonicalClause p.1 = c).map fun p => (p.2 : Int)).sum)⟩

/-- The literals of the first unit clause on each variable not `seen`, in order. -/
def firstUnitLits (seen : List Nat) : List (List Lit) → List Lit
  | [] => []
  | c :: cs =>
    match c with
    | [l] => if l.var ∈ seen then firstUnitLits seen cs else l :: firstUnitLits (l.var :: seen) cs
    | _ => firstUnitLits seen cs

theorem Row.litList_streamedRow (c : List Lit) (ws : Option (List Datum)) :
    (streamedRow c ws).litList = c := by
  have hints : (streamedRow c ws).ints = c.map Lit.toInt := by
    simp [Row.ints, streamedRow, litData, Function.comp_def]
  rw [Row.litList, hints, filterMap_ofInt?_toInt]

theorem streamedRows_soft (hards : List (List Lit)) (objs : List (List (List Lit × Nat))) :
    (streamedRows hards objs).filter (fun r => r.weights.isSome) =
      (Weights.weightRows objs).map fun p => streamedRow p.1 (some (weightData p.2)) := by
  simp [streamedRows, List.filter_append, List.filter_map, Function.comp_def, streamedRow]

theorem streamedRows_hard (hards : List (List Lit)) (objs : List (List (List Lit × Nat))) :
    (streamedRows hards objs).filter (fun r => r.weights.isNone) = hards.map fun c => streamedRow c none := by
  simp [streamedRows, List.filter_append, List.filter_map, Function.comp_def, streamedRow]

theorem streamedRows_isLit {hards : List (List Lit)} {objs : List (List (List Lit × Nat))} :
    ∀ r ∈ streamedRows hards objs, ∀ d ∈ r.lits, IsLit d := by
  intro r hr d hd
  obtain ⟨l, -, rfl⟩ := lits_of_streamedRows (P := fun _ => True) (fun _ _ _ _ => trivial)
    (fun _ _ _ _ => trivial) r hr d hd
  exact ⟨l.toInt, Lit.toInt_ne_zero l, rfl⟩

theorem streamedRows_unlabelled {hards : List (List Lit)} {objs : List (List (List Lit × Nat))} :
    ∀ r ∈ streamedRows hards objs, r.label = false := by
  intro r hr
  simp only [streamedRows, List.mem_append, List.mem_map] at hr
  rcases hr with ⟨c, -, rfl⟩ | ⟨p, -, rfl⟩ <;> rfl

theorem streamedRows_length (hards : List (List Lit)) (objs : List (List (List Lit × Nat))) :
    (streamedRows hards objs).length = hards.length + objs.flatten.length := by
  have h := congrArg List.length (weightRows_clauses objs)
  simp only [List.length_map] at h
  simp [streamedRows, h]

namespace Engine

variable {e : Engine}

theorem markLabels_filter_map {β : Type} {n : Nat} {rows : List Row}
    (hw : ∀ r ∈ rows, ∀ ws, r.weights = some ws → ws.length = n) (P : Option (List Datum) → Bool)
    (f : Row → β) (hf : ∀ r, f r.unlabelled = f r) :
    ((markLabels (.int n) [] rows).1.filter fun r => P r.weights).map f =
      (rows.filter fun r => P r.weights).map f := by
  have hread : ∀ L : List Row, (L.filter fun r => P r.weights).map f =
      ((L.map Row.unlabelled).filter fun r => P r.weights).map f := by
    intro L
    rw [List.filter_map, List.map_map]
    exact List.map_congr_left fun r _ => (hf r).symm
  rw [hread, markLabels_unlabelled [] hw, ← hread]

theorem reportedAt_readRow (n : Nat) (c : List Lit) (ws : List Nat) {i : Nat} (hi : i < n) :
    reportedAt i (e.readRow n (streamedRow c (some (weightData ws)))) = ((ws.getD i 0 : Nat) : Int) := by
  simp only [reportedAt, readRow, reportedWeights, streamedRow, weightData_eq]
  rw [List.getD_eq_getElem?_getD, List.getElem?_map, List.getElem?_range hi]
  cases h : ws[i]? <;> simp [List.getD_eq_getElem?_getD, h]

/-- **The weight rows read back.** Under objective `i`, the weight rows of objectives gather into
the soft clauses of `openedObjective`. -/
theorem column_weightRows (objs : List (List (List Lit × Nat))) {i : Nat} (hi : i < objs.length) :
    (column i (((Weights.weightRows objs).map fun p => streamedRow p.1 (some (weightData p.2))).map
      (e.readRow objs.length))).map (fun p => (p.1, Simplified.weightInt p.2)) =
        (openedObjective objs i).entries := by
  have hkey : ∀ p : List Lit × List Nat,
      (e.readRow objs.length (streamedRow p.1 (some (weightData p.2)))).1 = canonicalClause p.1 :=
    fun p => by rw [readRow, Row.litList_streamedRow]
  have hrep : ∀ p : List Lit × List Nat,
      reportedAt i (e.readRow objs.length (streamedRow p.1 (some (weightData p.2)))) =
        ((p.2.getD i 0 : Nat) : Int) :=
    fun p => reportedAt_readRow _ _ _ hi
  have hkeys : ((((Weights.weightRows objs).map fun p => streamedRow p.1 (some (weightData p.2))).map
      (e.readRow objs.length)).map Prod.fst) = objs.flatten.map fun p => canonicalClause p.1 := by
    have h := congrArg (List.map canonicalClause) (weightRows_clauses objs)
    simp only [List.map_map, Function.comp_def] at h
    simp only [List.map_map, Function.comp_def, hkey, h]
  rw [column_eq_gathered]
  unfold gathered openedObjective
  rw [hkeys, List.map_map]
  refine List.map_congr_left fun c _ => ?_
  rw [← weightRows_weight objs (fun c' => decide (canonicalClause c' = c)) hi]
  simp only [List.filter_map, List.map_map, Function.comp_def, hkey, hrep]
  simp [Simplified.weightInt, Datum.asInt?]

end Engine

/-! ## Labels at the start -/

theorem unitLits_hard_append (seen : List Nat) (hards : List (List Lit)) (rows : List Row) :
    unitLits seen (hards.map (fun c => streamedRow c none) ++ rows) = unitLits seen rows := by
  induction hards with
  | nil => rfl
  | cons c hards ih => simpa [unitLits, streamedRow] using ih

/-- The soft rows of weight rows mark the first unit clause on each variable. -/
theorem unitLits_weightRows (seen : List Nat) (rows : List (List Lit × List Nat)) :
    unitLits seen (rows.map fun p => streamedRow p.1 (some (weightData p.2))) =
      (firstUnitLits seen (rows.map Prod.fst)).map Lit.toInt := by
  induction rows generalizing seen with
  | nil => rfl
  | cons p rows ih =>
    obtain ⟨c, ws⟩ := p
    have hsome : (streamedRow c (some (weightData ws))).weights.isSome = true := rfl
    have hlen : (streamedRow c (some (weightData ws))).lits.length = c.length := by
      simp [streamedRow, litData]
    simp only [List.map_cons, unitLits, hsome, hlen, true_and]
    rcases c with _ | ⟨l, _ | ⟨l', c⟩⟩
    · simp [firstUnitLits, ih]
    · have hlit : (streamedRow [l] (some (weightData ws))).labelLit = l.toInt := by
        simp [Row.labelLit, streamedRow, litData]
      rw [hlit, Lit.natAbs_toInt]
      by_cases hs : l.var ∈ seen
      · simp [firstUnitLits, hs, ih]
      · simp [firstUnitLits, hs, ih]
    · simp [firstUnitLits, ih]

/-! ## Opening succeeds -/

theorem Datum.written_int {n : Int} (h : n.natAbs < 10 ^ Datum.writableDigits) :
    ∃ t, Datum.written (.int n) = .ok t :=
  ⟨(Datum.int n).toText, by simp [Datum.written, Datum.hasLongInt, (Datum.longInt_eq_false_iff n).2 h]⟩

theorem Weights.u64Max_cast : ((Weights.u64Max : Nat) : Int) = Engine.u64Max := by decide

theorem lt_writable_of_le_u64Max {n : Int} (h0 : 0 ≤ n) (h : n ≤ Engine.u64Max) :
    n.natAbs < 10 ^ Datum.writableDigits := by
  have habs : n.natAbs ≤ 18446744073709551615 := by
    have hu : Engine.u64Max = 18446744073709551615 := by decide
    omega
  calc n.natAbs < 10 ^ 20 := by omega
    _ ≤ 10 ^ Datum.writableDigits := Nat.pow_le_pow_right (by norm_num) (by simp [Datum.writableDigits])

theorem vars_written_of_le_u64Max {cs : List (List Lit)} (h : ∀ c ∈ cs, ∀ l ∈ c, l.var ≤ Weights.u64Max) :
    ∀ c ∈ cs, ∀ l ∈ c, l.var < 10 ^ Datum.writableDigits := by
  intro c hc l hl
  have hle : (l.var : Int) ≤ Engine.u64Max := by
    rw [← Weights.u64Max_cast]
    exact_mod_cast h c hc l hl
  simpa using lt_writable_of_le_u64Max (Int.natCast_nonneg _) hle

namespace Engine

/-- Marking labels on rows with one weight per objective and integer literals fails nowhere. -/
theorem markLabels_ok {n : Nat} (seen : List Datum) {rows : List Row}
    (hw : ∀ r ∈ rows, ∀ ws, r.weights = some ws → ws.length = n)
    (hl : ∀ r ∈ rows, ∀ d ∈ r.lits, IsLit d) : (markLabels (.int n) seen rows).2 = none := by
  induction rows generalizing seen with
  | nil => rfl
  | cons r rs ih =>
    have ih' := fun seen => ih seen (fun r' hr' => hw r' (by simp [hr'])) (fun r' hr' => hl r' (by simp [hr']))
    rcases hws : r.weights with _ | ws
    case none => simp [markLabels, hws, ih']
    case some =>
      have hpad : (do Datum.zeros (← Datum.minus (.int n) (.int ws.length)) : Outcome (List Datum)) =
          .ok [] := by
        rw [hw r (by simp) ws hws, Datum.minus_int, sub_self]
        exact zeros_zero
      simp only [markLabels, hws, hpad, List.append_nil]
      split
      · rename_i l hlits
        obtain ⟨z, -, rfl⟩ := hl r (by simp) l (by simp [hlits])
        simp only [Datum.magnitude_int]
        split <;> simp [ih']
      · simp [ih']

/-- **Finalizing succeeds** on an open stream of rows with one weight per objective and integer
literals, with no more objectives than a repetition holds, and a largest variable and a top
weight that are written out. -/
theorem initFinalize_run {e : Engine} (hfin : e.finalized = false) {n : Nat} (hn : e.nObj = .int n)
    (hbound : (n : Int) ≤ Datum.repeatLimit) (hw : ∀ r ∈ e.rows, ∀ ws, r.weights = some ws → ws.length = n)
    (hl : ∀ r ∈ e.rows, ∀ d ∈ r.lits, IsLit d) {M t : Int} (hm : e.maxVar = .int M) (ht : e.top = .int t)
    (hM : M.natAbs < 10 ^ Datum.writableDigits) (htw : t.natAbs < 10 ^ Datum.writableDigits) :
    ∃ e', initFinalize.run e = (.ok (), e') := by
  have hz : Datum.zeros (.int n) = .ok (List.replicate n (.int 0)) := by
    rw [zeros_ok (by omega) hbound, Int.toNat_natCast]
  have hnw : (n : Int).natAbs < 10 ^ Datum.writableDigits := by
    have := lt_writable_of_le_u64Max (n := n) (by omega)
      (le_trans hbound (by simp [Datum.repeatLimit, u64Max]))
    exact this
  obtain ⟨tM, htM⟩ := Datum.written_int hM
  obtain ⟨tn, htn⟩ := Datum.written_int hnw
  obtain ⟨tt, htt⟩ := Datum.written_int htw
  obtain ⟨rows, hrows⟩ : ∃ rows, markLabels (.int n) [] e.rows = (rows, none) :=
    ⟨_, Prod.ext rfl (markLabels_ok [] hw hl)⟩
  simp only [initFinalize, EngineM.run_bind, EngineM.run_get, hfin, Bool.false_eq_true, if_false, hn,
    EngineM.run_lift, hz, hrows, EngineM.run_set, EngineM.run_modify]
  simp only [finalizedLine, hm, ht, htM, htn, htt, bind, Except.bind, pure, Except.pure]
  exact ⟨_, rfl⟩

end Engine

theorem Weights.topWeight_eq_ok {objs : List (List (List Lit × Nat))}
    (h : 1 + Weights.totalWeight objs ≤ Weights.u64Max) :
    Weights.topWeight objs = .ok (1 + Weights.totalWeight objs) := by
  unfold Weights.totalWeight at h
  simp only [Weights.topWeight, ← List.sum_eq_foldl_nat, Weights.totalWeight, if_neg (not_lt.2 h)]

theorem Weights.topWeight_eq_error {objs : List (List (List Lit × Nat))}
    (h : Weights.u64Max < 1 + Weights.totalWeight objs) :
    Weights.topWeight objs = refuse (.topWeightTooLarge ((1 + Weights.totalWeight objs : Nat) : Int)) := by
  unfold Weights.totalWeight at h
  simp only [Weights.topWeight, ← List.sum_eq_foldl_nat, Weights.totalWeight, if_pos h]

theorem Cause.fail_topWeightTooLarge (n : Int) :
    (Cause.topWeightTooLarge n).fail =
      if n.natAbs < 10 ^ Datum.writableDigits then ⟨.validation, .topWeightTooLarge n⟩
      else ⟨.value, .longIntText⟩ :=
  Cause.fail_writing rfl

theorem Weights.softWeight_error {d : Datum} {f : Failure} (h : Weights.softWeight d = .error f) :
    f = ⟨.validation, .badSoftWeight d⟩ ∨ f = ⟨.value, .longIntText⟩ := by
  have hf : f = (Cause.badSoftWeight d).fail := by
    cases d with
    | int n =>
      simp only [Weights.softWeight] at h
      split_ifs at h
      exact (Except.error.inj h).symm
    | _ => exact (Except.error.inj h).symm
  subst hf
  exact Cause.fail_cases _

namespace Session

variable {backend : Backend} {config : SessionConfig} {hards : List (List Lit)}
  {objs : List (List (List Lit × Nat))} {inprocessing : Bool}

/-- **Opening succeeds** on objectives whose weights, with one, fit into 64 bits, when every
variable is written out in at most 4300 digits and no more objectives are given than a
repetition holds. -/
theorem openWith_ok (hfit : 1 + Weights.totalWeight objs ≤ Weights.u64Max)
    (hvars : ∀ c ∈ hards ++ objs.flatten.map Prod.fst, ∀ l ∈ c, l.var < 10 ^ Datum.writableDigits)
    (hk : (objs.length : Int) ≤ Datum.repeatLimit) :
    ∃ s, openWith backend config hards objs inprocessing none = .ok s := by
  have htw : ((1 + Weights.totalWeight objs : Nat) : Int).natAbs < 10 ^ Datum.writableDigits := by
    exact lt_writable_of_le_u64Max (by omega) (by rw [← Weights.u64Max_cast]; exact_mod_cast hfit)
  generalize hW : 10 ^ Datum.writableDigits = W at hvars htw
  have hb₀ : Engine.Between (Engine.start (.int ((1 + Weights.totalWeight objs : Nat) : Int)) inprocessing
      (.int objs.length)) := ⟨rfl, rfl, rfl, rfl⟩
  obtain ⟨M₁, hle₁, -, hleast₁, h₁⟩ := Engine.streamClauses_run hards hb₀ rfl
  obtain ⟨E₁, h₁, hb₁, hm₁, hn₁, hrows₁, ht₁⟩ : ∃ E₁ : Engine,
      (hards.forM streamClause).run (Engine.start (.int ((1 + Weights.totalWeight objs : Nat) : Int))
        inprocessing (.int objs.length)) = (.ok (), E₁) ∧ Engine.Between E₁ ∧ E₁.maxVar = .int M₁ ∧
      E₁.nObj = .int objs.length ∧ E₁.rows = hards.map (fun c => streamedRow c none) ∧
      E₁.top = .int ((1 + Weights.totalWeight objs : Nat) : Int) :=
    ⟨_, h₁, ⟨rfl, rfl, rfl, rfl⟩, rfl, rfl, by simp [Engine.start], rfl⟩
  obtain ⟨M, hle, -, hleast, h₂⟩ := Engine.streamRows_run (Weights.weightRows objs) hb₁ hm₁ hn₁
    (fun p hp => Engine.weightRows_width hp)
  obtain ⟨E₂, h₂, hfin₂, hn₂, hrows₂, hm₂, ht₂⟩ : ∃ E₂ : Engine,
      ((Weights.weightRows objs).forM streamRow).run E₁ = (.ok (), E₂) ∧ E₂.finalized = false ∧
      E₂.nObj = .int objs.length ∧ E₂.rows = streamedRows hards objs ∧ E₂.maxVar = .int M ∧
      E₂.top = .int ((1 + Weights.totalWeight objs : Nat) : Int) :=
    ⟨_, h₂, hb₁.notFinalized, hn₁, by simp [hrows₁, streamedRows], rfl, ht₁⟩
  have hM : M < W := by
    have hB := hleast (W - 1) (hleast₁ (W - 1) (by omega) fun c hc l hl =>
        by have := hvars c (List.mem_append_left _ hc) l hl; omega)
      fun p hp l hl => by
        have hmem : p.1 ∈ objs.flatten.map Prod.fst := by
          rw [← weightRows_clauses]
          exact List.mem_map_of_mem hp
        have := hvars p.1 (List.mem_append_right _ hmem) l hl
        omega
    omega
  have hw : ∀ r ∈ E₂.rows, ∀ ws, r.weights = some ws → ws.length = objs.length := by
    rw [hrows₂]
    exact fun r hr ws hws => (weights_of_streamedRows r hr ws hws).1
  have hl : ∀ r ∈ E₂.rows, ∀ d ∈ r.lits, IsLit d := by
    rw [hrows₂]
    exact streamedRows_isLit
  obtain ⟨e, he⟩ := Engine.initFinalize_run hfin₂ hn₂ hk hw hl hm₂ ht₂ (by rw [hW]; omega)
    (by rw [hW]; exact htw)
  have hrun : (streamInstance hards objs).run
      (Engine.start (.int ((1 + Weights.totalWeight objs : Nat) : Int)) inprocessing (.int objs.length)) =
        (.ok (), e) := by
    rw [streamInstance, EngineM.run_bind_ok h₁, EngineM.run_bind_ok h₂]
    exact he
  unfold openWith
  simp only [Weights.topWeight_eq_ok hfit, bind, Except.bind, pure, Except.pure]
  split
  · rename_i f e' hfail
    exact absurd (hfail.symm.trans hrun) (by simp)
  · exact ⟨_, rfl⟩

/-- What a session opened on hard clauses and objectives reads back before any other call. -/
structure OpenedOn (hards : List (List Lit)) (objs : List (List (List Lit × Nat))) (s : Session) :
    Prop where
  top : s.topWeight = .ok ((1 + Weights.totalWeight objs : Nat) : Int)
  objectives : s.nObj = objs.length
  removed : s.removedWeight = .ok (List.replicate objs.length 0)
  readBack : ∃ inst, s.preproInstance = .ok inst ∧ inst.hards = hards.map canonicalClause ∧
    ∀ i < objs.length, inst.objective i = openedObjective objs i
  labels : s.preproLabels = .ok ((firstUnitLits [] (objs.flatten.map Prod.fst)).map Lit.toInt)

/-- **Reading an opened session back.** A session opened on no more rows than 64-bit positions
reads back its top weight, one zero removed weight per objective, the hard clauses in canonical
order, the soft clauses of `openedObjective` and the first soft unit on each variable as labels. -/
theorem openWith_readBack {offsets : Option Datum} {s : Session}
    (h : openWith backend config hards objs inprocessing offsets = .ok s)
    (hrows : ((hards.length + objs.flatten.length : Nat) : Int) ≤ Datum.wordBound) :
    s.OpenedOn hards objs := by
  obtain ⟨top, M, info, htop, -, -, -, -, heng, hn, -, -, -⟩ := Engine.openWith_engine h
  have hreach : s.Reachable := .opened h
  have hr := hreach.ready
  have hb := hreach.topBound
  have hwidth : ∀ r ∈ streamedRows hards objs, ∀ ws, r.weights = some ws → ws.length = objs.length :=
    fun r hr ws hws => (weights_of_streamedRows r hr ws hws).1
  have hrows_eq : s.engine.rows = (Engine.markLabels (.int objs.length) [] (streamedRows hards objs)).1 := by
    rw [heng]
  have hlen : (s.engine.rows.length : Int) ≤ Datum.wordBound := by
    have hmark := congrArg List.length (Engine.markLabels_unlabelled [] hwidth)
    simp only [List.length_map] at hmark
    rw [hrows_eq, hmark, streamedRows_length]
    exact hrows
  obtain ⟨inst, hinst, -, -⟩ := Engine.extract_succeeds hr.shape hb hlen
  obtain ⟨hhards, hsofts⟩ := Engine.extract_rows hr.shape.tabled hb hr.shape.soft_pos hinst
  refine ⟨?_, hn, ?_, ⟨inst, ?_, ?_, fun i hi => ?_⟩, ?_⟩
  case refine_1 =>
    obtain ⟨htop, -⟩ := Weights.topWeight_ok htop
    simp [Session.topWeight, hr.shared, heng, Engine.start, htop, Weights.totalWeight, bind, Except.bind,
      pure, Except.pure]
  case refine_2 =>
    rw [hreach.removedWeight_eq, heng]
    simp
  case refine_3 => simp [preproInstance, hr.shared, hinst, bind, Except.bind]
  case refine_4 =>
    rw [hhards, hrows_eq, Engine.markLabels_filter_map hwidth (fun w => w.isNone)
      (fun r => canonicalClause r.litList) (fun r => rfl), streamedRows_hard, List.map_map]
    exact List.map_congr_left fun c _ => by simp [Row.litList_streamedRow]
  case refine_5 =>
    have hcol := hsofts i (hn ▸ hi)
    rw [hn, hrows_eq, Engine.markLabels_filter_map hwidth (fun w => w.isSome) (s.engine.readRow objs.length)
      (fun r => rfl), streamedRows_soft] at hcol
    rw [Simplified.objective, ← softColumn, hcol, Engine.column_weightRows objs hi]
  case refine_6 =>
    obtain ⟨-, hlabels⟩ := Engine.markLabels_labels [] hwidth streamedRows_isLit streamedRows_unlabelled
    rw [List.map_nil] at hlabels
    rw [hreach.preproLabels_eq, hrows_eq, hlabels, streamedRows, unitLits_hard_append, unitLits_weightRows,
      weightRows_clauses]

theorem openWith_unfit (h : Weights.u64Max < 1 + Weights.totalWeight objs) (offsets : Option Datum) :
    openWith backend config hards objs inprocessing offsets =
      .error (Cause.topWeightTooLarge ((1 + Weights.totalWeight objs : Nat) : Int)).fail := by
  unfold openWith
  rw [Weights.topWeight_eq_error h]
  rfl

/-- **Opening and reading back.** On objectives whose weights, with one, fit into 64 bits, with
every variable written out in at most 4300 digits, no more objectives than a repetition holds and
no more pairs and hard clauses than 64-bit positions, a session opens and reads back as `OpenedOn`
says. Beyond 64 bits opening is refused before any engine starts: as a validation error naming the
top weight, or as a value error when the top weight has more than 4300 digits to write out. A pair's
weight that is not a natural number, and a literal that is not a non-zero integer, are refused as
validation errors, or as value errors when their messages would write more than 4300 digits. -/
theorem openWith_roundTrip (backend : Backend) (config : SessionConfig) (hards : List (List Lit))
    (objs : List (List (List Lit × Nat))) (inprocessing : Bool) :
    (1 + Weights.totalWeight objs ≤ Weights.u64Max →
      (∀ c ∈ hards ++ objs.flatten.map Prod.fst, ∀ l ∈ c, l.var < 10 ^ Datum.writableDigits) →
      (objs.length : Int) ≤ Datum.repeatLimit →
      ((hards.length + objs.flatten.length : Nat) : Int) ≤ Datum.wordBound →
      ∃ s, openWith backend config hards objs inprocessing none = .ok s ∧ s.OpenedOn hards objs) ∧
    (Weights.u64Max < 1 + Weights.totalWeight objs → ∀ offsets : Option Datum,
      openWith backend config hards objs inprocessing offsets = .error
        (if 1 + Weights.totalWeight objs < 10 ^ Datum.writableDigits then
          ⟨.validation, .topWeightTooLarge ((1 + Weights.totalWeight objs : Nat) : Int)⟩
        else ⟨.value, .longIntText⟩)) ∧
    (∀ (d : Datum) (f : Failure), Weights.softWeight d = .error f →
      f = ⟨.validation, .badSoftWeight d⟩ ∨ f = ⟨.value, .longIntText⟩) ∧
    (∀ (d : Datum) (xs : List Datum), d.elements? = some xs → ∀ f : Failure, clauseOf d = .error f →
      f.kind = .validation ∨ f = ⟨.value, .longIntText⟩) := by
  refine ⟨fun hfit hvars hk hrows => ?_, fun hunfit offsets => ?_,
    fun d f h => Weights.softWeight_error h, fun d xs hd f h => clauseOf_error hd h⟩
  · obtain ⟨s, hs⟩ := openWith_ok hfit hvars hk
    exact ⟨s, hs, openWith_readBack hs hrows⟩
  · rw [openWith_unfit hunfit, Cause.fail_topWeightTooLarge, Int.natAbs_natCast]

end Session

/-- A session opened on the hard clause `x1 ∨ x2` and the objectives `{x3: 5, ¬x1: 2}` and
`{x3: 1, x2: 4}` reads back as `Session.OpenedOn` says. -/
theorem two_objectives_read_back :
    ∃ s, Session.openWith .reference {} [[⟨1, false, by decide⟩, ⟨2, false, by decide⟩]]
        [[([⟨3, false, by decide⟩], 5), ([⟨1, true, by decide⟩], 2)],
          [([⟨3, false, by decide⟩], 1), ([⟨2, false, by decide⟩], 4)]] false none = .ok s ∧
      s.OpenedOn [[⟨1, false, by decide⟩, ⟨2, false, by decide⟩]]
        [[([⟨3, false, by decide⟩], 5), ([⟨1, true, by decide⟩], 2)],
          [([⟨3, false, by decide⟩], 1), ([⟨2, false, by decide⟩], 4)]] :=
  (Session.openWith_roundTrip .reference {} _ _ false).1 (by decide) (vars_written_of_le_u64Max (by decide))
    (by decide) (by decide)

/-- A top weight of 4301 digits is refused as a value error, not as the validation error of a top
weight that does not fit: its message cannot be written out. -/
theorem long_top_weight_refused_as_value_error :
    Session.openWith .reference {} [[⟨1, false, by decide⟩]]
      [[([⟨1, false, by decide⟩], 10 ^ Datum.writableDigits - 1)]] false none = .error ⟨.value, .longIntText⟩ := by
  have hu : ((Weights.u64Max : Nat) : Int).natAbs < 10 ^ Datum.writableDigits :=
    lt_writable_of_le_u64Max (by omega) (by decide)
  have htot : 1 + Weights.totalWeight [[([⟨1, false, by decide⟩], 10 ^ Datum.writableDigits - 1)]] =
      10 ^ Datum.writableDigits := by
    have hpos : 0 < 10 ^ Datum.writableDigits := Nat.pos_of_ne_zero (by simp)
    simp only [Weights.totalWeight, List.map_cons, List.map_nil, List.sum_cons, List.sum_nil]
    generalize 10 ^ Datum.writableDigits = W at hpos ⊢
    omega
  rw [Int.natAbs_natCast] at hu
  rw [Session.openWith_unfit (by rw [htot]; exact hu), Cause.fail_topWeightTooLarge, Int.natAbs_natCast, htot,
    if_neg (lt_irrefl _)]

end MaxSatPrep
