import MaxSatPrep.Proofs.EngineRun
/-!
Opening a session. The hard clauses and then the weight rows are streamed into a fresh engine,
a literal or a weight at a time, and the stream is finalized. Between rows nothing is pending,
so each clause streams into one row of its literals, hard without weights and soft with the
weights of its objectives, and the largest variable grows to cover its literals. Finalizing
pads no row, as every weight row has one weight per objective, and only marks labels.

Main statement, `openWith_engine`: the engine of a session opened on hard clauses and
objectives holds, up to labels, one hard row per hard clause and then the weight rows, with no
removed weight, no fixed literal and an empty trace, under the top weight of the objectives.
-/

namespace MaxSatPrep

open Session (intOf)

/-- the stream's values for the literals of a clause -/
def litData (c : List Lit) : List Datum := c.map (fun l => .int l.toInt)

/-- the row a clause streams into, with the weights it streams before it -/
def streamedRow (c : List Lit) (weights : Option (List Datum)) : Row :=
  { lits := litData c, weights := weights }

/-- a row with its label mark taken off -/
def Row.unlabelled (r : Row) : Row := { r with label := false }

/-- the weights of a weight row as the stream sends them -/
def weightData (ws : List Nat) : List Datum := ws.map (fun w => .int w)

/-- the rows an instance streams into: a hard row per hard clause, then a soft row per weight
row -/
def streamedRows (hards : List (List Lit)) (objs : List (List (List Lit × Nat))) : List Row :=
  hards.map (fun c => streamedRow c none) ++
    (Weights.weightRows objs).map (fun p => streamedRow p.1 (some (weightData p.2)))

/-- the stream of an instance into an engine: the hard clauses, the weight rows, then
finalizing -/
def streamInstance (hards : List (List Lit)) (objs : List (List (List Lit × Nat))) : EngineM Unit := do
  hards.forM Session.streamClause
  (Weights.weightRows objs).forM Session.streamRow
  Engine.initFinalize

@[simp] theorem length_weightData (ws : List Nat) : (weightData ws).length = ws.length := by
  simp [weightData]

theorem mem_litData {c : List Lit} {d : Datum} : d ∈ litData c ↔ ∃ l ∈ c, d = .int l.toInt := by
  simp [litData, eq_comm]

namespace Engine

/-- Between rows: the stream is open, nothing is pending and no row shares the stream's
lists. -/
structure Between (e : Engine) : Prop where
  notFinalized : e.finalized = false
  sharing : e.sharing = []
  lits : e.pendingLits = []
  weights : e.pendingWeights = []

theorem mirrorPending_of_sharing {e : Engine} (h : e.sharing = []) : mirrorPending e = e := by
  have hrows : e.rows.mapIdx (fun i r => if e.sharing.contains i then
      { r with lits := e.pendingLits, weights := some e.pendingWeights } else r) = e.rows := by
    rw [h]
    exact List.ext_getElem (by simp) (by simp)
  simp only [mirrorPending, hrows]

section Streaming

variable {e : Engine}

theorem initAddWeight_run (hfin : e.finalized = false) (hsh : e.sharing = []) (w : Datum) :
    (initAddWeight w).run e = (.ok (), { e with pendingWeights := e.pendingWeights ++ [w] }) := by
  simp only [initAddWeight, EngineM.run_bind, EngineM.run_get, hfin, Bool.false_eq_true,
    if_false, EngineM.run_pure, mirrorPending_of_sharing, hsh, EngineM.run_set]

theorem initAddLit_run (hfin : e.finalized = false) (hsh : e.sharing = []) {m : Int}
    (hm : e.maxVar = .int m) {z : Int} (hz : z ≠ 0) :
    (initAddLit (.int z)).run e =
      (.ok (), { e with pendingLits := e.pendingLits ++ [.int z], maxVar := .int (max m z.natAbs) }) := by
  have hnz : Datum.numEq (.int z) (.int 0) = false := by simpa using hz
  simp only [initAddLit, EngineM.run_bind, EngineM.run_get, hfin, Bool.false_eq_true, if_false,
    EngineM.run_pure, hnz, mirrorPending_of_sharing, hsh, EngineM.run_set, EngineM.run_lift,
    Datum.magnitude_int, hm, Datum.maxOf_int, EngineM.run_modify]

/-- Streaming the literals of a clause puts them after the pending ones and raises the largest
variable to cover them, and no further. -/
theorem streamLits_run (c : List Lit) (hfin : e.finalized = false) (hsh : e.sharing = [])
    {m : Int} (hm : e.maxVar = .int m) :
    ∃ M : Int, m ≤ M ∧ (∀ l ∈ c, (l.var : Int) ≤ M) ∧
      (∀ B : Int, m ≤ B → (∀ l ∈ c, (l.var : Int) ≤ B) → M ≤ B) ∧
      (c.forM (fun l => initAddLit (.int l.toInt))).run e =
        (.ok (), { e with pendingLits := e.pendingLits ++ litData c, maxVar := .int M }) := by
  induction c generalizing e m with
  | nil => exact ⟨m, le_refl m, by simp, fun B hB _ => hB, by simp [litData, ← hm]⟩
  | cons l c ih =>
    have hcons : (l :: c).forM (fun l => initAddLit (.int l.toInt)) =
        (initAddLit (.int l.toInt) >>= fun _ => c.forM (fun l => initAddLit (.int l.toInt))) := rfl
    obtain ⟨M, hle, hc, hleast, hrun⟩ := @ih
      { e with pendingLits := e.pendingLits ++ [.int l.toInt], maxVar := .int (max m l.toInt.natAbs) }
      hfin hsh _ rfl
    have hvar : (l.toInt.natAbs : Int) = l.var := by
      rcases l with ⟨v, neg, hv⟩
      cases neg <;> simp [Lit.toInt]
    refine ⟨M, le_trans (le_max_left _ _) hle, fun l' hl' => ?_, fun B hB hlB => ?_, ?_⟩
    · rcases List.mem_cons.1 hl' with rfl | hl'
      · rw [← hvar]
        exact le_trans (le_max_right _ _) hle
      · exact hc l' hl'
    · refine hleast B (max_le hB ?_) (fun l' hl' => hlB l' (List.mem_cons_of_mem l hl'))
      rw [hvar]
      exact hlB l List.mem_cons_self
    · rw [hcons, EngineM.run_bind_ok (initAddLit_run hfin hsh hm (Lit.toInt_ne_zero l)), hrun]
      simp [litData]

theorem initAddLit_zero (hfin : e.finalized = false) : (initAddLit (.int 0)).run e = closeRow.run e := by
  have hzero : Datum.numEq (.int 0) (.int 0) = true := by simp
  simp only [initAddLit, EngineM.run_bind, EngineM.run_get, hfin, Bool.false_eq_true, if_false,
    hzero, if_true]

theorem closeRow_hard (hw : e.pendingWeights = []) (hsh : e.sharing = []) :
    closeRow.run e = (.ok (), { e with
      rows := e.rows ++ [({ lits := e.pendingLits, weights := none } : Row)], pendingLits := [] }) := by
  simp only [closeRow, EngineM.run_bind, EngineM.run_get, hw, List.isEmpty_nil, if_true,
    EngineM.run_set]
  simp [← hw, ← hsh]

theorem closeRow_soft {n : Nat} (hn : e.nObj = .int n) (hlen : e.pendingWeights.length = n)
    (hpos : e.pendingWeights ≠ []) :
    closeRow.run e = (.ok (), { e with
      rows := e.rows ++ [({ lits := e.pendingLits, weights := some e.pendingWeights } : Row)],
      pendingLits := [], pendingWeights := [], sharing := [] }) := by
  have hne : e.pendingWeights.isEmpty = false := by simpa using hpos
  simp only [closeRow, EngineM.run_bind, EngineM.run_get, hne, Bool.false_eq_true, if_false,
    EngineM.run_set, hn, hlen, Datum.maxOf_int, max_self]

theorem streamClause_run (c : List Lit) (hb : Between e) {m : Int} (hm : e.maxVar = .int m) :
    ∃ M : Int, m ≤ M ∧ (∀ l ∈ c, (l.var : Int) ≤ M) ∧
      (∀ B : Int, m ≤ B → (∀ l ∈ c, (l.var : Int) ≤ B) → M ≤ B) ∧
      (Session.streamClause c).run e =
        (.ok (), { e with rows := e.rows ++ [streamedRow c none], maxVar := .int M }) := by
  obtain ⟨M, hle, hc, hleast, hrun⟩ := streamLits_run c hb.notFinalized hb.sharing hm
  refine ⟨M, hle, hc, hleast, ?_⟩
  rw [Session.streamClause, EngineM.run_bind_ok hrun]
  simp only [initAddLit_zero, closeRow_hard, hb.notFinalized, hb.weights, hb.sharing, hb.lits,
    List.nil_append, streamedRow]

theorem streamWeights_run (ws : List Nat) (hfin : e.finalized = false) (hsh : e.sharing = []) :
    (ws.forM (fun w => initAddWeight (.int w))).run e =
      (.ok (), { e with pendingWeights := e.pendingWeights ++ weightData ws }) := by
  induction ws generalizing e with
  | nil => simp [weightData]
  | cons w ws ih =>
    have hcons : (w :: ws).forM (fun w => initAddWeight (.int w)) =
        (initAddWeight (.int w) >>= fun _ => ws.forM (fun w => initAddWeight (.int w))) := rfl
    rw [hcons, EngineM.run_bind_ok (initAddWeight_run hfin hsh _),
      @ih { e with pendingWeights := e.pendingWeights ++ [.int w] } hfin hsh]
    simp [weightData]

/-- A weight row with one weight per objective streams into one soft row. -/
theorem streamRow_run (p : List Lit × List Nat) (hb : Between e) {m : Int} (hm : e.maxVar = .int m)
    {n : Nat} (hn : e.nObj = .int n) (hlen : p.2.length = n) (hpos : p.2 ≠ []) :
    ∃ M : Int, m ≤ M ∧ (∀ l ∈ p.1, (l.var : Int) ≤ M) ∧
      (∀ B : Int, m ≤ B → (∀ l ∈ p.1, (l.var : Int) ≤ B) → M ≤ B) ∧
      (Session.streamRow p).run e = (.ok (),
        { e with rows := e.rows ++ [streamedRow p.1 (some (weightData p.2))], maxVar := .int M }) := by
  obtain ⟨M, hle, hc, hleast, hrun⟩ := @streamLits_run { e with pendingWeights := e.pendingWeights ++ weightData p.2 }
    p.1 hb.notFinalized hb.sharing m hm
  refine ⟨M, hle, hc, hleast, ?_⟩
  have hwlen : (weightData p.2).length = n := by rw [length_weightData, hlen]
  have hne : weightData p.2 ≠ [] := fun h => hpos (List.length_eq_zero_iff.1 (by
    rw [← length_weightData, h, List.length_nil]))
  rw [Session.streamRow, EngineM.run_bind_ok (streamWeights_run p.2 hb.notFinalized hb.sharing),
    Session.streamClause, EngineM.run_bind_ok hrun]
  simp only [initAddLit_zero, hb.notFinalized, hb.weights, hb.sharing, hb.lits, List.nil_append]
  rw [closeRow_soft]
  · simp only [streamedRow, hb.lits, hb.weights, hb.sharing]
  · exact hn
  · simpa using hwlen
  · simpa using hne

/-- Hard clauses stream into one hard row each, in order. -/
theorem streamClauses_run (hards : List (List Lit)) (hb : Between e) {m : Int} (hm : e.maxVar = .int m) :
    ∃ M : Int, m ≤ M ∧ (∀ c ∈ hards, ∀ l ∈ c, (l.var : Int) ≤ M) ∧
      (∀ B : Int, m ≤ B → (∀ c ∈ hards, ∀ l ∈ c, (l.var : Int) ≤ B) → M ≤ B) ∧
      (hards.forM Session.streamClause).run e =
        (.ok (), { e with rows := e.rows ++ hards.map (fun c => streamedRow c none), maxVar := .int M }) := by
  induction hards generalizing e m with
  | nil => exact ⟨m, le_refl m, by simp, fun B hB _ => hB, by simp [← hm]⟩
  | cons c hards ih =>
    obtain ⟨M₁, hle₁, hc₁, hleast₁, hrun₁⟩ := streamClause_run c hb hm
    obtain ⟨M, hle, hc, hleast, hrun⟩ := @ih { e with rows := e.rows ++ [streamedRow c none], maxVar := .int M₁ }
      ⟨hb.notFinalized, hb.sharing, hb.lits, hb.weights⟩ _ rfl
    refine ⟨M, le_trans hle₁ hle, fun c' hc' l hl => ?_, fun B hB hcB => ?_, ?_⟩
    · rcases List.mem_cons.1 hc' with rfl | hc'
      · exact le_trans (hc₁ l hl) hle
      · exact hc c' hc' l hl
    · exact hleast B (hleast₁ B hB (hcB c List.mem_cons_self))
        (fun c' hc' => hcB c' (List.mem_cons_of_mem c hc'))
    · have hcons : (c :: hards).forM Session.streamClause =
          (Session.streamClause c >>= fun _ => hards.forM Session.streamClause) := rfl
      rw [hcons, EngineM.run_bind_ok hrun₁, hrun]
      simp

/-- Weight rows with one weight per objective stream into one soft row each, in order. -/
theorem streamRows_run (rows : List (List Lit × List Nat)) (hb : Between e) {m : Int}
    (hm : e.maxVar = .int m) {n : Nat} (hn : e.nObj = .int n)
    (hrows : ∀ p ∈ rows, p.2.length = n ∧ p.2 ≠ []) :
    ∃ M : Int, m ≤ M ∧ (∀ p ∈ rows, ∀ l ∈ p.1, (l.var : Int) ≤ M) ∧
      (∀ B : Int, m ≤ B → (∀ p ∈ rows, ∀ l ∈ p.1, (l.var : Int) ≤ B) → M ≤ B) ∧
      (rows.forM Session.streamRow).run e = (.ok (), { e with
        rows := e.rows ++ rows.map (fun p => streamedRow p.1 (some (weightData p.2))), maxVar := .int M }) := by
  induction rows generalizing e m with
  | nil => exact ⟨m, le_refl m, by simp, fun B hB _ => hB, by simp [← hm]⟩
  | cons p rows ih =>
    obtain ⟨hlen, hpos⟩ := hrows p (by simp)
    obtain ⟨M₁, hle₁, hc₁, hleast₁, hrun₁⟩ := streamRow_run p hb hm hn hlen hpos
    obtain ⟨M, hle, hc, hleast, hrun⟩ := @ih
      { e with rows := e.rows ++ [streamedRow p.1 (some (weightData p.2))], maxVar := .int M₁ }
      ⟨hb.notFinalized, hb.sharing, hb.lits, hb.weights⟩ _ rfl hn
      (fun q hq => hrows q (by simp [hq]))
    refine ⟨M, le_trans hle₁ hle, fun q hq l hl => ?_, fun B hB hpB => ?_, ?_⟩
    · rcases List.mem_cons.1 hq with rfl | hq
      · exact le_trans (hc₁ l hl) hle
      · exact hc q hq l hl
    · exact hleast B (hleast₁ B hB (hpB p List.mem_cons_self))
        (fun q hq => hpB q (List.mem_cons_of_mem p hq))
    · have hcons : (p :: rows).forM Session.streamRow =
          (Session.streamRow p >>= fun _ => rows.forM Session.streamRow) := rfl
      rw [hcons, EngineM.run_bind_ok hrun₁, hrun]
      simp

end Streaming

/-! ## Finalizing -/

theorem zeros_int {k : Int} {ds : List Datum} (h : Datum.zeros (.int k) = .ok ds) :
    ds = List.replicate k.toNat (.int 0) := by
  unfold Datum.zeros at h
  simp only [Datum.wholeOf?] at h
  split at h
  · cases h
  · split at h
    · cases h
    · cases h
      rfl

theorem zeros_int_le {k : Int} {ds : List Datum} (h : Datum.zeros (.int k) = .ok ds) :
    k ≤ Datum.repeatLimit := by
  unfold Datum.zeros at h
  simp only [Datum.wholeOf?] at h
  split at h
  · cases h
  · split at h
    · cases h
    · rename_i hlim
      exact not_lt.1 hlim

theorem zeros_zero : Datum.zeros (.int 0) = .ok [] := rfl

/-- Finalizing rows with one weight per objective pads none of them: up to labels the rows
stay. -/
theorem markLabels_unlabelled {n : Nat} (seen : List Datum) {rows : List Row}
    (h : ∀ r ∈ rows, ∀ ws, r.weights = some ws → ws.length = n) :
    (markLabels (.int n) seen rows).1.map Row.unlabelled = rows.map Row.unlabelled := by
  induction rows generalizing seen with
  | nil => rfl
  | cons r rs ih =>
    have ih' := fun seen => ih seen (fun r' hr' => h r' (by simp [hr']))
    rcases hw : r.weights with _ | ws
    case none =>
      simp only [markLabels, hw, List.map_cons, ih']
    case some =>
      have hpad : (do Datum.zeros (← Datum.minus (.int n) (.int ws.length)) : Outcome (List Datum)) =
          .ok [] := by
        rw [h r (by simp) ws hw, Datum.minus_int, sub_self]
        exact zeros_zero
      have hr : ({ r with weights := some ws } : Row).unlabelled = r.unlabelled := by
        simp only [Row.unlabelled, ← hw]
      simp only [markLabels, hw, hpad, List.append_nil]
      split
      · split
        · simp [hr]
        · split
          · simp [hr, ih']
          · simp only [List.map_cons, ih']
            simp [Row.unlabelled, ← hw]
      · simp [hr, ih']

/-- Finalizing an open stream with `n` objectives that succeeds gives no removed weight for each
objective, marks labels and closes the stream; it succeeds only up to the repetition limit. -/
theorem initFinalize_ok {e e' : Engine} (h : initFinalize.run e = (.ok (), e'))
    (hfin : e.finalized = false) {n : Nat} (hn : e.nObj = .int n) :
    (n : Int) ≤ Datum.repeatLimit ∧ ∃ info, e' = { e with
      removed := List.replicate n (.int 0), rows := (markLabels (.int n) [] e.rows).1,
      finalized := true, info := info } := by
  have hrun := h
  simp only [initFinalize, EngineM.run_bind, EngineM.run_get, hfin, Bool.false_eq_true, if_false,
    hn, EngineM.run_lift] at hrun
  rcases hz : Datum.zeros (.int n) with f | removed
  · simp [hz] at hrun
  rcases hmark : markLabels (.int n) [] e.rows with ⟨rows, _ | f⟩
  · simp only [hz, hmark, EngineM.run_set, EngineM.run_modify, EngineM.run_bind, EngineM.run_get,
      EngineM.run_lift] at hrun
    split at hrun
    · rename_i line e₂ hline
      obtain ⟨-, rfl⟩ := Prod.mk.inj hline
      simp only [Prod.mk.injEq] at hrun
      obtain ⟨-, rfl⟩ := hrun
      exact ⟨zeros_int_le hz, e.info ++ [line], by simp [zeros_int hz, hn, hmark]⟩
    · cases hrun
  · simp [hz, hmark] at hrun

/-! ## Opening a session -/

theorem weightRows_width {objs : List (List (List Lit × Nat))} {p : List Lit × List Nat}
    (hp : p ∈ Weights.weightRows objs) : p.2.length = objs.length ∧ p.2 ≠ [] := by
  simp only [Weights.weightRows, List.mem_flatten, List.mem_map] at hp
  obtain ⟨_, ⟨⟨o, i⟩, hoi, rfl⟩, hp⟩ := hp
  obtain ⟨cw, -, rfl⟩ := List.mem_map.1 hp
  have hi := (List.mem_zipIdx hoi).2.1
  have hpos : 0 < objs.length := by omega
  refine ⟨by simp, ?_⟩
  simp only [ne_eq, List.map_eq_nil_iff, List.range_eq_nil]
  omega

/-- A stream of an instance into an empty engine between rows that succeeds leaves the streamed
rows, labels marked, under a largest variable that covers every literal, with no removed
weight. -/
theorem streamInstance_ok (hards : List (List Lit)) (objs : List (List (List Lit × Nat)))
    {e₀ e : Engine} (hb : Between e₀) (hrows : e₀.rows = []) (hm : e₀.maxVar = .int 0)
    (hn : e₀.nObj = .int objs.length) (h : (streamInstance hards objs).run e₀ = (.ok (), e)) :
    ∃ (M : Int) (info : List String), 0 ≤ M ∧ (∀ c ∈ hards, ∀ l ∈ c, (l.var : Int) ≤ M) ∧
      (∀ p ∈ Weights.weightRows objs, ∀ l ∈ p.1, (l.var : Int) ≤ M) ∧
      (objs.length : Int) ≤ Datum.repeatLimit ∧
      e = { e₀ with
        maxVar := .int M, rows := (markLabels (.int objs.length) [] (streamedRows hards objs)).1,
        removed := List.replicate objs.length (.int 0), finalized := true, info := info } := by
  obtain ⟨M₁, hle₁, hc₁, -, h₁⟩ := streamClauses_run hards hb hm
  obtain ⟨M, hle, hc, -, h₂⟩ := @streamRows_run
    { e₀ with rows := e₀.rows ++ hards.map (fun c => streamedRow c none), maxVar := .int M₁ }
    (Weights.weightRows objs) ⟨hb.notFinalized, hb.sharing, hb.lits, hb.weights⟩ _ rfl _ hn
    (fun p hp => weightRows_width hp)
  rw [streamInstance, EngineM.run_bind_ok h₁, EngineM.run_bind_ok h₂] at h
  obtain ⟨hbound, info, rfl⟩ := initFinalize_ok h hb.notFinalized hn
  refine ⟨M, info, le_trans hle₁ hle, fun c hc' l hl => le_trans (hc₁ c hc' l hl) hle, hc, hbound, ?_⟩
  simp [streamedRows, hrows]

/-- **Opening a session.** A session that opens on hard clauses and objectives holds an engine
that has streamed them: the rows are the streamed rows, labels marked, under the top weight of
the objectives and a largest variable that covers every literal, with no removed weight, no
fixed literal, an empty trace and nothing pushed; the session is open and not locked. -/
theorem openWith_engine {backend : Backend} {config : SessionConfig} {hards : List (List Lit)}
    {objs : List (List (List Lit × Nat))} {inprocessing : Bool} {offsets : Option Datum}
    {s : Session} (h : Session.openWith backend config hards objs inprocessing offsets = .ok s) :
    ∃ (top : Nat) (M : Int) (info : List String), Weights.topWeight objs = .ok top ∧ 0 ≤ M ∧
      (∀ c ∈ hards, ∀ l ∈ c, (l.var : Int) ≤ M) ∧
      (∀ p ∈ Weights.weightRows objs, ∀ l ∈ p.1, (l.var : Int) ≤ M) ∧
      (objs.length : Int) ≤ Datum.repeatLimit ∧
      s.engine = { start (.int top) inprocessing (.int objs.length) with
        maxVar := .int M, rows := (markLabels (.int objs.length) [] (streamedRows hards objs)).1,
        removed := List.replicate objs.length (.int 0), finalized := true, info := info } ∧
      s.nObj = objs.length ∧ s.inprocessing = inprocessing ∧ s.closed = false ∧ s.locked = false := by
  have hopen : ∃ top e os, Weights.topWeight objs = .ok top ∧
      (streamInstance hards objs).run (start (.int top) inprocessing (.int objs.length)) = (.ok (), e) ∧
      s = { backend := backend, config := config, inprocessing := inprocessing, nObj := objs.length,
            offsets := os, engine := e } := by
    unfold Session.openWith at h
    rcases htop : Weights.topWeight objs with f | top
    · simp [htop, bind, Except.bind] at h
    simp only [htop, bind, Except.bind] at h
    rcases offsets with _ | os
    case none =>
      simp only [pure, Except.pure] at h
      split at h
      · simp [throw, throwThe, MonadExceptOf.throw] at h
      · rename_i e hbuild
        cases h
        exact ⟨top, e, _, rfl, hbuild, rfl⟩
    case some =>
      dsimp only at h
      rcases hel : os.elements? with _ | items
      · simp [hel, refuse] at h
      · simp only [hel, pure, Except.pure] at h
        split_ifs at h with hlen
        · split at h
          · simp [throw, throwThe, MonadExceptOf.throw] at h
          · rename_i e hbuild
            cases h
            exact ⟨top, e, _, rfl, hbuild, rfl⟩
        · simp [refuse] at h
  obtain ⟨top, e, os, htop, hrun, rfl⟩ := hopen
  obtain ⟨M, info, hM, hc, hp, hbound, rfl⟩ :=
    streamInstance_ok hards objs ⟨rfl, rfl, rfl, rfl⟩ rfl rfl rfl hrun
  exact ⟨top, M, info, htop, hM, hc, hp, hbound, rfl, rfl, rfl, rfl, rfl⟩

end Engine

end MaxSatPrep
