import MaxSatPrep.Proofs.ObjectiveCost
import MaxSatPrep.Proofs.Freezing
import MaxSatPrep.Session.Build
/-!
Objective values through the instance adapters. An objective weighs the literals of it that
hold, the clauses of it of which no literal holds, and an offset. Decomposing an instance turns
each weighted literal `l` into the soft clause `¬l`, which is false exactly when `l` holds, and
sums the weights of equal clauses; the session opened on the decomposition is the one
`Session.openWith` opens on its clauses and weights. Read back after preprocessing, each
objective holds only weighted clauses, and its offset grows by the objective's removed weight.
So a total assignment of the simplified constraints is worth, objective by objective, what its
reconstruction is worth in the instance given, and the reconstruction satisfies every hard
clause of the decomposition.

Main statements: `Objective.value_eq_softClauses` (an objective's value is what its soft
clauses leave false, plus its offset) and `objective_values_survive_adapters`.
-/

namespace MaxSatPrep

open Session (intOf)

/-! ## Lists related member by member -/

section Forall₂

variable {α β : Type} {R : α → β → Prop} {xs : List α} {ys : List β}

theorem exists_mem_of_forall₂_left (h : List.Forall₂ R xs ys) {x : α} (hx : x ∈ xs) : ∃ y ∈ ys, R x y := by
  induction h with
  | nil => cases hx
  | cons hr _ ih =>
    rcases List.mem_cons.1 hx with rfl | hx
    · exact ⟨_, List.mem_cons_self, hr⟩
    · obtain ⟨y, hy, hxy⟩ := ih hx
      exact ⟨y, List.mem_cons_of_mem _ hy, hxy⟩

theorem exists_mem_of_forall₂_right (h : List.Forall₂ R xs ys) {y : β} (hy : y ∈ ys) : ∃ x ∈ xs, R x y := by
  induction h with
  | nil => cases hy
  | cons hr _ ih =>
    rcases List.mem_cons.1 hy with rfl | hy
    · exact ⟨_, List.mem_cons_self, hr⟩
    · obtain ⟨x, hx, hxy⟩ := ih hy
      exact ⟨x, List.mem_cons_of_mem _ hx, hxy⟩

end Forall₂

/-! ## The value of an objective -/

/-- The value of an objective when the literals `holds` tells hold: the weights of its literals
that hold, the weights of its clauses of which no literal holds, and its offset. -/
def Objective.value (o : Objective) (holds : Int → Bool) : Int :=
  ((o.lits.filter (fun p => holds p.1)).map (fun p => (p.2 : Int))).sum +
    ((o.clauses.filter (fun c => !c.lits.any holds)).map (fun c => (c.weight : Int))).sum + o.offset

/-- The weighted literals of the objective are DIMACS literals, none of them zero, as instances
hold them. -/
def Objective.NonzeroLits (o : Objective) : Prop := ∀ p ∈ o.lits, p.1 ≠ 0

instance (o : Objective) : Decidable o.NonzeroLits :=
  inferInstanceAs (Decidable (∀ p ∈ o.lits, p.1 ≠ 0))

section Falsified

variable (holds : Lit → Bool)

@[simp] theorem falsifiedWeight_nil : falsifiedWeight holds [] = 0 := rfl

@[simp] theorem falsifiedWeight_cons (p : List Lit × Int) (ps : List (List Lit × Int)) :
    falsifiedWeight holds (p :: ps) = (if p.1.any holds then 0 else p.2) + falsifiedWeight holds ps := by
  cases h : p.1.any holds <;> simp [falsifiedWeight, h]

@[simp] theorem falsifiedWeight_append (ps qs : List (List Lit × Int)) :
    falsifiedWeight holds (ps ++ qs) = falsifiedWeight holds ps + falsifiedWeight holds qs := by
  simp [falsifiedWeight, List.filter_append]

/-- Adding `w` to the weight of the one entry of clause `c` changes what is left false by `w`
when `c` is false. -/
theorem falsifiedWeight_bump {ps : List (List Lit × Int)} (hnd : (ps.map Prod.fst).Nodup)
    {c : List Lit} (hc : c ∈ ps.map Prod.fst) (w : Int) :
    falsifiedWeight holds (ps.map fun p => if p.1 == c then (c, p.2 + w) else p) =
      falsifiedWeight holds ps + if c.any holds then 0 else w := by
  induction ps with
  | nil => cases hc
  | cons p ps ih =>
    obtain ⟨hp, hnd⟩ := List.nodup_cons.1 hnd
    by_cases hpc : p.1 = c
    · have hrest : (ps.map fun p => if p.1 == c then (c, p.2 + w) else p) = ps := by
        refine (List.map_congr_left fun q hq => ?_).trans (List.map_id' ps)
        have hq' : q.1 ≠ c := fun h => hp (hpc ▸ h ▸ List.mem_map_of_mem hq)
        simp [hq']
      simp only [List.map_cons, hpc, beq_self_eq_true, if_true, hrest, falsifiedWeight_cons]
      split_ifs <;> ring
    · have hc' : c ∈ ps.map Prod.fst := (List.mem_cons.1 hc).resolve_left fun h => hpc h.symm
      have ih' := ih hnd hc'
      simp only [List.map_cons, beq_iff_eq, hpc, if_false, falsifiedWeight_cons] at ih' ⊢
      rw [ih']
      ring

end Falsified

namespace SoftMap

/-- the clauses of a soft map, each once -/
def KeysNodup (m : SoftMap) : Prop := m.clauses.Nodup

theorem clauses_add (m : SoftMap) (c : List Lit) (w : Int) :
    (m.add c w).clauses = if c ∈ m.clauses then m.clauses else m.clauses ++ [c] := by
  have hmem : m.entries.any (fun p => p.1 == c) = true ↔ c ∈ m.clauses := by
    simp [clauses, List.any_eq_true]
  unfold add
  by_cases hc : c ∈ m.clauses
  · rw [if_pos (hmem.2 hc), if_pos hc]
    unfold clauses
    rw [List.map_map]
    refine List.map_congr_left fun p _ => ?_
    by_cases hp : p.1 = c <;> simp [hp]
  · rw [if_neg (mt hmem.1 hc), if_neg hc]
    simp [clauses]

theorem mem_clauses_add {m : SoftMap} {c c' : List Lit} {w : Int} :
    c' ∈ (m.add c w).clauses ↔ c' ∈ m.clauses ∨ c' = c := by
  rw [clauses_add]
  split_ifs with hc
  · exact ⟨.inl, fun h => h.elim id (· ▸ hc)⟩
  · simp

theorem keysNodup_add {m : SoftMap} (h : m.KeysNodup) (c : List Lit) (w : Int) : (m.add c w).KeysNodup := by
  unfold KeysNodup
  rw [clauses_add]
  split_ifs with hc
  · exact h
  · refine List.nodup_append.2 ⟨h, List.nodup_singleton c, fun a ha b hb hab => ?_⟩
    rw [List.mem_singleton] at hb
    rw [hab, hb] at ha
    exact hc ha

theorem mem_clauses_foldl_add {α : Type} (key : α → List Lit) (wt : α → Int) {xs : List α} {m : SoftMap}
    {c : List Lit} (h : c ∈ m.clauses ∨ ∃ x ∈ xs, key x = c) :
    c ∈ (xs.foldl (fun m x => m.add (key x) (wt x)) m).clauses := by
  induction xs generalizing m with
  | nil => simpa using h
  | cons x xs ih =>
    rw [List.foldl_cons]
    refine ih ?_
    rcases h with h | ⟨y, hy, rfl⟩
    · exact .inl (mem_clauses_add.2 (.inl h))
    · rcases List.mem_cons.1 hy with rfl | hy
      · exact .inl (mem_clauses_add.2 (.inr rfl))
      · exact .inr ⟨y, hy, rfl⟩

theorem falsifiedWeight_add {m : SoftMap} (h : m.KeysNodup) (holds : Lit → Bool) (c : List Lit) (w : Int) :
    falsifiedWeight holds (m.add c w).entries = falsifiedWeight holds m.entries + if c.any holds then 0 else w := by
  unfold add
  by_cases hc : m.entries.any (fun p => p.1 == c)
  · rw [if_pos hc]
    obtain ⟨p, hp, hpc⟩ := List.any_eq_true.1 hc
    exact falsifiedWeight_bump holds h (List.mem_map.2 ⟨p, hp, by simpa using hpc⟩) w
  · rw [if_neg hc, falsifiedWeight_append]
    cases hany : c.any holds <;> simp [falsifiedWeight, hany]

/-- Adding weighted clauses one after another keeps the clauses distinct, and what is left false
grows by the weights of the clauses added in which no literal holds. -/
theorem falsifiedWeight_foldl_add {α : Type} (key : α → List Lit) (wt : α → Int) (holds : Lit → Bool)
    (xs : List α) {m : SoftMap} (h : m.KeysNodup) :
    (xs.foldl (fun m x => m.add (key x) (wt x)) m).KeysNodup ∧
      falsifiedWeight holds (xs.foldl (fun m x => m.add (key x) (wt x)) m).entries =
        falsifiedWeight holds m.entries + ((xs.filter fun x => !(key x).any holds).map wt).sum := by
  induction xs generalizing m with
  | nil => exact ⟨h, by simp⟩
  | cons x xs ih =>
    obtain ⟨hnd, hw⟩ := ih (keysNodup_add h (key x) (wt x))
    refine ⟨hnd, ?_⟩
    rw [List.foldl_cons, hw, falsifiedWeight_add h]
    cases hx : (key x).any holds
    · simp [hx]
      ring
    · simp [hx]

end SoftMap

@[simp] theorem canonicalClause_any (ls : List Lit) (f : Lit → Bool) :
    (canonicalClause ls).any f = ls.any f := by
  rw [Bool.eq_iff_iff, List.any_eq_true, List.any_eq_true]
  simp only [canonicalClause, List.mem_mergeSort]

theorem filterMap_ofInt?_any {holds : Int → Bool} (h0 : holds 0 = false) (zs : List Int) :
    (zs.filterMap Lit.ofInt?).any (fun l => holds l.toInt) = zs.any holds := by
  induction zs with
  | nil => rfl
  | cons z zs ih =>
    cases hz : Lit.ofInt? z with
    | none =>
      rw [List.filterMap_cons_none hz, ih, List.any_cons, (Lit.ofInt?_eq_none_iff z).1 hz, h0,
        Bool.false_or]
    | some l => rw [List.filterMap_cons_some hz, List.any_cons, List.any_cons, ih, Lit.toInt_of_ofInt? hz]

namespace Objective

/-- **An objective's value is what its soft clauses leave false, plus its offset**, for a test of
the literals that fails on zero and passes exactly one of each weighted literal and its
negation: the clause `¬l` of a weighted literal `l` is false exactly when `l` holds. -/
theorem value_eq_softClauses (o : Objective) {holds : Int → Bool} (h0 : holds 0 = false)
    (hlits : ∀ p ∈ o.lits, p.1 ≠ 0 ∧ holds (-p.1) = !holds p.1) :
    o.value holds = falsifiedWeight (fun l => holds l.toInt) o.softClauses.entries + o.offset := by
  obtain ⟨hnd, hlitW⟩ := SoftMap.falsifiedWeight_foldl_add
    (fun p : Int × Nat => canonicalClause (Lit.ofInt? (-p.1)).toList) (fun p => (p.2 : Int))
    (fun l => holds l.toInt) o.lits (m := SoftMap.empty) List.nodup_nil
  obtain ⟨-, hclW⟩ := SoftMap.falsifiedWeight_foldl_add
    (fun c : WeightedClause => canonicalClause (c.lits.filterMap Lit.ofInt?)) (fun c => (c.weight : Int))
    (fun l => holds l.toInt) o.clauses hnd
  have hlit : ∀ p ∈ o.lits,
      (!(canonicalClause (Lit.ofInt? (-p.1)).toList).any fun l => holds l.toInt) = holds p.1 := by
    intro p hp
    obtain ⟨hne, hneg⟩ := hlits p hp
    obtain ⟨l, hl⟩ := Lit.exists_ofInt? (neg_ne_zero.2 hne)
    simp [hl, Lit.toInt_of_ofInt? hl, hneg]
  have hcl : ∀ c ∈ o.clauses,
      (!(canonicalClause (c.lits.filterMap Lit.ofInt?)).any fun l => holds l.toInt) = !c.lits.any holds := by
    intro c _
    rw [canonicalClause_any, filterMap_ofInt?_any h0]
  dsimp only [softClauses]
  rw [hclW, hlitW, value, List.filter_congr hlit, List.filter_congr hcl]
  simp [SoftMap.empty]

theorem value_ofSoftClauses {m : SoftMap} (hm : ∀ p ∈ m.entries, 0 ≤ p.2) (offset : Int)
    (holds : Int → Bool) :
    (ofSoftClauses m offset).value holds = falsifiedWeight (fun l => holds l.toInt) m.entries + offset := by
  have hfilter : ∀ p ∈ m.entries, (!(p.1.map Lit.toInt).any holds) = !p.1.any fun l => holds l.toInt := by
    intro p _
    rw [List.any_map, Function.comp_def]
  simp only [value, ofSoftClauses, List.filter_nil, List.map_nil, List.sum_nil, zero_add, falsifiedWeight,
    List.filter_map, List.map_map, Function.comp_def]
  rw [List.filter_congr hfilter]
  congr 2
  refine List.map_congr_left fun p hp => ?_
  exact Int.toNat_of_nonneg (hm p (List.mem_of_mem_filter hp))

theorem mem_softClauses_lit (o : Objective) {p : Int × Nat} (hp : p ∈ o.lits) :
    canonicalClause (Lit.ofInt? (-p.1)).toList ∈ o.softClauses.clauses := by
  dsimp only [softClauses]
  exact SoftMap.mem_clauses_foldl_add _ _ (.inl (SoftMap.mem_clauses_foldl_add _ _ (.inr ⟨p, hp, rfl⟩)))

end Objective

/-! ## Weights read back -/

section ReadBack

variable {m : List (List Lit × Datum)}

/-- Adding a weight at least zero to a soft map of weights at least zero keeps them so. -/
theorem addInt_nonneg (hm : ∀ q ∈ m, 0 ≤ intOf q.2) (c : List Lit) {w : Int} (hw : 0 ≤ w) :
    ∀ q ∈ addInt m c w, 0 ≤ intOf q.2 := by
  have hold : 0 ≤ lookupInt m c := by
    unfold lookupInt
    cases hf : m.find? (fun p => p.1 == c) with
    | none => exact le_refl 0
    | some q => exact hm q (List.mem_of_find?_eq_some hf)
  have hnew : 0 ≤ intOf (Datum.int (lookupInt m c + w)) := by
    rw [Session.intOf_int]
    omega
  intro q hq
  unfold addInt putValue at hq
  split at hq
  · obtain ⟨q', hq', rfl⟩ := List.mem_map.1 hq
    split
    · exact hnew
    · exact hm q' hq'
  · rcases List.mem_append.1 hq with hq | hq
    · exact hm q hq
    · rw [List.mem_singleton.1 hq]
      exact hnew

theorem foldl_addInt_nonneg {j : Nat} {ps : List (List Lit × List Datum)}
    (hps : ∀ p ∈ ps, 0 ≤ reportedAt j p) (hm : ∀ q ∈ m, 0 ≤ intOf q.2) :
    ∀ q ∈ ps.foldl (fun m p => addInt m p.1 (reportedAt j p)) m, 0 ≤ intOf q.2 := by
  induction ps generalizing m with
  | nil => exact hm
  | cons p ps ih =>
    exact ih (fun p' hp' => hps p' (List.mem_cons_of_mem _ hp')) (addInt_nonneg hm p.1 (hps p List.mem_cons_self))

end ReadBack

namespace Engine

variable {e : Engine}

theorem objective_nonneg (ht : Tabled e) (hb : TopBound e) {n : Nat}
    (hn : ∀ r ∈ e.rows, r.weights ≠ none → 0 < n) {inst : Simplified}
    (h : e.extract (.int n) = .ok inst) {j : Nat} (hj : j < n) :
    ∀ p ∈ (inst.objective j).entries, 0 ≤ p.2 := by
  have hcol : softColumn inst.softs j = column j ((e.rows.filter (fun r => r.weights.isSome)).map (e.readRow n)) :=
    (extract_rows ht hb hn h).2 j hj
  intro p hp
  obtain ⟨q, hq, rfl⟩ := List.mem_map.1 hp
  change q ∈ softColumn inst.softs j at hq
  rw [hcol] at hq
  refine foldl_addInt_nonneg (fun p' hp' => ?_) (by simp) q hq
  obtain ⟨r, hr, rfl⟩ := List.mem_map.1 hp'
  rw [reportedAt_readRow_soft hb hr hj]
  exact weightAt_nonneg hb.weights (List.mem_of_mem_filter hr) j

end Engine

/-! ## Opening through the adapters -/

namespace MultiOptInstance

theorem decompose_ok {m : MultiOptInstance} {enc : Encoders} {d : Decomposed} (h : m.decompose enc = .ok d) :
    d.softs = m.objectives.map Objective.softClauses ∧ d.offsets = m.objectives.map Objective.offset := by
  unfold decompose at h
  simp only [bind, Except.bind] at h
  split at h
  · cases h
  · cases h
    exact ⟨rfl, rfl⟩

end MultiOptInstance

namespace Session

variable {registry : Registry} {backendName : Option String} {inprocessing : Bool} {s : Session}

/-- Opening from loose data answers when the backend is found, every hard clause and every
objective is read, and the session opens on what was read. -/
theorem create_ok {hards : Datum} {objectives : List Weights.SoftClauses} {offsets : Option Datum}
    (h : create registry backendName hards objectives inprocessing offsets = .ok s) :
    ∃ backend xs hs objs, hards.iterate = .ok xs ∧ xs.mapM clauseOf = .ok hs ∧
      objectives.mapM Weights.softPairs = .ok objs ∧
      openWith backend registry.config hs objs inprocessing offsets = .ok s := by
  unfold create at h
  rcases hb : registry.get backendName with f | backend
  · simp [hb, bind, Except.bind] at h
  rcases hx : hards.iterate with f | xs
  · simp [hb, hx, bind, Except.bind] at h
  rcases hh : xs.mapM clauseOf with f | hs
  · simp [hb, hx, hh, bind, Except.bind] at h
  rcases ho : objectives.mapM Weights.softPairs with f | objs
  · simp [hb, hx, hh, ho, bind, Except.bind] at h
  simp only [hb, hx, hh, ho, bind, Except.bind] at h
  exact ⟨backend, xs, hs, objs, rfl, hh, rfl, h⟩

theorem ofMultiOpt_ok {m : MultiOptInstance} {enc : Encoders}
    (h : ofMultiOpt registry backendName m enc inprocessing = .ok s) :
    ∃ d, m.decompose enc = .ok d ∧
      create registry backendName (.list (d.hards.map .list)) (d.softs.map fun sm => .mapping (softDatums sm))
        inprocessing (some (.list (d.offsets.map .int))) = .ok s := by
  unfold ofMultiOpt at h
  rcases hd : m.decompose enc with f | d
  · simp [hd, bind, Except.bind] at h
  simp only [hd, bind, Except.bind, ofDecomposed, if_true] at h
  exact ⟨d, rfl, h⟩

theorem ofOpt_eq (o : OptInstance) (enc : Encoders) :
    ofOpt registry backendName o enc inprocessing =
      ofMultiOpt registry backendName { constraints := o.constraints, objectives := [o.objective] } enc
        inprocessing := rfl

theorem openWith_nil_offsets (backend : Backend) (config : SessionConfig) (hards : List (List Lit)) :
    openWith backend config hards [] inprocessing none = openWith backend config hards [] inprocessing (some (.list [])) :=
  rfl

theorem ofSat_eq (i : SatInstance) (enc : Encoders) :
    ofSat registry backendName i enc inprocessing =
      ofMultiOpt registry backendName { constraints := i } enc inprocessing := by
  unfold ofSat ofMultiOpt
  rcases hd : MultiOptInstance.decompose { constraints := i } enc with f | d
  · rfl
  obtain ⟨hsofts, hoffsets⟩ := MultiOptInstance.decompose_ok hd
  simp only [List.map_nil] at hsofts hoffsets
  simp only [bind, Except.bind, ofDecomposed, hsofts, hoffsets, List.map_nil, create, List.mapM_nil, pure,
    Except.pure, Bool.false_eq_true, if_false, if_true, openWith_nil_offsets]

/-- A session opened with its offsets given as a list holds that list. -/
theorem openWith_offsets {backend : Backend} {config : SessionConfig} {hards : List (List Lit)}
    {objs : List (List (List Lit × Nat))} {os : List Datum}
    (h : openWith backend config hards objs inprocessing (some (.list os)) = .ok s) : s.offsets = os := by
  unfold openWith at h
  rcases htop : Weights.topWeight objs with f | top
  · simp [htop, bind, Except.bind] at h
  simp only [htop, bind, Except.bind] at h
  dsimp only [Datum.elements?] at h
  split_ifs at h with hlen
  · simp only [pure, Except.pure] at h
    split at h
    · simp [throw, throwThe, MonadExceptOf.throw] at h
    · cases h
      rfl
  · simp [refuse] at h

theorem Reachable.offsets_performAll (h : s.Reachable) (calls : List Call) :
    (s.performAll calls).offsets = s.offsets := by
  induction calls generalizing s with
  | nil => rfl
  | cons c calls ih =>
    obtain ⟨e', heq, -⟩ := h.ready.perform_change c
    rw [performAll_cons, ih (h.perform c), heq]
    rfl

theorem clauseOf_clauseDatum (c : List Lit) : clauseOf (clauseDatum (c.map Lit.toInt)) = .ok (canonicalClause c) := by
  have hls : ∀ c : List Lit, ((c.map Lit.toInt).map Datum.int).mapM Lit.ofDatum = .ok c := by
    intro c
    induction c with
    | nil => rfl
    | cons l c ih =>
      simp only [List.map_cons, List.mapM_cons, Lit.ofDatum_int, ih, bind, Except.bind, pure, Except.pure]
  simp only [clauseOf, clauseDatum, Datum.iterate, Datum.elements?, hls, bind, Except.bind, pure, Except.pure]

theorem mem_of_clauseOf {xs : List Datum} {c : List Lit} (h : clauseOf (.list xs) = .ok c) :
    ∀ l ∈ c, Datum.int l.toInt ∈ xs := by
  unfold clauseOf at h
  rcases hls : xs.mapM Lit.ofDatum with f | ls
  · simp [Datum.iterate, Datum.elements?, hls, bind, Except.bind] at h
  simp only [Datum.iterate, Datum.elements?, hls, bind, Except.bind, pure, Except.pure, Except.ok.injEq] at h
  subst h
  intro l hl
  rw [canonicalClause, List.mem_mergeSort] at hl
  obtain ⟨x, hx, hxl⟩ := exists_mem_of_forall₂_right (Outcome.mapM_forall₂ hls) hl
  rwa [Lit.ofDatum_eq_ok.1 hxl] at hx

/-- How an entry of a soft map is read from its data: the clause in canonical order, and the
weight, at least zero, as a natural number. -/
def EntryRead (e : List Lit × Int) (p : List Lit × Nat) : Prop :=
  p = (canonicalClause e.1, e.2.toNat) ∧ 0 ≤ e.2

theorem softPair_softDatum {c : List Lit} {w : Int} {p : List Lit × Nat}
    (h : Weights.softPair (clauseDatum (c.map Lit.toInt)) (.int w) = .ok p) : EntryRead (c, w) p := by
  unfold Weights.softPair Weights.softWeight at h
  by_cases hw : 0 ≤ w
  · simp only [hw, if_true, clauseOf_clauseDatum, bind, Except.bind, pure, Except.pure, Except.ok.injEq] at h
    exact ⟨h.symm, hw⟩
  · simp [hw, refuse, bind, Except.bind] at h

theorem softPairs_softDatums {sm : SoftMap} {ps : List (List Lit × Nat)}
    (h : Weights.softPairs (.mapping (softDatums sm)) = .ok ps) : List.Forall₂ EntryRead sm.entries ps := by
  have hmap : (softDatums sm).mapM (fun p => Weights.softPair p.1 p.2) = .ok ps := h
  have h₂ := Outcome.mapM_forall₂ hmap
  rw [softDatums, List.forall₂_map_left_iff] at h₂
  exact h₂.imp fun e p hp => softPair_softDatum hp

theorem falsifiedWeight_entryRead {es : List (List Lit × Int)} {ps : List (List Lit × Nat)}
    (h : List.Forall₂ EntryRead es ps) (holds : Lit → Bool) :
    falsifiedWeight holds (ps.map fun p => (p.1, (p.2 : Int))) = falsifiedWeight holds es := by
  induction h with
  | nil => rfl
  | cons hp _ ih =>
    obtain ⟨rfl, hw⟩ := hp
    rw [List.map_cons, falsifiedWeight_cons, falsifiedWeight_cons, ih, canonicalClause_any,
      Int.toNat_of_nonneg hw]

/-- **The multi-objective instance read back.** With no more rows than 64-bit positions and
integer offsets, a reachable session reads back the hard clauses of its instance and, for each
objective, the objective of its soft clauses, with the offset grown by the removed weight. -/
theorem Reachable.preproMultiOptInstance_eq (h : s.Reachable)
    (hrows : (s.engine.rows.length : Int) ≤ Datum.wordBound) {os : List Int} (hos : s.offsets = os.map .int) :
    ∃ inst, s.preproInstance = .ok inst ∧ s.preproMultiOptInstance = .ok
      { constraints := SatInstance.ofClauses inst.hards,
        objectives := (List.range s.nObj).map fun i =>
          Objective.ofSoftClauses (inst.objective i) (os.getD i 0 + (s.engine.removed.map intOf).getD i 0) } := by
  have hr := h.ready
  obtain ⟨inst, hext, -, hrem⟩ := Engine.extract_succeeds hr.shape h.topBound hrows
  have hinst : s.preproInstance = .ok inst := by
    simp [preproInstance, hr.shared, hext, bind, Except.bind]
  have hoff : ∀ i, (s.offsets[i]?).getD (.int 0) = Datum.int (os.getD i 0) := by
    intro i
    rw [hos, List.getElem?_map, List.getD_eq_getElem?_getD]
    cases os[i]? <;> rfl
  have hremoved : ∀ i < s.nObj,
      (inst.removedWeight[i]?).getD (.int 0) = Datum.int ((s.engine.removed.map intOf).getD i 0) := by
    intro i hi
    have hlt : i < s.engine.removed.length := by rw [hr.shape.removed.1]; exact hi
    obtain ⟨w, -, hw⟩ := hr.shape.removed.2 _ (List.getElem_mem hlt)
    rw [hrem, List.getElem?_eq_getElem hlt, Option.getD_some, List.getD_eq_getElem?_getD, List.getElem?_map,
      List.getElem?_eq_getElem hlt, hw]
    rfl
  refine ⟨inst, hinst, ?_⟩
  unfold preproMultiOptInstance
  rw [hinst]
  simp only [bind, Except.bind]
  rw [Outcome.mapM_ok (g := fun i => Objective.ofSoftClauses (inst.objective i)
    (os.getD i 0 + (s.engine.removed.map intOf).getD i 0)) fun i hi => ?_]
  · rfl
  · simp only [hoff, hremoved i (List.mem_range.1 hi), Datum.plus_int, Schema.int, pure, Except.pure]

theorem preproSatInstance_eq (h0 : s.nObj = 0) {m' : MultiOptInstance} (h : s.preproMultiOptInstance = .ok m') :
    s.preproSatInstance = .ok m'.constraints := by
  unfold preproMultiOptInstance at h
  rcases hinst : s.preproInstance with f | inst
  · simp [hinst, bind, Except.bind] at h
  simp only [hinst, h0, List.range_zero, List.mapM_nil, bind, Except.bind, pure, Except.pure,
    Except.ok.injEq] at h
  subst h
  simp [preproSatInstance, h0, hinst, bind, Except.bind, pure, Except.pure]

theorem preproOptInstance_eq (h1 : s.nObj = 1) {m' : MultiOptInstance} (h : s.preproMultiOptInstance = .ok m') :
    s.preproOptInstance = .ok { constraints := m'.constraints, objective := (m'.objectives.head?).getD {} } := by
  simp [preproOptInstance, h1, h, bind, Except.bind, pure, Except.pure]

/-- Opening through the multi-objective adapter: the instance is decomposed; each hard clause of
the decomposition is read as a clause, and the soft clauses of each objective as pairs; the
session opens on what was read, with the objectives' offsets. -/
theorem ofMultiOpt_opens {m : MultiOptInstance} {enc : Encoders}
    (h : ofMultiOpt registry backendName m enc inprocessing = .ok s) :
    ∃ d backend hs objs, m.decompose enc = .ok d ∧
      List.Forall₂ (fun c c' => clauseOf (.list c) = .ok c') d.hards hs ∧
      List.Forall₂ (fun o ps => Weights.softPairs (.mapping (softDatums o.softClauses)) = .ok ps)
        m.objectives objs ∧
      openWith backend registry.config hs objs inprocessing
        (some (.list (m.objectives.map fun o => .int o.offset))) = .ok s := by
  obtain ⟨d, hd, hcreate⟩ := ofMultiOpt_ok h
  obtain ⟨backend, xs, hs, objs, hxs, hhs, hobjs, hwith⟩ := create_ok hcreate
  obtain ⟨hsofts, hoffsets⟩ := MultiOptInstance.decompose_ok hd
  have hxs' : xs = d.hards.map Datum.list := (Except.ok.inj hxs).symm
  subst hxs'
  have hhards := Outcome.mapM_forall₂ hhs
  have hpairs := Outcome.mapM_forall₂ hobjs
  rw [List.forall₂_map_left_iff] at hhards
  rw [hsofts, List.map_map, List.forall₂_map_left_iff] at hpairs
  rw [hoffsets, List.map_map] at hwith
  exact ⟨d, backend, hs, objs, hd, hhards, hpairs, hwith⟩

end Session

/-! ## Objective values through the adapters -/

/-- whether an assignment makes a DIMACS literal true; zero is no literal -/
def Assignment.litTrue (a : Assignment) (z : Int) : Bool :=
  (Lit.ofInt? z).any fun l => a.litValue? l == some true

@[simp] theorem Assignment.litTrue_toInt (a : Assignment) (l : Lit) :
    a.litTrue l.toInt = (a.litValue? l == some true) := by
  simp [Assignment.litTrue, Lit.ofInt?_toInt]

theorem Assignment.satisfies_ofClauses {a : Assignment} {cs : List (List Lit)}
    (h : ∀ c ∈ (SatInstance.ofClauses cs).clauses, ∃ z ∈ c, a.litTrue z = true) :
    ∀ c ∈ cs, ∃ l ∈ c, a.litValue? l = some true := by
  intro c hc
  obtain ⟨z, hz, hzt⟩ := h _ (List.mem_map_of_mem (f := fun c : List Lit => c.map Lit.toInt) hc)
  obtain ⟨l, hl, rfl⟩ := List.mem_map.1 hz
  exact ⟨l, hl, by simpa using hzt⟩

theorem Valuation.zero_not_mem_model (σ : Valuation) (N : Nat) : 0 ∉ σ.model N := by
  intro h
  have h0 := List.mem_map_of_mem (f := Int.natAbs) h
  rw [σ.model_natAbs] at h0
  simp at h0

namespace Objective

theorem lits_natAbs_le {o : Objective} (hnz : o.NonzeroLits) {ps : List (List Lit × Nat)}
    (hps : Weights.softPairs (.mapping (Session.softDatums o.softClauses)) = .ok ps) {N : Nat}
    (hvars : ∀ q ∈ ps, ∀ l ∈ q.1, l.var ≤ N) : ∀ p ∈ o.lits, p.1.natAbs ≤ N := by
  intro p hp
  obtain ⟨l, hl⟩ := Lit.exists_ofInt? (neg_ne_zero.2 (hnz p hp))
  have hkey := o.mem_softClauses_lit hp
  rw [hl] at hkey
  obtain ⟨e, he, hek⟩ := List.mem_map.1 hkey
  obtain ⟨q, hq, hread⟩ := exists_mem_of_forall₂_left (Session.softPairs_softDatums hps) he
  have hlq : l ∈ q.1 := by
    rw [hread.1]
    simp [canonicalClause, hek]
  rw [← Int.natAbs_neg, ← Lit.toInt_of_ofInt? hl, Lit.natAbs_toInt]
  exact hvars q hq l hlq

theorem value_model (o : Objective) (hnz : o.NonzeroLits) (σ : Valuation) {N : Nat}
    (hvars : ∀ p ∈ o.lits, p.1.natAbs ≤ N) :
    o.value (fun z => decide (z ∈ σ.model N)) =
      falsifiedWeight (fun l => decide (l.toInt ∈ σ.model N)) o.softClauses.entries + o.offset := by
  refine o.value_eq_softClauses (decide_eq_false (σ.zero_not_mem_model N)) fun p hp => ⟨hnz p hp, ?_⟩
  have hne := hnz p hp
  have hneg : -p.1 ∈ σ.model N ↔ σ.lit (-p.1) :=
    Valuation.mem_model (neg_ne_zero.2 hne) (by rw [Int.natAbs_neg]; exact hvars p hp)
  have hpos : p.1 ∈ σ.model N ↔ σ.lit p.1 := Valuation.mem_model hne (hvars p hp)
  have hiff : -p.1 ∈ σ.model N ↔ p.1 ∉ σ.model N := by
    rw [hneg, hpos, Valuation.lit_neg hne]
  by_cases hin : p.1 ∈ σ.model N <;> simp [hin, hiff]

/-- **Values carry over.** When the pairs read from an objective's soft clauses leave false at the
model of `σ` what a soft map of weights at least zero leaves false at an assignment, plus a removed
weight, the objective is worth at the model what the objective of the soft map, its offset grown by
the removed weight, is worth at the assignment. -/
theorem value_transfer {o : Objective} (hnz : o.NonzeroLits) {ps : List (List Lit × Nat)}
    (hps : Weights.softPairs (.mapping (Session.softDatums o.softClauses)) = .ok ps) (σ : Valuation) {N : Nat}
    (hvars : ∀ q ∈ ps, ∀ l ∈ q.1, l.var ≤ N) {sm : SoftMap} (hnn : ∀ p ∈ sm.entries, 0 ≤ p.2)
    (a : Assignment) {removed : Int}
    (hcost : falsifiedWeight (fun l => decide (l.toInt ∈ σ.model N)) (ps.map fun p => (p.1, (p.2 : Int))) =
      falsifiedWeight (fun l => a.litValue? l == some true) sm.entries + removed) :
    o.value (fun z => decide (z ∈ σ.model N)) = (ofSoftClauses sm (o.offset + removed)).value a.litTrue := by
  rw [o.value_model hnz σ (lits_natAbs_le hnz hps hvars),
    ← Session.falsifiedWeight_entryRead (Session.softPairs_softDatums hps), hcost, value_ofSoftClauses hnn]
  simp only [Assignment.litTrue_toInt]
  ring

end Objective

/-- What a session `s` keeps of the objectives `objs` it was opened on and of the hard clauses
`hards` of their decomposition, read back as the clauses `clauses` and the objectives `objs'`:
as many objectives, each of weighted clauses only, with the offsets grown by the removed weights;
and for every assignment total on the original variables that satisfies `clauses`,
reconstruction gives a model of `hards` at which every objective is worth what its simplified
objective is worth at the assignment. -/
structure ValueAccount (objs : List Objective) (hards : List (List Datum)) (s : Session)
    (clauses : List (List Int)) (objs' : List Objective) : Prop where
  length : objs'.length = objs.length
  weighted : ∀ o ∈ objs', o.lits = []
  offsets : ∃ removed, s.removedWeight = .ok removed ∧ removed.length = objs.length ∧
    objs'.map Objective.offset = List.zipWith (· + ·) (objs.map Objective.offset) removed
  values : ∃ n, s.maxOrigVar = .ok n ∧ ∀ (tau : List Datum) (a : Assignment),
    Assignment.ofDatums tau = .ok a → a.isTotal n = true →
    (∀ c ∈ clauses, ∃ z ∈ c, a.litTrue z = true) →
    ∃ (model : List Int) (s' : Session), s.reconstruct tau = .ok (model, s') ∧
      (∀ c ∈ hards, ∃ z, Datum.int z ∈ c ∧ z ∈ model) ∧
      objs.map (fun o => o.value fun z => decide (z ∈ model)) = objs'.map (fun o => o.value a.litTrue)

/-- **Objective values through the multi-objective adapter.** Open a session on a multi-objective
instance whose weighted literals are not zero, then set options and preprocess any number of
times. With no more rows than 64-bit positions, the instance read back keeps the value of every
objective. -/
theorem ofMultiOpt_valueAccount {registry : Registry} {backendName : Option String}
    {m : MultiOptInstance} {enc : Encoders} {inprocessing : Bool} {s₀ : Session}
    (hnz : ∀ o ∈ m.objectives, o.NonzeroLits)
    (hopen : Session.ofMultiOpt registry backendName m enc inprocessing = .ok s₀)
    {calls : List Session.Call} (hcalls : ∀ c ∈ calls, c.isPreprocessing = true)
    (hrows : ((s₀.performAll calls).engine.rows.length : Int) ≤ Datum.wordBound) :
    (s₀.performAll calls).nObj = m.objectives.length ∧
      ∃ d m', m.decompose enc = .ok d ∧ (s₀.performAll calls).preproMultiOptInstance = .ok m' ∧
        ValueAccount m.objectives d.hards (s₀.performAll calls) m'.constraints.clauses m'.objectives := by
  obtain ⟨d, backend, hs, objs, hd, hhards, hpairs, hwith⟩ := Session.ofMultiOpt_opens hopen
  have hlen : objs.length = m.objectives.length := hpairs.length_eq.symm
  have hreach := (Session.Reachable.opened hwith).performAll calls
  have hrec := (openWith_reconstructible hwith).performAll hcalls
  have hready := hreach.ready
  set s := s₀.performAll calls
  set N := (intOf s.engine.maxVar).natAbs
  have hnObj : s.nObj = m.objectives.length := by
    obtain ⟨-, -, -, -, -, -, -, -, -, hn, -, -, -⟩ := Engine.openWith_engine hwith
    rw [((Session.Reachable.opened hwith).grows_performAll calls).2, hn, hlen]
  have hoffs : s.offsets = (m.objectives.map Objective.offset).map Datum.int := by
    rw [(Session.Reachable.opened hwith).offsets_performAll, Session.openWith_offsets hwith, List.map_map]
    rfl
  obtain ⟨inst, hinst, hm'⟩ := hreach.preproMultiOptInstance_eq hrows hoffs
  have hext : s.engine.extract (.int s.nObj) = .ok inst := by
    simpa [Session.preproInstance, hready.shared, bind, Except.bind] using hinst
  obtain ⟨n, removed, acc⟩ := openWith_costAccount hwith hcalls hinst
  have hremoved : s.engine.removed.map intOf = removed :=
    Except.ok.inj (hreach.removedWeight_eq.symm.trans acc.removedWeight)
  have hrl : removed.length = m.objectives.length := acc.length.trans hlen
  rw [hnObj, hremoved] at hm'
  refine ⟨hnObj, d, _, hd, hm', ⟨by simp, ?_, ⟨removed, acc.removedWeight, hrl, ?_⟩, ?_⟩⟩
  · intro o ho
    obtain ⟨i, -, rfl⟩ := List.mem_map.1 ho
    rfl
  · apply List.ext_getElem (by simp [hrl])
    intro i h1 h2
    have hi : i < m.objectives.length := by simpa using h1
    simp [List.getD_eq_getElem?_getD, hi, hrl ▸ hi, Objective.ofSoftClauses]
  · refine ⟨n, acc.maxOrigVar, fun tau a htau htot hsat => ?_⟩
    have hsat' := Assignment.satisfies_ofClauses hsat
    obtain ⟨model, s', hrecon, hcost⟩ := acc.reconstructed tau a htau htot hsat'
    obtain ⟨σ, s'', hrecon', hH, -⟩ := hrec.reconstruct_sound hinst htau hsat'
    have hmodel : model = σ.model N := by
      have h := hrecon.symm.trans hrecon'
      simp only [Except.ok.injEq, Prod.mk.injEq] at h
      exact h.1
    subst hmodel
    refine ⟨_, s', hrecon, fun c hc => ?_, ?_⟩
    · obtain ⟨c', hc', hcl⟩ := exists_mem_of_forall₂_left hhards hc
      obtain ⟨l, hl, hmem⟩ := hrec.model_satisfies hH c' hc'
      exact ⟨l.toInt, Session.mem_of_clauseOf hcl l hl, hmem⟩
    · apply List.ext_getElem (by simp)
      intro i h1 h2
      have hi : i < m.objectives.length := by simpa using h1
      have hio : i < objs.length := hlen ▸ hi
      have hps : Weights.softPairs (.mapping (Session.softDatums m.objectives[i].softClauses)) = .ok objs[i] := by
        simpa using hpairs.get hi hio
      have hnn := Engine.objective_nonneg hready.shape.tabled hreach.topBound hready.shape.soft_pos hext
        (hnObj ▸ hi)
      have hoffset : (m.objectives.map Objective.offset).getD i 0 = m.objectives[i].offset := by
        simp [List.getD_eq_getElem?_getD, hi]
      simp only [List.getElem_map, List.getElem_range, hoffset]
      exact Objective.value_transfer (hnz _ (List.getElem_mem hi)) hps σ (openWith_objectiveVars hwith calls i hio)
        hnn a (hcost i hio)

/-- **Objective values survive the instance adapters.** Open a session on a multi-objective
instance, an instance with one objective or a satisfiability instance, through any encoders, then
set options and preprocess any number of times. With weighted literals that are not zero and no
more rows than 64-bit positions, the instance read back has as many objectives, each of weighted
clauses only, with its offset grown by its removed weight; and reconstructing an assignment that
is total on the original variables and satisfies its clauses gives a model of every hard clause
of the decomposition, at which each objective is worth what the simplified one is worth at the
assignment. -/
theorem objective_values_survive_adapters (registry : Registry) (backendName : Option String)
    (enc : Encoders) (inprocessing : Bool) {calls : List Session.Call}
    (hcalls : ∀ c ∈ calls, c.isPreprocessing = true) :
    (∀ (m : MultiOptInstance) (s : Session), (∀ o ∈ m.objectives, o.NonzeroLits) →
      Session.ofMultiOpt registry backendName m enc inprocessing = .ok s →
      ((s.performAll calls).engine.rows.length : Int) ≤ Datum.wordBound →
      ∃ d m', m.decompose enc = .ok d ∧ (s.performAll calls).preproMultiOptInstance = .ok m' ∧
        ValueAccount m.objectives d.hards (s.performAll calls) m'.constraints.clauses m'.objectives) ∧
    (∀ (o : OptInstance) (s : Session), o.objective.NonzeroLits →
      Session.ofOpt registry backendName o enc inprocessing = .ok s →
      ((s.performAll calls).engine.rows.length : Int) ≤ Datum.wordBound →
      ∃ d o', MultiOptInstance.decompose { constraints := o.constraints, objectives := [o.objective] } enc =
          .ok d ∧ (s.performAll calls).preproOptInstance = .ok o' ∧
        ValueAccount [o.objective] d.hards (s.performAll calls) o'.constraints.clauses [o'.objective]) ∧
    (∀ (i : SatInstance) (s : Session), Session.ofSat registry backendName i enc inprocessing = .ok s →
      ((s.performAll calls).engine.rows.length : Int) ≤ Datum.wordBound →
      ∃ d i', MultiOptInstance.decompose { constraints := i } enc = .ok d ∧
        (s.performAll calls).preproSatInstance = .ok i' ∧
        ValueAccount [] d.hards (s.performAll calls) i'.clauses []) := by
  refine ⟨fun m s hnz hs hrows => (ofMultiOpt_valueAccount hnz hs hcalls hrows).2, ?_, ?_⟩
  · intro o s hnz hs hrows
    rw [Session.ofOpt_eq] at hs
    obtain ⟨hn, d, m', hd, hm', acc⟩ := ofMultiOpt_valueAccount (by simpa using hnz) hs hcalls hrows
    obtain ⟨o', ho'⟩ : ∃ o', m'.objectives = [o'] := List.length_eq_one_iff.1 acc.length
    rw [ho'] at acc
    exact ⟨d, _, hd, Session.preproOptInstance_eq hn hm', by simpa [ho'] using acc⟩
  · intro i s hs hrows
    rw [Session.ofSat_eq] at hs
    obtain ⟨hn, d, m', hd, hm', acc⟩ := ofMultiOpt_valueAccount (by simp) hs hcalls hrows
    have hnil : m'.objectives = [] := List.length_eq_zero_iff.1 acc.length
    rw [hnil] at acc
    exact ⟨d, _, hd, Session.preproSatInstance_eq hn hm', acc⟩

/-- Unit propagation on the hard unit `x1` under the objective weighing `x1` by 4 and `¬x2` by 1,
with offset 1, fixes `x1` and moves the weight of `x1` into the offset. -/
theorem opt_values_survive_unit_propagation :
    ∃ s, Session.ofOpt ⟨{}, ⟨fun _ => .absent, none⟩⟩ none
        { constraints := { clauses := [[1]] }, objective := { lits := [(1, 4), (-2, 1)], offset := 1 } }
        Encoders.standard false = .ok s ∧
      ((s.performAll [.preprocess (some (.str "u")) none none false]).engine.rows.length : Int) ≤
        Datum.wordBound ∧
      ∃ d o', MultiOptInstance.decompose
          { constraints := { clauses := [[1]] }, objectives := [{ lits := [(1, 4), (-2, 1)], offset := 1 }] }
          Encoders.standard = .ok d ∧
        (s.performAll [.preprocess (some (.str "u")) none none false]).preproOptInstance = .ok o' ∧
        ValueAccount [{ lits := [(1, 4), (-2, 1)], offset := 1 }] d.hards
          (s.performAll [.preprocess (some (.str "u")) none none false]) o'.constraints.clauses
          [o'.objective] := by
  have hrun : ((Session.ofOpt ⟨{}, ⟨fun _ => .absent, none⟩⟩ none
      { constraints := { clauses := [[1]] }, objective := { lits := [(1, 4), (-2, 1)], offset := 1 } }
      Encoders.standard false).toOption.map fun s =>
        decide (((s.performAll [.preprocess (some (.str "u")) none none false]).engine.rows.length : Int) ≤
          Datum.wordBound)) = some true := by
    decide +kernel
  obtain ⟨s, hO, hsmall⟩ := Outcome.exists_of_toOption_map hrun
  have hrows := of_decide_eq_true hsmall
  exact ⟨s, hO, hrows, (objective_values_survive_adapters ⟨{}, ⟨fun _ => .absent, none⟩⟩ none Encoders.standard
    false (by decide)).2.1 _ s (by decide) hO hrows⟩

end MaxSatPrep
