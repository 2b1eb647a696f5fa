import MaxSatPrep.Proofs.SoftReadback
import MaxSatPrep.Instance.Model
/-!
Soft clauses gathered by clause. A soft map adds the weight of a clause it holds to the weight
there and appends a clause it does not hold; so the map of a list of weighted clauses is their
tally (`tally`): each clause once, in the order of its first occurrence, with the sum of its
weights (`SoftMap.ofPairs_entries`).

Main statement, `Objective.soft_clauses_round_trip`: the soft clauses of an objective are the
tally of the unit clauses of the complements of its weighted literals followed by its weighted
clauses, each in canonical order; and the objective made of these soft clauses, whatever its
offset, gives them back unchanged, since their clauses are already in canonical order, their
weights are not negative, and no clause comes twice.
-/

namespace MaxSatPrep

/-- the weights a clause has in a list of weighted clauses, summed -/
def weightIn (ps : List (List Lit × Int)) (c : List Lit) : Int :=
  ((ps.filter (fun p => p.1 == c)).map Prod.snd).sum

/-- Weighted clauses gathered by clause: each clause once, in the order of its first occurrence,
with the sum of its weights. -/
def tally (ps : List (List Lit × Int)) : List (List Lit × Int) :=
  (ps.map Prod.fst).eraseDups.map (fun c => (c, weightIn ps c))

/-! ## Lists without repeats -/

section EraseDups

variable {α : Type} [BEq α] [LawfulBEq α]

theorem nodup_eraseDups : ∀ l : List α, l.eraseDups.Nodup
  | [] => List.nodup_nil
  | a :: as => by
    have : (as.filter fun b => !b == a).length < as.length + 1 :=
      Nat.lt_succ_of_le (List.length_filter_le _ as)
    rw [List.eraseDups_cons]
    refine List.nodup_cons.2 ⟨?_, nodup_eraseDups _⟩
    simp [List.mem_eraseDups]
termination_by l => l.length

theorem eraseDups_of_nodup : ∀ {l : List α}, l.Nodup → l.eraseDups = l
  | [], _ => rfl
  | a :: as, h => by
    obtain ⟨ha, has⟩ := List.nodup_cons.1 h
    have hkeep : (as.filter fun b => !b == a) = as :=
      List.filter_eq_self.2 (fun b hb => by
        have hne : b ≠ a := fun h => ha (h ▸ hb)
        simpa using hne)
    rw [List.eraseDups_cons, hkeep, eraseDups_of_nodup has]

end EraseDups

/-! ## The tally of one more weighted clause -/

section Tally

variable {ps : List (List Lit × Int)} {c : List Lit} {w : Int}

theorem weightIn_concat (k : List Lit) :
    weightIn (ps ++ [(c, w)]) k = weightIn ps k + if c = k then w else 0 := by
  by_cases h : c = k <;> simp [weightIn, List.filter_append, h]

theorem weightIn_of_not_mem (h : c ∉ ps.map Prod.fst) : weightIn ps c = 0 := by
  have hnil : ps.filter (fun p => p.1 == c) = [] := by
    refine List.filter_eq_nil_iff.2 (fun p hp hpc => h ?_)
    rw [beq_iff_eq] at hpc
    exact List.mem_map.2 ⟨p, hp, hpc⟩
  simp [weightIn, hnil]

theorem keys_tally (ps : List (List Lit × Int)) :
    (tally ps).map Prod.fst = (ps.map Prod.fst).eraseDups := by
  simp [tally, Function.comp_def]

theorem mem_keys_tally : c ∈ (tally ps).map Prod.fst ↔ c ∈ ps.map Prod.fst := by
  rw [keys_tally, List.mem_eraseDups]

theorem eraseDups_concat (l : List (List Lit)) :
    (l ++ [c]).eraseDups = if c ∈ l then l.eraseDups else l.eraseDups ++ [c] := by
  rw [List.eraseDups_append]
  by_cases h : c ∈ l <;> simp [List.removeAll, h, List.eraseDups_cons]

/-- One more weighted clause adds its weight to the clause's entry, or appends the clause. -/
theorem tally_concat :
    tally (ps ++ [(c, w)]) = if c ∈ ps.map Prod.fst then
      (tally ps).map (fun p => if p.1 = c then (c, p.2 + w) else p) else tally ps ++ [(c, w)] := by
  unfold tally
  rw [List.map_append, List.map_singleton, eraseDups_concat]
  split
  · rw [List.map_map]
    refine List.map_congr_left (fun k _ => ?_)
    by_cases hk : k = c
    · subst k
      simp [weightIn_concat]
    · simp [weightIn_concat, hk, Ne.symm hk]
  · rename_i hc
    rw [List.map_append, List.map_singleton, weightIn_concat, weightIn_of_not_mem hc]
    congr 1
    · refine List.map_congr_left (fun k hk => ?_)
      have hkc : c ≠ k := fun h => hc (h ▸ List.mem_eraseDups.1 hk)
      simp [weightIn_concat, hkc]
    · simp

theorem SoftMap.add_tally : (⟨tally ps⟩ : SoftMap).add c w = ⟨tally (ps ++ [(c, w)])⟩ := by
  have hany : (tally ps).any (fun p => p.1 == c) = true ↔ c ∈ ps.map Prod.fst := by
    rw [← mem_keys_tally]
    simp
  unfold SoftMap.add
  rw [tally_concat]
  by_cases hc : c ∈ ps.map Prod.fst
  · rw [if_pos (hany.2 hc), if_pos hc]
    simp
  · rw [if_neg (fun h => hc (hany.1 h)), if_neg hc]

theorem SoftMap.foldl_add_tally (qs ps : List (List Lit × Int)) :
    ps.foldl (fun (m : SoftMap) p => m.add p.1 p.2) ⟨tally qs⟩ = ⟨tally (qs ++ ps)⟩ := by
  induction ps generalizing qs with
  | nil => simp
  | cons p ps ih =>
    rw [List.foldl_cons, SoftMap.add_tally, ih]
    simp

/-- **A soft map gathers by clause.** The map of weighted clauses is their tally. -/
theorem SoftMap.ofPairs_eq_tally (ps : List (List Lit × Int)) : SoftMap.ofPairs ps = ⟨tally ps⟩ := by
  have h := SoftMap.foldl_add_tally [] ps
  rw [List.nil_append] at h
  rw [SoftMap.ofPairs, show SoftMap.empty = ⟨tally []⟩ from rfl, h]

/-- A clause that comes once has its own weight. -/
theorem weightIn_of_nodup (hnd : (ps.map Prod.fst).Nodup) {p : List Lit × Int} (hp : p ∈ ps) :
    weightIn ps p.1 = p.2 := by
  induction ps with
  | nil => cases hp
  | cons q qs ih =>
    rw [List.map_cons, List.nodup_cons] at hnd
    rcases List.mem_cons.1 hp with rfl | hp
    · have hrest : weightIn qs p.1 = 0 := weightIn_of_not_mem hnd.1
      simp only [weightIn, List.filter_cons, beq_self_eq_true, if_true, List.map_cons,
        List.sum_cons] at hrest ⊢
      rw [hrest, Int.add_zero]
    · have hne : q.1 ≠ p.1 := fun h => hnd.1 (h ▸ List.mem_map_of_mem hp)
      have hskip : weightIn (q :: qs) p.1 = weightIn qs p.1 := by
        simp [weightIn, hne]
      rw [hskip, ih hnd.2 hp]

theorem tally_of_nodup (hnd : (ps.map Prod.fst).Nodup) : tally ps = ps := by
  unfold tally
  rw [eraseDups_of_nodup hnd, List.map_map]
  conv => rhs; rw [← List.map_id ps]
  exact List.map_congr_left (fun p hp => by simp [weightIn_of_nodup hnd hp])

end Tally

/-! ## Canonical order -/

namespace Lit

theorem le_iff (a b : Lit) :
    Lit.le a b = true ↔ a.var < b.var ∨ (a.var = b.var ∧ (a.negated = false ∨ b.negated = true)) := by
  simp [Lit.le]

theorem le_trans (a b c : Lit) (hab : Lit.le a b = true) (hbc : Lit.le b c = true) :
    Lit.le a c = true := by
  rw [le_iff] at hab hbc ⊢
  revert hab hbc
  cases a.negated <;> cases b.negated <;> cases c.negated <;> simp <;> omega

theorem le_total (a b : Lit) : (Lit.le a b || Lit.le b a) = true := by
  rw [Bool.or_eq_true, le_iff, le_iff]
  cases a.negated <;> cases b.negated <;> simp <;> omega

end Lit

theorem canonicalClause_pairwise (ls : List Lit) :
    (canonicalClause ls).Pairwise (fun a b => Lit.le a b = true) :=
  List.pairwise_mergeSort Lit.le_trans Lit.le_total ls

theorem canonicalClause_of_pairwise {ls : List Lit} (h : ls.Pairwise (fun a b => Lit.le a b = true)) :
    canonicalClause ls = ls :=
  List.mergeSort_of_pairwise h

/-! ## The soft clauses of an objective -/

namespace Objective

/-- The soft clauses of an objective one by one, before they are gathered: the unit clause of
the complement of each weighted literal, then each weighted clause, each in canonical order. -/
def softPairs (o : Objective) : List (List Lit × Int) :=
  o.lits.map (fun p => (canonicalClause (Lit.ofInt? (-p.1)).toList, (p.2 : Int))) ++
    o.clauses.map (fun c => (canonicalClause (c.lits.filterMap Lit.ofInt?), (c.weight : Int)))

theorem softClauses_eq_ofPairs (o : Objective) : o.softClauses = SoftMap.ofPairs o.softPairs := by
  simp only [softClauses, SoftMap.ofPairs, softPairs, List.foldl_append, List.foldl_map]

/-- The soft clauses of an objective are in canonical order, weigh no less than zero, and come
once each. -/
theorem softClauses_canonical (o : Objective) :
    (∀ p ∈ o.softClauses.entries, p.1.Pairwise (fun a b => Lit.le a b = true) ∧ 0 ≤ p.2) ∧
      (o.softClauses.entries.map Prod.fst).Nodup := by
  rw [softClauses_eq_ofPairs, SoftMap.ofPairs_eq_tally]
  refine ⟨fun p hp => ?_, by rw [keys_tally]; exact nodup_eraseDups _⟩
  obtain ⟨k, hk, rfl⟩ := List.mem_map.1 hp
  obtain ⟨q, hq, rfl⟩ := List.mem_map.1 (List.mem_eraseDups.1 hk)
  refine ⟨?_, List.sum_nonneg (fun x hx => ?_)⟩
  · unfold softPairs at hq
    rcases List.mem_append.1 hq with hq | hq
    · obtain ⟨l, -, rfl⟩ := List.mem_map.1 hq
      exact canonicalClause_pairwise _
    · obtain ⟨c, -, rfl⟩ := List.mem_map.1 hq
      exact canonicalClause_pairwise _
  · obtain ⟨r, hr, rfl⟩ := List.mem_map.1 hx
    unfold softPairs at hr
    rcases List.mem_append.1 (List.mem_filter.1 hr).1 with hr | hr
    · obtain ⟨l, -, rfl⟩ := List.mem_map.1 hr
      exact Int.natCast_nonneg _
    · obtain ⟨c, -, rfl⟩ := List.mem_map.1 hr
      exact Int.natCast_nonneg _

/-- **Soft clauses of an objective, and back.** The soft clauses of an objective are the tally of
the unit clauses of the complements of its weighted literals followed by its weighted clauses;
and the objective made of these soft clauses, with any offset, has the same soft clauses, in the
same order and with the same weights. -/
theorem soft_clauses_round_trip (o : Objective) :
    o.softClauses.entries = tally o.softPairs ∧
      ∀ offset : Int, (Objective.ofSoftClauses o.softClauses offset).softClauses = o.softClauses := by
  refine ⟨by rw [softClauses_eq_ofPairs, SoftMap.ofPairs_eq_tally], fun offset => ?_⟩
  obtain ⟨hcanon, hnd⟩ := o.softClauses_canonical
  have hpairs : (Objective.ofSoftClauses o.softClauses offset).softPairs = o.softClauses.entries := by
    simp only [softPairs, ofSoftClauses, List.map_nil, List.nil_append, List.map_map]
    conv => rhs; rw [← List.map_id o.softClauses.entries]
    refine List.map_congr_left (fun p hp => ?_)
    obtain ⟨hsorted, hpos⟩ := hcanon p hp
    show (canonicalClause ((p.1.map Lit.toInt).filterMap Lit.ofInt?), ((p.2.toNat : Nat) : Int)) = p
    rw [filterMap_ofInt?_toInt, canonicalClause_of_pairwise hsorted, Int.toNat_of_nonneg hpos]
  calc (Objective.ofSoftClauses o.softClauses offset).softClauses
      = ⟨tally o.softClauses.entries⟩ := by
        rw [softClauses_eq_ofPairs, hpairs, SoftMap.ofPairs_eq_tally]
    _ = o.softClauses := by rw [tally_of_nodup hnd]

end Objective

end MaxSatPrep
