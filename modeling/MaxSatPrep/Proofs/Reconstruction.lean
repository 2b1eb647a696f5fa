import MaxSatPrep.Proofs.Replay
/-!
Reconstruction from an assignment. The assignment's literals, one per assigned variable, are
pushed and give the starting values: every literal of the assignment is true and every other
variable false (`startValues_ints`, `lit_setLits`). The trace is then replayed on them, and the model read
back lists, for each variable from one to the largest, the literal that the replayed values make
true.

Main statement, `Session.reconstruct_model`: on an open session whose engine has an integer
largest variable and a trace of integer events, reconstructing an assignment answers with the
model of the trace replayed on the assignment's values.
-/

namespace MaxSatPrep

open Session (intOf)

/-! ## Assignments -/

@[simp] theorem Lit.natAbs_toInt (l : Lit) : l.toInt.natAbs = l.var := by
  unfold Lit.toInt
  split <;> simp

namespace Assignment

theorem insertSorted_perm {v : Nat} (b : Bool) {vs : List (Nat × Bool)}
    (hv : v ∉ vs.map Prod.fst) : (insertSorted v b vs).Perm ((v, b) :: vs) := by
  fun_induction insertSorted v b vs with
  | case1 => rfl
  | case2 w c rest hlt => rfl
  | case3 c rest hlt =>
    simp at hv
  | case4 w c rest hlt hne ih =>
    have hrest : v ∉ rest.map Prod.fst := fun h => hv (by simp_all)
    exact ((ih hrest).cons (w, c)).trans (List.Perm.swap (v, b) (w, c) rest)

/-- the variables of an assignment have one entry each -/
def KeysNodup (a : Assignment) : Prop := (a.values.map Prod.fst).Nodup

theorem value?_none {a : Assignment} {v : Nat} (h : a.value? v = none) :
    v ∉ a.values.map Prod.fst := by
  intro hv
  obtain ⟨p, hp, rfl⟩ := List.mem_map.1 hv
  simp only [value?, Option.map_eq_none_iff, List.find?_eq_none] at h
  have hself := h p hp
  simp at hself

theorem KeysNodup.assign {a a' : Assignment} (ha : a.KeysNodup) {l : Lit}
    (h : a.assign l = .ok a') : a'.KeysNodup := by
  unfold Assignment.assign at h
  dsimp only at h
  split at h
  · split at h
    · cases h
      exact ha
    · cases h
  · rename_i hnone
    cases h
    have hv := value?_none hnone
    exact ((insertSorted_perm _ hv).map Prod.fst).nodup_iff.2 (List.nodup_cons.2 ⟨hv, ha⟩)

/-- An assignment read from literals has one entry per variable. -/
theorem ofDatums_keysNodup {ds : List Datum} {a : Assignment} (h : ofDatums ds = .ok a) :
    a.KeysNodup := by
  unfold ofDatums at h
  have hstart : empty.KeysNodup := List.nodup_nil
  generalize empty = a₀ at h hstart
  induction ds generalizing a₀ with
  | nil =>
    cases h
    exact hstart
  | cons d ds ih =>
    rw [List.foldlM_cons] at h
    simp only [bind, Except.bind] at h
    split at h
    · cases h
    rename_i a₁ hstep
    split at hstep
    · cases hstep
    exact ih a₁ h (hstart.assign hstep)

theorem KeysNodup.lits {a : Assignment} (h : a.KeysNodup) :
    ((a.lits.map Lit.toInt).map Int.natAbs).Nodup := by
  have hvars : (a.lits.map Lit.toInt).map Int.natAbs =
      (a.values.map Prod.fst).filterMap (fun k => if 0 < k then some k else none) := by
    simp only [List.map_map, Assignment.lits, List.map_filterMap, List.filterMap_map]
    congr 1
    funext p
    split <;> simp_all
  rw [hvars]
  refine h.filterMap (fun k k' j hk hk' => ?_)
  split at hk <;> split at hk' <;> simp_all

theorem mem_lits_of_litValue {a : Assignment} {l : Lit} (h : a.litValue? l = some true) :
    l ∈ a.lits := by
  simp only [litValue?, value?, Option.map_map, Option.map_eq_some_iff] at h
  obtain ⟨p, hp, hb⟩ := h
  have hmem := List.mem_of_find?_eq_some hp
  have hvar : p.1 = l.var := by simpa using List.find?_some hp
  refine List.mem_filterMap.2 ⟨p, hmem, ?_⟩
  have hpos : 0 < p.1 := hvar ▸ l.var_pos
  rcases l with ⟨v, neg, hv⟩
  simp only at hvar hb
  subst hvar
  cases neg <;> cases hp' : p.2 <;> simp_all

end Assignment

/-! ## Starting values -/

namespace Engine

/-- setting literals' variables to their signs, in order -/
def setLits (vs : Values) (zs : List Int) : Values :=
  zs.foldl (fun vs z => setValue vs (.int z.natAbs) (decide (0 < z))) vs

theorem IntKeys.setLits {vs : Values} (hvs : IntKeys vs) (zs : List Int) : IntKeys (setLits vs zs) := by
  induction zs generalizing vs with
  | nil => exact hvs
  | cons z zs ih => exact ih (hvs.setValue z.natAbs (decide (0 < z)))

theorem val_setLits_of_not_mem {vs : Values} (hvs : IntKeys vs) {zs : List Int} {n : Nat}
    (hn : n ∉ zs.map Int.natAbs) : Values.val (setLits vs zs) n = Values.val vs n := by
  induction zs generalizing vs with
  | nil => rfl
  | cons z zs ih =>
    simp only [List.map_cons, List.mem_cons, not_or] at hn
    have hrest := ih (hvs.setValue z.natAbs (decide (0 < z))) hn.2
    simp only [setLits, List.foldl_cons] at hrest ⊢
    rw [hrest, val_setValue hvs, Function.update_of_ne hn.1]

/-- Setting literals on distinct variables makes each of them true. -/
theorem lit_setLits {vs : Values} (hvs : IntKeys vs) {zs : List Int} (hnd : (zs.map Int.natAbs).Nodup) :
    ∀ z ∈ zs, (Values.val (setLits vs zs)).lit z := by
  induction zs generalizing vs with
  | nil => simp
  | cons z zs ih =>
    obtain ⟨hz, hnd'⟩ := List.nodup_cons.1 hnd
    intro w hw
    rcases List.mem_cons.1 hw with rfl | hw
    · have hkeep := val_setLits_of_not_mem (hvs.setValue w.natAbs (decide (0 < w))) hz
      simp only [setLits, List.foldl_cons] at hkeep ⊢
      rw [Valuation.lit, hkeep, val_setValue hvs, Function.update_self]
    · exact ih (hvs.setValue z.natAbs (decide (0 < z))) hnd' w hw

/-- The starting values of non-zero integer literals set each magnitude to the literal's sign,
in order. -/
theorem startValues_ints {zs : List Int} (hzs : ∀ z ∈ zs, z ≠ 0) :
    startValues (zs.map .int) =
      .ok (setLits [] zs) := by
  unfold startValues
  generalize ([] : Values) = vs₀
  induction zs generalizing vs₀ with
  | nil => rfl
  | cons z zs ih =>
    have hz : Datum.numEq (.int z) (.int 0) = false := by simpa using hzs z (by simp)
    rw [List.map_cons, List.foldlM_cons]
    simp only [hz, Bool.false_eq_true, if_false, Datum.magnitude_int, Datum.greater_int, bind,
      Except.bind, pure, Except.pure]
    exact ih (fun z' hz' => hzs z' (by simp [hz'])) _

/-- Pushing an assignment appends its literals, in variable order. -/
theorem pushAssignment_run (a : Assignment) (e : Engine) :
    (Session.pushAssignment a).run e =
      (.ok (), { e with assignment := e.assignment ++ (a.lits.map Lit.toInt).map .int }) := by
  unfold Session.pushAssignment
  generalize a.lits = ls
  induction ls generalizing e with
  | nil => simp
  | cons l ls ih =>
    have hcons : (l :: ls).forM (fun l => assignmentAdd (.int l.toInt)) =
        (assignmentAdd (.int l.toInt) >>= fun _ => ls.forM (fun l => assignmentAdd (.int l.toInt))) :=
      rfl
    have hadd : (assignmentAdd (.int l.toInt)).run e =
        (.ok (), { e with assignment := e.assignment ++ [.int l.toInt] }) := rfl
    rw [hcons, EngineM.run_bind_ok hadd, ih]
    simp

/-- **Reconstructing the engine.** With integer literals pushed, an integer largest variable
and a trace of integer events, reconstruction answers: the pushed literals are emptied, and the
values kept are the trace replayed on the values the pushed literals set. -/
theorem reconstruct_run {e : Engine} (htrace : ∀ ev ∈ e.trace, ev.IsInt) {m : Int}
    (hmax : e.maxVar = .int m) {zs : List Int} (hzs : ∀ z ∈ zs, z ≠ 0)
    (hpushed : e.assignment = zs.map .int) :
    ∃ vs, reconstruct.run e = (.ok (), { e with assignment := [], reconstructed := vs }) ∧
      Values.val vs = (Values.val (setLits [] zs)).replay e.trace := by
  obtain ⟨vs, hvs, -, hval⟩ := replay_ok (intKeys_nil.setLits zs) htrace
  refine ⟨vs, ?_, hval⟩
  have hbound : variableBound e = .ok (m + 1) := by
    simp [variableBound, hmax, bind, Except.bind]
  simp only [reconstruct, EngineM.run_bind, EngineM.run_get, hpushed, startValues_ints hzs,
    EngineM.run_lift, EngineM.run_set, hbound, hvs, EngineM.run_modify]

end Engine

/-! ## The model read back -/

/-- the model a valuation gives the variables from one to `n`: for each, the literal it makes
true -/
def Valuation.model (σ : Valuation) (n : Nat) : List Int :=
  (List.range n).map (fun i => if σ (i + 1) then ((i + 1 : Nat) : Int) else -((i + 1 : Nat) : Int))

namespace Valuation

theorem model_natAbs (σ : Valuation) (n : Nat) : (σ.model n).map Int.natAbs = List.range' 1 n := by
  have hf : (Int.natAbs ∘ fun i : Nat => if σ (i + 1) then ((i + 1 : Nat) : Int) else -((i + 1 : Nat) : Int)) =
      fun i => 1 + i := by
    funext i
    simp only [Function.comp]
    split <;> omega
  rw [model, List.map_map, hf, List.range'_eq_map_range]

/-- A literal on a variable from one to `n` is in the model exactly when it is true. -/
theorem mem_model {σ : Valuation} {n : Nat} {z : Int} (hz : z ≠ 0) (hzn : z.natAbs ≤ n) :
    z ∈ σ.model n ↔ σ.lit z := by
  unfold model lit
  constructor
  · intro hmem
    obtain ⟨i, -, rfl⟩ := List.mem_map.1 hmem
    by_cases hi : σ (i + 1) = true
    · have habs : ((i + 1 : Nat) : Int).natAbs = i + 1 := by omega
      rw [if_pos hi, habs, hi]
      exact (decide_eq_true (by omega)).symm
    · have habs : (-((i + 1 : Nat) : Int)).natAbs = i + 1 := by omega
      rw [if_neg hi, habs, Bool.eq_false_iff.2 hi]
      exact (decide_eq_false (by omega)).symm
  · intro hlit
    refine List.mem_map.2 ⟨z.natAbs - 1, List.mem_range.2 (by omega), ?_⟩
    have hsucc : z.natAbs - 1 + 1 = z.natAbs := by omega
    simp only [hsucc, hlit]
    rcases lt_or_gt_of_ne hz with hneg | hpos
    · simp only [decide_eq_true_eq, not_lt.2 hneg.le, if_false]
      omega
    · simp only [decide_eq_true_eq, hpos, if_true]
      omega

end Valuation

theorem Engine.readModel (e : Engine) (m : Nat) :
    (List.range m).mapM (fun (i : Nat) => do
      if ← e.reconstructedVal (.int ((i + 1 : Nat) : Int)) then pure ((i + 1 : Nat) : Int)
      else pure (-((i + 1 : Nat) : Int))) = .ok ((Engine.Values.val e.reconstructed).model m) := by
  apply Outcome.mapM_ok
  intro i _
  have hpos : (0 : Int) < ((i + 1 : Nat) : Int) := by omega
  simp only [Engine.reconstructedVal, Datum.magnitude_int, Int.natAbs_natCast, Datum.greater_int,
    hpos, decide_true, ↓reduceIte, bind, Except.bind, pure, Except.pure, Engine.Values.val]
  by_cases hv : valueOf e.reconstructed (.int ((i + 1 : Nat) : Int)) = true <;> simp only [hv] <;> rfl

/-! ## Reconstructing from a session -/

namespace Session

/-- **Reconstruction.** On an open session whose engine has an integer largest variable `m`, a
trace of integer events and nothing pushed, reconstructing an assignment answers with the model,
over the variables from one to `m`, of the trace replayed on the values the assignment's
literals set. -/
theorem reconstruct_model {s : Session} (hclosed : s.closed = false) (hlocked : s.locked = false)
    (htrace : ∀ ev ∈ s.engine.trace, ev.IsInt) {m : Nat} (hmax : s.engine.maxVar = .int m)
    (hpushed : s.engine.assignment = []) {tau : List Datum} {a : Assignment}
    (ha : Assignment.ofDatums tau = .ok a) :
    ∃ vs, s.reconstruct tau = .ok ((Engine.Values.val vs).model m,
        s.withEngine { s.engine with assignment := [], reconstructed := vs }) ∧
      Engine.Values.val vs = (Engine.Values.val (Engine.setLits [] (a.lits.map Lit.toInt))).replay s.engine.trace := by
  have hzs : ∀ z ∈ a.lits.map Lit.toInt, z ≠ 0 := by
    intro z hz
    obtain ⟨l, -, rfl⟩ := List.mem_map.1 hz
    exact Lit.toInt_ne_zero l
  have hpush := Engine.pushAssignment_run a s.engine
  rw [hpushed, List.nil_append] at hpush
  obtain ⟨vs, hrun, hval⟩ := @Engine.reconstruct_run
    { s.engine with assignment := (a.lits.map Lit.toInt).map .int } htrace _ hmax _ hzs rfl
  refine ⟨vs, ?_, hval⟩
  have hexcl : s.exclusive = pure s.engine := by
    simp [exclusive, live, hclosed, hlocked, bind, Except.bind, pure, Except.pure]
  have hcall : s.call s.engine (do pushAssignment a; Engine.reconstruct) =
      pure ((), s.withEngine { s.engine with assignment := [], reconstructed := vs }) := by
    have hrun' : (do pushAssignment a; Engine.reconstruct : EngineM Unit).run s.engine =
        (.ok (), { s.engine with assignment := [], reconstructed := vs }) := by
      rw [EngineM.run_bind_ok hpush]
      exact hrun
    simp only [call, hrun']
    rfl
  have ha' : Assignment.ofDatums tau = pure a := ha
  unfold reconstruct
  rw [hexcl, pure_bind, ha', pure_bind, hcall, pure_bind]
  dsimp only [withEngine]
  rw [hmax, intOf_int, Int.natAbs_natCast, Engine.readModel]
  rfl

end Session

end MaxSatPrep
