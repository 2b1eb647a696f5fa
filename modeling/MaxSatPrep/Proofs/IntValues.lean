import Mathlib
import MaxSatPrep.Session.Ops
/-!
Integer values of the engine. A session hands its engine integers only: literals are non-zero
integers, weights, the top weight and the objective count natural numbers. On integers the
language's operations that the engine applies (magnitude, negation, equality as set members and
mapping keys, order, sums) are integer arithmetic; this module states that once, as simp lemmas,
so that later proofs never unfold the general value operations.

It also gives literals their meaning. A valuation assigns a truth value to every variable; a
DIMACS literal is true when its variable has the literal's sign, and a row is true when one of
its literals is. The values that reconstruction builds are read as a valuation (`Values.val`):
setting a variable there is `Function.update`, as long as every key is an integer.
-/

namespace MaxSatPrep

namespace Datum

@[simp] theorem numEq_int (a b : Int) : numEq (.int a) (.int b) = decide (a = b) := by
  show (a == b) = decide (a = b)
  rfl

@[simp] theorem memberEq_int (a b : Int) : memberEq (.int a) (.int b) = decide (a = b) := by
  simp [memberEq, readNaN]

@[simp] theorem magnitude_int (z : Int) : magnitude (.int z) = .ok (.int z.natAbs) := rfl

@[simp] theorem negate_int (z : Int) : negate (.int z) = .ok (.int (-z)) := rfl

@[simp] theorem plus_int (a b : Int) : plus (.int a) (.int b) = .ok (.int (a + b)) := rfl

@[simp] theorem minus_int (a b : Int) : minus (.int a) (.int b) = .ok (.int (a - b)) := rfl

@[simp] theorem greater_int (a b : Int) : greater (.int a) (.int b) = .ok (decide (b < a)) := by
  by_cases h : b < a
  · simp [greater, number?, numOf, Num.greater, Num.rank?, h]
  · simp [greater, number?, numOf, Num.greater, Num.rank?, h]

@[simp] theorem less_int (a b : Int) : less (.int a) (.int b) = .ok (decide (a < b)) := by
  by_cases h : a < b
  · simp [less, number?, numOf, Num.greater, Num.rank?, h]
  · simp [less, number?, numOf, Num.greater, Num.rank?, h]

@[simp] theorem atMost_int (a b : Int) : atMost (.int a) (.int b) = .ok (decide (a ≤ b)) := by
  by_cases h : a ≤ b
  · simp [atMost, number?, numOf, Num.greater, Num.rank?, h, not_lt.2 h]
  · simp [atMost, number?, numOf, Num.greater, Num.rank?, h, lt_of_not_ge h]

@[simp] theorem maxOf_int (a b : Int) : maxOf (.int a) (.int b) = .ok (.int (max a b)) := by
  by_cases h : a < b
  · simp [maxOf, h, max_eq_right h.le, bind, Except.bind, pure, Except.pure]
  · simp [maxOf, h, max_eq_left (not_lt.1 h), bind, Except.bind, pure, Except.pure]

@[simp] theorem hashable_int (z : Int) : hashable (.int z) = .ok (.int z) := rfl

@[simp] theorem truthy_int (z : Int) : truthy (.int z) = decide (z ≠ 0) := by
  simp [truthy, bne]
  rfl

@[simp] theorem rangeBound_int (z : Int) : rangeBound (.int z) = .ok z := rfl

theorem memberOf_ints (a : Int) (zs : List Int) :
    memberOf (.int a) (zs.map Datum.int) = decide (a ∈ zs) := by
  induction zs with
  | nil => rfl
  | cons z zs ih =>
    simp only [List.map_cons, memberOf, List.any_cons, memberEq_int] at ih ⊢
    rw [ih]
    simp

end Datum

@[simp] theorem Session.intOf_int (z : Int) : Session.intOf (.int z) = z := rfl

/-- a literal value of the engine: a non-zero integer -/
def IsLit (d : Datum) : Prop := ∃ z : Int, z ≠ 0 ∧ d = .int z

/-- a weight value of the engine: a natural number -/
def IsWeight (d : Datum) : Prop := ∃ w : Int, 0 ≤ w ∧ d = .int w

theorem IsLit.eq {d : Datum} (h : IsLit d) : d = .int (Session.intOf d) := by
  obtain ⟨z, -, rfl⟩ := h
  rfl

theorem IsLit.ne_zero {d : Datum} (h : IsLit d) : Session.intOf d ≠ 0 := by
  obtain ⟨z, hz, rfl⟩ := h
  exact hz

theorem IsWeight.eq {d : Datum} (h : IsWeight d) : d = .int (Session.intOf d) := by
  obtain ⟨w, -, rfl⟩ := h
  rfl

theorem IsWeight.nonneg {d : Datum} (h : IsWeight d) : 0 ≤ Session.intOf d := by
  obtain ⟨w, hw, rfl⟩ := h
  exact hw

@[simp] theorem isLit_int (z : Int) : IsLit (.int z) ↔ z ≠ 0 :=
  ⟨fun ⟨_, hz, h⟩ => by cases h; exact hz, fun hz => ⟨z, hz, rfl⟩⟩

@[simp] theorem isWeight_int (w : Int) : IsWeight (.int w) ↔ 0 ≤ w :=
  ⟨fun ⟨_, hw, h⟩ => by cases h; exact hw, fun hw => ⟨w, hw, rfl⟩⟩

theorem ints_map_int {ds : List Datum} (h : ∀ d ∈ ds, IsLit d) :
    (ds.map Session.intOf).map Datum.int = ds := by
  induction ds with
  | nil => rfl
  | cons d ds ih =>
    simp only [List.map_cons, List.cons.injEq]
    exact ⟨(h d (by simp)).eq.symm, ih (fun x hx => h x (by simp [hx]))⟩

/-! ## Truth of literals and rows -/

/-- a truth value for every variable -/
abbrev Valuation := Nat → Bool

namespace Valuation

/-- a DIMACS literal is true when its variable has the literal's sign -/
def lit (σ : Valuation) (z : Int) : Prop := σ z.natAbs = decide (0 < z)

/-- a clause of DIMACS literals is true when one of its literals is -/
def clause (σ : Valuation) (c : List Int) : Prop := ∃ z ∈ c, σ.lit z

instance (σ : Valuation) (z : Int) : Decidable (σ.lit z) :=
  inferInstanceAs (Decidable (σ z.natAbs = decide (0 < z)))

instance (σ : Valuation) (c : List Int) : Decidable (σ.clause c) :=
  inferInstanceAs (Decidable (∃ z ∈ c, σ.lit z))

theorem lit_neg {σ : Valuation} {z : Int} (hz : z ≠ 0) : σ.lit (-z) ↔ ¬ σ.lit z := by
  unfold lit
  rw [Int.natAbs_neg]
  rcases lt_or_gt_of_ne hz with h | h
  · simp [h, not_lt.2 h.le]
  · simp [h, not_lt.2 h.le]

theorem lit_congr {σ τ : Valuation} {z : Int} (h : σ z.natAbs = τ z.natAbs) : σ.lit z ↔ τ.lit z := by
  simp [lit, h]

theorem clause_congr {σ τ : Valuation} {c : List Int} (h : ∀ z ∈ c, σ z.natAbs = τ z.natAbs) :
    σ.clause c ↔ τ.clause c := by
  unfold clause
  exact ⟨fun ⟨z, hz, hl⟩ => ⟨z, hz, (lit_congr (h z hz)).1 hl⟩,
    fun ⟨z, hz, hl⟩ => ⟨z, hz, (lit_congr (h z hz)).2 hl⟩⟩

theorem lit_update_self (σ : Valuation) (z : Int) :
    Valuation.lit (Function.update σ z.natAbs (decide (0 < z))) z := by
  simp [lit]

theorem lit_update_ne {σ : Valuation} {z : Int} {v : Nat} (b : Bool) (h : z.natAbs ≠ v) :
    Valuation.lit (Function.update σ v b) z ↔ σ.lit z := by
  simp [lit, Function.update_of_ne h]

end Valuation

/-- the integers of the literals of a row -/
def Row.ints (r : Row) : List Int := r.lits.map Session.intOf

@[simp] theorem Row.mem_ints {r : Row} {z : Int} : z ∈ r.ints ↔ ∃ d ∈ r.lits, Session.intOf d = z := by
  simp [Row.ints]

/-! ## The values of reconstruction -/

namespace Engine

/-- every magnitude the values hold is an integer -/
def IntKeys (vs : Values) : Prop := ∀ p ∈ vs, ∃ k : Int, p.1 = .int k

/-- the values as a valuation of the variables -/
def Values.val (vs : Values) : Valuation := fun n => valueOf vs (.int n)

theorem intKeys_nil : IntKeys [] := by simp [IntKeys]

theorem IntKeys.setValue {vs : Values} (h : IntKeys vs) (k : Int) (b : Bool) :
    IntKeys (setValue vs (.int k) b) := by
  unfold Engine.setValue
  split
  · intro p hp
    obtain ⟨q, hq, rfl⟩ := List.mem_map.1 hp
    split
    · exact h q hq
    · exact h q hq
  · intro p hp
    rcases List.mem_append.1 hp with hp | hp
    · exact h p hp
    · simp at hp
      exact ⟨k, by rw [hp]⟩

theorem valueOf_cons_int (j : Int) (c : Bool) (vs : Values) (n : Nat) :
    valueOf ((.int j, c) :: vs) (.int n) = if j = n then c else valueOf vs (.int n) := by
  by_cases h : j = n <;> simp [valueOf, h]

/-- Rewriting the entries of a magnitude that is present changes its value only. -/
theorem valueOf_map_set {vs : Values} (h : IntKeys vs) (k n : Nat) (b : Bool) :
    valueOf (vs.map (fun p => if Datum.memberEq p.1 (.int k) then (p.1, b) else p)) (.int n) =
      if n = k ∧ vs.any (fun p => Datum.memberEq p.1 (.int k)) then b else valueOf vs (.int n) := by
  induction vs with
  | nil => simp [valueOf]
  | cons p vs ih =>
    obtain ⟨j, hj⟩ := h p (by simp)
    obtain ⟨key, c⟩ := p
    simp only at hj
    subst hj
    have ih := ih (fun q hq => h q (by simp [hq]))
    by_cases hjk : j = k
    · subst hjk
      simp only [List.map_cons, Datum.memberEq_int, decide_true, ite_true, valueOf_cons_int,
        List.any_cons, Bool.true_or, and_true]
      by_cases hn : n = k
      · simp [hn]
      · have : ¬ ((k : Int) = n) := by omega
        simp [this, ih, hn]
    · have hk : (j = (k : Int)) = False := by simp [hjk]
      simp only [List.map_cons, Datum.memberEq_int, hk, decide_false, Bool.false_eq_true, ite_false,
        valueOf_cons_int, List.any_cons, Bool.false_or]
      by_cases hjn : j = n
      · have : ¬ n = k := by omega
        simp [hjn, this]
      · simp [hjn, ih]

/-- Appending a magnitude that is absent gives it its value and leaves the others. -/
theorem valueOf_append_absent {vs : Values} (h : IntKeys vs) (k n : Nat) (b : Bool)
    (hk : vs.any (fun p => Datum.memberEq p.1 (.int k)) = false) :
    valueOf (vs ++ [(.int k, b)]) (.int n) = if n = k then b else valueOf vs (.int n) := by
  induction vs with
  | nil =>
    by_cases hn : n = k
    · simp [valueOf_cons_int, hn]
    · have : ((k : Int) = n) = False := by simp; omega
      simp [hn, this, valueOf]
  | cons p vs ih =>
    obtain ⟨j, hj⟩ := h p (by simp)
    obtain ⟨key, c⟩ := p
    simp only at hj
    subst hj
    simp only [List.any_cons, Datum.memberEq_int, Bool.or_eq_false_iff, decide_eq_false_iff_not] at hk
    have ih := ih (fun q hq => h q (by simp [hq])) hk.2
    simp only [List.cons_append, valueOf_cons_int, ih]
    by_cases hjn : j = n
    · have : ¬ n = k := by omega
      simp [hjn, this]
    · simp [hjn]

/-- On values keyed by integers, setting a magnitude is updating the valuation there. -/
theorem val_setValue {vs : Values} (h : IntKeys vs) (k : Nat) (b : Bool) :
    Values.val (setValue vs (.int k) b) = Function.update (Values.val vs) k b := by
  funext n
  simp only [Values.val, Engine.setValue]
  split
  · rename_i hany
    rw [valueOf_map_set h k n b]
    by_cases hn : n = k
    · subst hn
      simp [hany]
    · simp [hn, Values.val]
  · rename_i hany
    rw [valueOf_append_absent h k n b (Bool.eq_false_iff.2 hany)]
    by_cases hn : n = k
    · subst hn
      simp
    · simp [hn, Values.val]

end Engine

end MaxSatPrep
