import MaxSatPrep.Proofs.IntValues
/-!
Running engine calls. A call is a computation in `EngineM`: it reads and writes the engine state
and ends with an answer or a failure, keeping the state it reached either way. The equations
here say what running each building block does, so that a call can be run symbolically one
step after the other (`run_bind` is the step).
-/

namespace MaxSatPrep

namespace EngineM

variable {α β : Type}

@[simp] theorem run_pure (a : α) (e : Engine) : (pure a : EngineM α).run e = (.ok a, e) := rfl

/-- Running `m >>= f` runs `m`, then `f` on its answer from the state `m` left; a failure of `m`
ends the run there. -/
theorem run_bind (m : EngineM α) (f : α → EngineM β) (e : Engine) :
    (m >>= f).run e = match m.run e with
      | (.ok a, e') => (f a).run e'
      | (.error x, e') => (.error x, e') := by
  simp only [run, ExceptT.run_bind]
  rcases h : (ExceptT.run m).run e with ⟨_ | a, e'⟩ <;> simp [StateT.run_bind, h] <;> rfl

@[simp] theorem run_get (e : Engine) : (get : EngineM Engine).run e = (.ok e, e) := rfl

@[simp] theorem run_set (e e' : Engine) : (set e' : EngineM Unit).run e = (.ok (), e') := rfl

@[simp] theorem run_modify (f : Engine → Engine) (e : Engine) :
    (modify f : EngineM Unit).run e = (.ok (), f e) := rfl

@[simp] theorem run_throw (x : Failure) (e : Engine) : (throw x : EngineM α).run e = (.error x, e) :=
  rfl

@[simp] theorem run_lift (o : Outcome α) (e : Engine) : (lift o).run e = (o, e) := by
  cases o <;> rfl

theorem run_ite (c : Prop) [Decidable c] (m m' : EngineM α) (e : Engine) :
    (if c then m else m').run e = if c then m.run e else m'.run e := by
  split <;> rfl

theorem run_bind_ok {m : EngineM α} {e e' : Engine} {a : α} (h : m.run e = (.ok a, e'))
    (f : α → EngineM β) : (m >>= f).run e = (f a).run e' := by
  rw [run_bind, h]

theorem state_of_ok {m : EngineM α} {e e₁ e₂ : Engine} {a b : α} (h₁ : m.run e = (.ok a, e₁))
    (h₂ : m.run e = (.ok b, e₂)) : e₂ = e₁ := by
  rw [h₁] at h₂
  cases h₂
  rfl

theorem run_forM_ok {xs : List α} {f : α → EngineM PUnit} {e : Engine}
    (h : ∀ x ∈ xs, ∀ e, (f x).run e = (.ok ⟨⟩, e)) : (xs.forM f).run e = (.ok ⟨⟩, e) := by
  induction xs with
  | nil => rfl
  | cons x xs ih =>
    have hcons : (x :: xs).forM f = (f x >>= fun _ => xs.forM f) := rfl
    rw [hcons, run_bind_ok (h x (by simp) e)]
    exact ih (fun y hy => h y (by simp [hy]))

end EngineM

/-! ## Loops over lists in `Outcome`

A loop whose every step answers on the members of its list answers as the pure loop does. -/

namespace Outcome

variable {α β : Type}

theorem anyM_ok {p : α → Outcome Bool} {q : α → Bool} {xs : List α}
    (h : ∀ x ∈ xs, p x = .ok (q x)) : xs.anyM p = .ok (xs.any q) := by
  induction xs with
  | nil => rfl
  | cons x xs ih =>
    have hx := h x (by simp)
    have ih := ih (fun y hy => h y (by simp [hy]))
    cases hq : q x
    · simp [List.anyM, hx, hq, ih, bind, Except.bind]
    · simp [List.anyM, hx, hq, bind, Except.bind, pure, Except.pure]

theorem allM_ok {p : α → Outcome Bool} {q : α → Bool} {xs : List α}
    (h : ∀ x ∈ xs, p x = .ok (q x)) : xs.allM p = .ok (xs.all q) := by
  induction xs with
  | nil => rfl
  | cons x xs ih =>
    have hx := h x (by simp)
    have ih := ih (fun y hy => h y (by simp [hy]))
    cases hq : q x
    · simp [List.allM, hx, hq, bind, Except.bind, pure, Except.pure]
    · simp [List.allM, hx, hq, ih, bind, Except.bind]

theorem filterAuxM_ok {p : α → Outcome Bool} {q : α → Bool} {xs : List α}
    (h : ∀ x ∈ xs, p x = .ok (q x)) (acc : List α) :
    List.filterAuxM p xs acc = .ok ((xs.filter q).reverse ++ acc) := by
  induction xs generalizing acc with
  | nil => rfl
  | cons x xs ih =>
    have hx := h x (by simp)
    have ih := ih (fun y hy => h y (by simp [hy]))
    cases hq : q x
    · simp [List.filterAuxM, hx, hq, ih, bind, Except.bind]
    · simp [List.filterAuxM, hx, hq, ih, bind, Except.bind]

theorem filterM_ok {p : α → Outcome Bool} {q : α → Bool} {xs : List α}
    (h : ∀ x ∈ xs, p x = .ok (q x)) : xs.filterM p = .ok (xs.filter q) := by
  simp [List.filterM, filterAuxM_ok h, bind, Except.bind, pure, Except.pure]

theorem mapM_ok {f : α → Outcome β} {g : α → β} {xs : List α}
    (h : ∀ x ∈ xs, f x = .ok (g x)) : xs.mapM f = .ok (xs.map g) := by
  induction xs with
  | nil => rfl
  | cons x xs ih =>
    have hx := h x (by simp)
    have ih := ih (fun y hy => h y (by simp [hy]))
    simp [List.mapM_cons, hx, ih, bind, Except.bind, pure, Except.pure]

theorem mapM_error {f : α → Outcome β} {xs : List α} {err : Failure} (h : xs.mapM f = .error err) :
    ∃ x ∈ xs, f x = .error err := by
  induction xs with
  | nil => cases h
  | cons x xs ih =>
    rw [List.mapM_cons] at h
    rcases hx : f x with err' | y
    · simp only [hx, bind, Except.bind, Except.error.injEq] at h
      exact ⟨x, by simp, h ▸ hx⟩
    rcases hxs : xs.mapM f with err' | ys
    · simp only [hx, hxs, bind, Except.bind, Except.error.injEq] at h
      obtain ⟨y', hy', hfy⟩ := ih (h ▸ hxs)
      exact ⟨y', by simp [hy'], hfy⟩
    · simp [hx, hxs, bind, Except.bind, pure, Except.pure] at h

/-- A map that answers relates each member to its image, in order. -/
theorem mapM_forall₂ {f : α → Outcome β} {xs : List α} {ys : List β} (h : xs.mapM f = .ok ys) :
    List.Forall₂ (fun x y => f x = .ok y) xs ys := by
  induction xs generalizing ys with
  | nil =>
    cases h
    exact .nil
  | cons x xs ih =>
    rw [List.mapM_cons] at h
    rcases hx : f x with err | y
    · simp [hx, bind, Except.bind] at h
    rcases hxs : xs.mapM f with err | ys'
    · simp [hx, hxs, bind, Except.bind] at h
    simp only [hx, hxs, bind, Except.bind, pure, Except.pure, Except.ok.injEq] at h
    subst h
    exact .cons hx (ih hxs)

/-! Runs evaluated once by the kernel are read through their `Option` views. -/

theorem eq_ok_of_toOption {o : Outcome α} {a : α} (h : o.toOption = some a) : o = .ok a := by
  cases o with
  | error f => cases h
  | ok b =>
    cases h
    rfl

theorem exists_of_toOption_map {f : α → β} {o : Outcome α} {b : β} (h : o.toOption.map f = some b) :
    ∃ a, o = .ok a ∧ f a = b := by
  cases o with
  | error e => cases h
  | ok a => exact ⟨a, rfl, Option.some.inj h⟩

theorem exists_of_toOption_isSome {o : Outcome α} (h : o.toOption.isSome = true) : ∃ a, o = .ok a := by
  obtain ⟨a, ha⟩ := Option.isSome_iff_exists.1 h
  exact ⟨a, eq_ok_of_toOption ha⟩

theorem exists_of_toOption_bind {g : α → Option β} {o : Outcome α} {b : β} (h : o.toOption.bind g = some b) :
    ∃ a, o = .ok a ∧ g a = some b := by
  cases o with
  | error e => cases h
  | ok a => exact ⟨a, rfl, h⟩

end Outcome

end MaxSatPrep
