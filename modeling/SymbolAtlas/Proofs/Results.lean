/-!
# Computations that may fail

How a computation is taken apart: a sequence succeeds when its first step does and
the rest does from there, with or without a state that is passed along, and it fails
when one of them does.

## Main Statements

* `bind_eq_ok_iff` and `stateT_bind_eq_ok_iff`: sequences that succeed.
* `bind_eq_error_iff` and `stateT_bind_eq_error_iff`: sequences that fail.
* `exists_of_foldlM_eq_error`: the round in which a loop fails.
* `eq_ok_of_toOption`: success, by the value alone.
-/

namespace SymbolAtlas

variable {ε α β σ : Type}

theorem bind_eq_ok_iff {x : Except ε α} {f : α → Except ε β} {b : β} :
    (x >>= f) = .ok b ↔ ∃ a, x = .ok a ∧ f a = .ok b := by
  cases x with
  | error e => simp [bind, Except.bind]
  | ok a => simp [bind, Except.bind]

theorem map_eq_ok_iff {x : Except ε α} {f : α → β} {b : β} :
    x.map f = .ok b ↔ ∃ a, x = .ok a ∧ f a = b := by
  cases x with
  | error e => simp [Except.map]
  | ok a => simp [Except.map]

theorem stateT_bind_eq_ok_iff {x : StateT σ (Except ε) α} {f : α → StateT σ (Except ε) β}
    {s : σ} {result : β × σ} :
    (x >>= f) s = .ok result ↔ ∃ a s', x s = .ok (a, s') ∧ f a s' = .ok result := by
  simp only [bind, StateT.bind]
  cases x s with
  | error e => simp [Except.bind]
  | ok pair =>
    obtain ⟨a, s'⟩ := pair
    simp [Except.bind, and_assoc]

/-- A computation without state leaves the state as it is. -/
theorem stateT_lift_eq_ok_iff {x : Except ε α} {s : σ} {result : α × σ} :
    (liftM x : StateT σ (Except ε) α) s = .ok result ↔ x = .ok result.1 ∧ result.2 = s := by
  obtain ⟨a, s'⟩ := result
  cases x with
  | error e => simp [liftM, monadLift, MonadLift.monadLift, StateT.lift, bind, Except.bind]
  | ok b =>
    simp only [liftM, monadLift, MonadLift.monadLift, StateT.lift, bind, Except.bind, pure,
      Except.pure, Except.ok.injEq, Prod.mk.injEq]
    exact and_congr_right fun _ => eq_comm

theorem stateM_pure_apply (a : α) (s : σ) : (pure a : StateM σ α) s = (a, s) := rfl

theorem stateM_bind_apply (x : StateM σ α) (f : α → StateM σ β) (s : σ) :
    (x >>= f) s = f (x s).1 (x s).2 := rfl

theorem eq_ok_of_toOption {result : Except ε α} {a : α} (h : result.toOption = some a) :
    result = .ok a := by
  cases result with
  | error e => cases h
  | ok b => rw [Option.some.inj h]

/-! ## Computations that fail -/

/-- The error of a computation that fails. -/
def errorOf? : Except ε α → Option ε
  | .ok _ => none
  | .error e => some e

theorem eq_error_of_errorOf? {result : Except ε α} {e : ε} (h : errorOf? result = some e) :
    result = .error e := by
  cases result with
  | ok a => cases h
  | error e' => rw [Option.some.inj h]

theorem bind_eq_error_iff {x : Except ε α} {f : α → Except ε β} {e : ε} :
    (x >>= f) = .error e ↔ x = .error e ∨ ∃ a, x = .ok a ∧ f a = .error e := by
  cases x with
  | error e' => simp [bind, Except.bind]
  | ok a => simp [bind, Except.bind]

theorem map_eq_error_iff {x : Except ε α} {f : α → β} {e : ε} :
    f <$> x = .error e ↔ x = .error e := by
  cases x with
  | error e' => simp [Functor.map, Except.map]
  | ok a => simp [Functor.map, Except.map]

theorem stateT_bind_eq_error_iff {x : StateT σ (Except ε) α} {f : α → StateT σ (Except ε) β}
    {s : σ} {e : ε} :
    (x >>= f) s = .error e ↔ x s = .error e ∨ ∃ a s', x s = .ok (a, s') ∧ f a s' = .error e := by
  simp only [bind, StateT.bind]
  cases x s with
  | error e' => simp [Except.bind]
  | ok pair =>
    obtain ⟨a, s'⟩ := pair
    simp [Except.bind, and_assoc]

theorem stateT_lift_eq_error_iff {x : Except ε α} {s : σ} {e : ε} :
    (liftM x : StateT σ (Except ε) α) s = .error e ↔ x = .error e := by
  cases x with
  | error e' => simp [liftM, monadLift, MonadLift.monadLift, StateT.lift, bind, Except.bind]
  | ok a =>
    simp [liftM, monadLift, MonadLift.monadLift, StateT.lift, bind, Except.bind, pure, Except.pure]

/-- A loop that fails goes through some rounds and fails in the next. -/
theorem exists_of_foldlM_eq_error {step : β → α → Except ε β} {l : List α} {b : β} {e : ε}
    (h : l.foldlM step b = .error e) : ∃ front a back b', l = front ++ a :: back ∧
      front.foldlM step b = .ok b' ∧ step b' a = .error e := by
  induction l generalizing b with
  | nil => cases h
  | cons a l ih =>
    rw [List.foldlM_cons, bind_eq_error_iff] at h
    rcases h with h | ⟨b₁, hfirst, hrest⟩
    · exact ⟨[], a, l, b, rfl, rfl, h⟩
    · obtain ⟨front, a', back, b', rfl, hfront, hlast⟩ := ih hrest
      refine ⟨a :: front, a', back, b', rfl, ?_, hlast⟩
      rw [List.foldlM_cons, bind_eq_ok_iff]
      exact ⟨b₁, hfirst, hfront⟩

/-- A loop with a state is a loop over pairs. -/
theorem stateT_foldlM_apply (step : β → α → StateT σ (Except ε) β) (l : List α) (b : β) (s : σ) :
    l.foldlM step b s = l.foldlM (fun pair a => step pair.1 a pair.2) (b, s) := by
  induction l generalizing b s with
  | nil => rfl
  | cons a l ih =>
    rw [List.foldlM_cons, List.foldlM_cons]
    show (step b a s >>= fun (b', s') => l.foldlM step b' s') = _
    exact bind_congr fun (b', s') => ih b' s'

theorem exists_of_stateT_foldlM_eq_error {step : β → α → StateT σ (Except ε) β} {l : List α}
    {b : β} {s : σ} {e : ε} (h : l.foldlM step b s = .error e) :
    ∃ front a back b' s', l = front ++ a :: back ∧ front.foldlM step b s = .ok (b', s') ∧
      step b' a s' = .error e := by
  rw [stateT_foldlM_apply] at h
  obtain ⟨front, a, back, ⟨b', s'⟩, hsplit, hfront, hlast⟩ := exists_of_foldlM_eq_error h
  exact ⟨front, a, back, b', s', hsplit, (stateT_foldlM_apply ..).trans hfront, hlast⟩

end SymbolAtlas
