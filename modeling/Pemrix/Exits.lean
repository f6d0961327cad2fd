-- Programs that may throw and keep what they wrote when they do. A postcondition is
-- about every exit, the errors included, and a loop that stops at the first error is
-- told by the place where it stops, or gives a result for each item.
import Mathlib.Data.List.Forall2

namespace Exits

/-! ## Every exit of a program -/

section Programs

variable {ε σ α β : Type} {s : σ}

/-- From the state, the program ends with a result and a state that meet `Q`, also when it
throws. -/
def Ends (x : ExceptT ε (StateM σ) α) (s : σ) (Q : Except ε α → σ → Prop) : Prop :=
  Q (x.run s).1 (x.run s).2

/-- What the first part of a program must leave: an error ends the whole, a value goes on. -/
def Then (f : α → ExceptT ε (StateM σ) β) (Q : Except ε β → σ → Prop) :
    Except ε α → σ → Prop
  | .error e, s => Q (.error e) s
  | .ok a, s => Ends (f a) s Q

variable {Q Q' : Except ε α → σ → Prop}

theorem ends_pure {a : α} (h : Q (.ok a) s) : Ends (pure a) s Q := h

theorem ends_throw {e : ε} (h : Q (.error e) s) : Ends (throw e) s Q := h

theorem ends_bind {x : ExceptT ε (StateM σ) β} {f : β → ExceptT ε (StateM σ) α}
    (h : Ends x s (Then f Q)) : Ends (x >>= f) s Q := by
  have hrun : (x >>= f).run s = ExceptT.bindCont f (x.run s).1 (x.run s).2 := rfl
  unfold Ends at h ⊢
  rw [hrun]
  rcases hx : x.run s with ⟨e | a, s'⟩
  · rw [hx] at h
    exact h
  · rw [hx] at h
    exact h

/-- A check that throws. -/
theorem ends_check {c : Prop} [Decidable c] {e : ε} {k : Unit → ExceptT ε (StateM σ) α}
    (hthrow : c → Q (.error e) s) (hk : ¬ c → Ends (k ()) s Q) :
    Ends (if c then (throw e >>= k) else k ()) s Q := by
  by_cases hc : c
  · rw [if_pos hc]
    exact hthrow hc
  · rw [if_neg hc]
    exact hk hc

theorem ends_ite {c : Prop} [Decidable c] {x y : ExceptT ε (StateM σ) α}
    (hx : c → Ends x s Q) (hy : ¬ c → Ends y s Q) : Ends (if c then x else y) s Q := by
  by_cases hc : c
  · rw [if_pos hc]
    exact hx hc
  · rw [if_neg hc]
    exact hy hc

theorem Ends.mono {x : ExceptT ε (StateM σ) α} (h : Ends x s Q)
    (himp : ∀ r s', Q r s' → Q' r s') : Ends x s Q' := himp _ _ h

end Programs

/-! ## A loop that stops at the first error -/

section Loops

variable {ε σ τ ρ : Type} {step : σ → τ → Except ε ρ × σ}

/-- The steps in order, up to the first error. -/
def untilError (step : σ → τ → Except ε ρ × σ) (s : σ) : List τ → Except ε Unit × σ
  | [] => (.ok (), s)
  | t :: rest =>
    match step s t with
    | (.error e, s') => (.error e, s')
    | (.ok _, s') => untilError step s' rest

/-- The state after all steps, whatever they return. -/
def after (step : σ → τ → Except ε ρ × σ) (s : σ) (ts : List τ) : σ :=
  ts.foldl (fun s t => (step s t).2) s

theorem after_cons (s : σ) (t : τ) (ts : List τ) :
    after step s (t :: ts) = after step (step s t).2 ts := rfl

/-- The step with the number `i` returns an error. -/
def FailsAt (step : σ → τ → Except ε ρ × σ) (s : σ) (ts : List τ) (i : Nat) : Prop :=
  ∃ t e, ts[i]? = some t ∧ (step (after step s (ts.take i)) t).1 = .error e

theorem failsAt_cons {s : σ} {t : τ} {ts : List τ} (i : Nat) :
    FailsAt step s (t :: ts) (i + 1) ↔ FailsAt step (step s t).2 ts i := Iff.rfl

variable (step) in
/-- Either no step fails and all are done, or the steps up to the first that fails are. -/
theorem untilError_cases (s : σ) (ts : List τ) :
    (untilError step s ts = (.ok (), after step s ts) ∧ ∀ i, ¬ FailsAt step s ts i) ∨
    ∃ i e, untilError step s ts = (.error e, after step s (ts.take (i + 1))) ∧
      FailsAt step s ts i ∧ ∀ j, j < i → ¬ FailsAt step s ts j := by
  induction ts generalizing s with
  | nil =>
    refine Or.inl ⟨rfl, ?_⟩
    rintro i ⟨t, e, ht, -⟩
    simp at ht
  | cons t ts ih =>
    unfold untilError
    rcases hstep : step s t with ⟨e | r, s'⟩
    · refine Or.inr ⟨0, e, ?_, ⟨t, e, rfl, congrArg Prod.fst hstep⟩, ?_⟩
      · simp [after, hstep]
      · intro j hj
        exact absurd hj (Nat.not_lt_zero j)
    · have hzero : ¬ FailsAt step s (t :: ts) 0 := by
        rintro ⟨t', e, ht, herr⟩
        cases ht
        have hfirst := congrArg Prod.fst hstep
        exact nomatch hfirst.symm.trans herr
      have hnext : (step s t).2 = s' := congrArg Prod.snd hstep
      rcases ih s' with ⟨hall, hnone⟩ | ⟨i, e, hall, hfails, hfirst⟩
      · refine Or.inl ⟨?_, ?_⟩
        · rw [after_cons, hnext]
          exact hall
        · intro i
          cases i with
          | zero => exact hzero
          | succ i =>
            rw [failsAt_cons, hnext]
            exact hnone i
      · refine Or.inr ⟨i + 1, e, ?_, ?_, ?_⟩
        · rw [List.take_succ_cons, after_cons, hnext]
          exact hall
        · rw [failsAt_cons, hnext]
          exact hfails
        · intro j hj
          cases j with
          | zero => exact hzero
          | succ j =>
            rw [failsAt_cons, hnext]
            exact hfirst j (Nat.lt_of_succ_lt_succ hj)

end Loops

/-! ## A result for each item of a list -/

section Lists

variable {ε α β : Type} {f : α → Except ε β} {l : List α} {r : List β}

theorem mapM_ok_iff : l.mapM f = .ok r ↔ List.Forall₂ (fun a b => f a = .ok b) l r := by
  induction l generalizing r with
  | nil => simp [pure, Except.pure, eq_comm]
  | cons a l ih =>
    rw [List.mapM_cons, List.forall₂_cons_left_iff]
    cases hfirst : f a with
    | error e => simp [bind, Except.bind]
    | ok b =>
      cases hrest : l.mapM f with
      | error e => simp [bind, Except.bind, ← ih, hrest]
      | ok bs => simp [bind, Except.bind, pure, Except.pure, ← ih, hrest, eq_comm]

theorem exists_mapM_ok (h : ∀ a ∈ l, ∃ b, f a = .ok b) : ∃ r, l.mapM f = .ok r := by
  induction l with
  | nil => exact ⟨[], rfl⟩
  | cons a l ih =>
    obtain ⟨⟨b, hb⟩, hl⟩ := List.forall_mem_cons.mp h
    obtain ⟨bs, hbs⟩ := ih hl
    exact ⟨b :: bs, mapM_ok_iff.mpr (.cons hb (mapM_ok_iff.mp hbs))⟩

/-- The results stand at the places of the items. -/
theorem getElem?_of_mapM_ok (h : l.mapM f = .ok r) {i : Nat} {a : α} (ha : l[i]? = some a) :
    ∃ b, r[i]? = some b ∧ f a = .ok b := by
  rw [mapM_ok_iff] at h
  induction h generalizing i with
  | nil => cases ha
  | cons hb hrest ih =>
    cases i with
    | zero =>
      cases ha
      exact ⟨_, rfl, hb⟩
    | succ i => exact ih ha

end Lists

end Exits
