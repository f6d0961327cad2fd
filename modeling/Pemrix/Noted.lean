-- Code that notes each operation it does on the way to its value, and the rules for what holds
-- of the value and of every note.
import Mathlib.Data.List.Induction

/-- Code that notes operations of type `O`. -/
abbrev Noted (O : Type) := StateM (List O)

namespace Noted

variable {O α β σ : Type}

/-- Note an operation that gives `a`. -/
def noted (op : O) (a : α) : Noted O α := do
  modify (· ++ [op])
  return a

/-- The value that the code comes to. -/
def value (x : Noted O α) : α := (x.run []).1

/-- The operations that the code does on the way. -/
def operations (x : Noted O α) : List O := (x.run []).2

theorem run_noted_bind (op : O) (a : α) (f : α → Noted O β) (before : List O) :
    (noted op a >>= f).run before = (f a).run (before ++ [op]) := rfl

/-- Every operation of the code has `P`, and its value has `Q`. -/
def Meets (P : O → Prop) (x : Noted O α) (Q : α → Prop) : Prop :=
  ∀ before, (∀ op ∈ before, P op) → Q (x.run before).1 ∧ ∀ op ∈ (x.run before).2, P op

variable {P : O → Prop} {Q R : α → Prop} {S : β → Prop} {x : Noted O α} {f : α → Noted O β}

theorem Meets.value (h : Meets P x Q) : Q x.value := (h [] (by simp)).1

theorem Meets.operations (h : Meets P x Q) : ∀ op ∈ x.operations, P op := (h [] (by simp)).2

theorem Meets.imp (h : Meets P x Q) (himp : ∀ a, Q a → R a) : Meets P x R := by
  intro before hbefore
  obtain ⟨hvalue, hops⟩ := h before hbefore
  exact ⟨himp _ hvalue, hops⟩

theorem meets_pure {a : α} (h : Q a) : Meets P (pure a) Q := fun _ hbefore => ⟨h, hbefore⟩

theorem Meets.bind (h : Meets P x Q) (hf : ∀ a, Q a → Meets P (f a) S) : Meets P (x >>= f) S := by
  intro before hbefore
  obtain ⟨hvalue, hops⟩ := h before hbefore
  exact hf _ hvalue _ hops

theorem meets_noted {op : O} {a : α} (h : P op) (hvalue : Q a) : Meets P (noted op a) Q := by
  intro before hbefore
  refine ⟨hvalue, ?_⟩
  intro o ho
  rcases List.mem_append.mp ho with hold | hnew
  · exact hbefore o hold
  · rw [List.mem_singleton.mp hnew]
    exact h

/-- The loop rule: the invariant speaks of the elements that are done. -/
theorem meets_foldlM {l : List α} {step : σ → α → Noted O σ} (I : List α → σ → Prop) {s : σ}
    (hfirst : I [] s)
    (hstep : ∀ done a later, l = done ++ a :: later → ∀ s, I done s →
      Meets P (step s a) (I (done ++ [a]))) :
    Meets P (l.foldlM step s) (I l) := by
  induction l using List.reverseRecOn with
  | nil => exact meets_pure hfirst
  | append_singleton l a ih =>
    rw [List.foldlM_append]
    refine (ih ?_).bind ?_
    · intro done b later he
      refine hstep done b (later ++ [a]) ?_
      rw [he, List.append_assoc]
      rfl
    · intro s hs
      rw [List.foldlM_cons]
      exact (hstep l a [] rfl s hs).bind fun _ => meets_pure

end Noted
