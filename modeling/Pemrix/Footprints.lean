-- Steps that commute. A machine runs steps on states, and a step is local if what it
-- sees of a state decides its result and its writes. Two steps commute if neither
-- sees what the other owns and their writes can be swapped.
import Mathlib.Data.List.Basic
import Std.Data.ExtTreeMap.Lemmas

open Std

namespace Footprints

/-! ## Changes of one entry of a map -/

section Maps

variable {α β : Type} {cmp : α → α → Ordering} [TransCmp cmp] [LawfulEqCmp cmp]
  (m : ExtTreeMap α β cmp)

theorem getElem?_alter_of_ne {a k : α} (h : a ≠ k) (f : Option β → Option β) :
    (m.alter a f)[k]? = m[k]? := by
  rw [ExtTreeMap.getElem?_alter, if_neg (mt LawfulEqCmp.compare_eq_iff_eq.mp h)]

/-- Changes of two entries can be swapped. -/
theorem alter_comm_of_ne {a b : α} (h : a ≠ b) (f g : Option β → Option β) :
    (m.alter a f).alter b g = (m.alter b g).alter a f := by
  apply ExtTreeMap.ext_getElem?
  intro k
  by_cases hb : b = k
  · subst hb
    rw [ExtTreeMap.getElem?_alter_self, getElem?_alter_of_ne _ h, getElem?_alter_of_ne _ h,
      ExtTreeMap.getElem?_alter_self]
  · rw [getElem?_alter_of_ne _ hb]
    by_cases ha : a = k
    · subst ha
      rw [ExtTreeMap.getElem?_alter_self, ExtTreeMap.getElem?_alter_self, getElem?_alter_of_ne _ hb]
    · rw [getElem?_alter_of_ne _ ha, getElem?_alter_of_ne _ ha, getElem?_alter_of_ne _ hb]

/-- Changes of one entry can be swapped if the functions can. -/
theorem alter_comm {f g : Option β → Option β} (h : ∀ x, g (f x) = f (g x)) (a b : α) :
    (m.alter a f).alter b g = (m.alter b g).alter a f := by
  by_cases hab : a = b
  · subst hab
    apply ExtTreeMap.ext_getElem?
    intro k
    by_cases hk : a = k
    · subst hk
      simp only [ExtTreeMap.getElem?_alter_self, h]
    · simp only [getElem?_alter_of_ne _ hk]
  · exact alter_comm_of_ne m hab f g

theorem alter_const (a : α) (x : β) : m.alter a (fun _ => some x) = m.insert a x := by
  apply ExtTreeMap.ext_getElem?
  intro k
  rw [ExtTreeMap.getElem?_alter, ExtTreeMap.getElem?_insert]

theorem alter_none (a : α) : m.alter a (fun _ => none) = m.erase a := by
  apply ExtTreeMap.ext_getElem?
  intro k
  rw [ExtTreeMap.getElem?_alter, ExtTreeMap.getElem?_erase]

end Maps

/-! ## Writes one after the other -/

variable {S T R W : Type}

/-- If one write can be swapped with each of a list, it can be swapped with the list. -/
theorem foldl_comm_one {write : S → W → S} {v : W} {ws : List W}
    (h : ∀ w ∈ ws, ∀ s, write (write s v) w = write (write s w) v) (s : S) :
    ws.foldl write (write s v) = write (ws.foldl write s) v := by
  induction ws generalizing s with
  | nil => rfl
  | cons w ws ih =>
    simp only [List.foldl_cons]
    rw [h w List.mem_cons_self, ih fun w' hw' => h w' (List.mem_cons_of_mem w hw')]

theorem foldl_comm {write : S → W → S} {vs ws : List W}
    (h : ∀ v ∈ vs, ∀ w ∈ ws, ∀ s, write (write s v) w = write (write s w) v) (s : S) :
    ws.foldl write (vs.foldl write s) = vs.foldl write (ws.foldl write s) := by
  induction vs generalizing s with
  | nil => rfl
  | cons v vs ih =>
    simp only [List.foldl_cons]
    rw [ih fun v' hv' => h v' (List.mem_cons_of_mem v hv'), foldl_comm_one (h v List.mem_cons_self)]

/-! ## Machines -/

/-- Steps on the states that keep an invariant, with what a step sees and what it owns. -/
structure Machine (S T R W : Type) where
  run : S → T → R × S
  write : S → W → S
  Inv : S → Prop
  /-- The second state looks to the step as the first one. -/
  Sees : T → S → S → Prop
  /-- The step may do the write. -/
  Owns : T → W → Prop

namespace Machine

variable (M : Machine S T R W)

/-- At each state that looks like `s`, the step has this result and does these writes. -/
structure Acts (t : T) (s : S) (r : R) (ws : List W) : Prop where
  owns : ∀ w ∈ ws, M.Owns t w
  run : ∀ s', M.Inv s' → M.Sees t s s' → M.run s' t = (r, ws.foldl M.write s')

/-- What a step sees decides what it does. -/
structure IsLocal : Prop where
  refl : ∀ t s, M.Sees t s s
  trans : ∀ {t s s' s''}, M.Sees t s s' → M.Sees t s' s'' → M.Sees t s s''
  keeps : ∀ {s} t, M.Inv s → M.Inv (M.run s t).2
  acts : ∀ t {s}, M.Inv s → ∃ r ws, M.Acts t s r ws

/-- No step sees what the other one owns, and what they own can be swapped. -/
structure Independent (t t' : T) : Prop where
  sees : ∀ s w, M.Owns t w → M.Sees t' s (M.write s w)
  sees' : ∀ s w, M.Owns t' w → M.Sees t s (M.write s w)
  comm : ∀ s v w, M.Owns t v → M.Owns t' w →
    M.write (M.write s v) w = M.write (M.write s w) v

variable {M}

/-- The writes of a step are not seen by a step that sees none of them. -/
theorem IsLocal.sees_writes (hM : M.IsLocal) {t : T} {ws : List W}
    (h : ∀ w ∈ ws, ∀ s, M.Sees t s (M.write s w)) (s : S) : M.Sees t s (ws.foldl M.write s) := by
  induction ws generalizing s with
  | nil => exact hM.refl t s
  | cons w ws ih =>
    have hrest := ih (fun w' hw' => h w' (List.mem_cons_of_mem w hw')) (M.write s w)
    exact hM.trans (h w List.mem_cons_self s) hrest

/-- Independent steps have the same results and the same end in both orders. -/
theorem IsLocal.commute (hM : M.IsLocal) {t t' : T} (h : M.Independent t t') {s : S}
    (hs : M.Inv s) :
    (M.run (M.run s t).2 t').1 = (M.run s t').1 ∧ (M.run (M.run s t').2 t).1 = (M.run s t).1 ∧
      (M.run (M.run s t).2 t').2 = (M.run (M.run s t').2 t).2 := by
  obtain ⟨r, ws, hacts⟩ := hM.acts t hs
  obtain ⟨r', ws', hacts'⟩ := hM.acts t' hs
  have hrun := hacts.run s hs (hM.refl t s)
  have hrun' := hacts'.run s hs (hM.refl t' s)
  have hinv := hM.keeps t hs
  have hinv' := hM.keeps t' hs
  rw [hrun] at hinv
  rw [hrun'] at hinv'
  have hafter := hacts'.run _ hinv
    (hM.sees_writes (fun w hw s => h.sees s w (hacts.owns w hw)) s)
  have hafter' := hacts.run _ hinv'
    (hM.sees_writes (fun w hw s => h.sees' s w (hacts'.owns w hw)) s)
  rw [hrun, hrun', hafter, hafter']
  refine ⟨rfl, rfl, ?_⟩
  exact foldl_comm (fun v hv w hw s => h.comm s v w (hacts.owns v hv) (hacts'.owns w hw)) s

end Machine

end Footprints
