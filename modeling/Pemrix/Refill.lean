-- A first-in first-out queue that is refilled with copies of a growing list. Every
-- round puts a copy of the whole list behind what waits and takes a number of items
-- from the front. The items leave once each as long as the first copy lasts.
import Mathlib.Data.List.Basic
import Mathlib.Data.List.Infix

namespace Refill

variable {α : Type}

/-- What has left the queue, and what waits in it. -/
structure Queue (α : Type) where
  done : List α
  waiting : List α

def round (limit : Nat) (q : Queue α) (copy : List α) : Queue α where
  done := q.done ++ (q.waiting ++ copy).take limit
  waiting := (q.waiting ++ copy).drop limit

def rounds (limit : Nat) (copies : List (List α)) : Queue α := copies.foldl (round limit) ⟨[], []⟩

theorem rounds_snoc (limit : Nat) (copies : List (List α)) (copy : List α) :
    rounds limit (copies ++ [copy]) = round limit (rounds limit copies) copy := by
  unfold rounds
  rw [List.foldl_append]
  rfl

/-- Nothing is lost and nothing changes its place. -/
theorem done_append_waiting (limit : Nat) (copies : List (List α)) :
    (rounds limit copies).done ++ (rounds limit copies).waiting = copies.flatten := by
  induction copies using List.reverseRecOn with
  | nil => rfl
  | append_singleton copies copy ih =>
    rw [rounds_snoc, List.flatten_append, ← ih, List.flatten_singleton]
    unfold round
    rw [List.append_assoc, List.take_append_drop, List.append_assoc]

theorem done_isPrefix (limit : Nat) (copies : List (List α)) :
    (rounds limit copies).done <+: copies.flatten :=
  ⟨_, done_append_waiting limit copies⟩

/-- Rounds with nothing to copy do nothing before the first item. -/
theorem rounds_dropWhile (limit : Nat) (copies : List (List α)) :
    rounds limit (copies.dropWhile List.isEmpty) = rounds limit copies := by
  induction copies with
  | nil => rfl
  | cons copy copies ih =>
    cases copy with
    | nil =>
      have hround : round limit (⟨[], []⟩ : Queue α) [] = ⟨[], []⟩ := by
        unfold round
        simp
      rw [List.dropWhile_cons_of_pos rfl, ih]
      unfold rounds
      rw [List.foldl_cons, hround]
    | cons a copy => rw [List.dropWhile_cons_of_neg (by simp)]

/-! ## How many have left -/

/-- Every copy has at least `size` items. -/
theorem length_done_bounds {limit size : Nat} (hlimit : 0 < limit) (hsize : 0 < size)
    {copies : List (List α)} (h : ∀ copy ∈ copies, size ≤ copy.length) :
    (rounds limit copies).done.length ≤ limit * copies.length ∧
      (1 ≤ copies.length → size ≤ copies.flatten.length) ∧
      (2 ≤ copies.length → size < copies.flatten.length) ∧
      min (limit * copies.length) (min copies.flatten.length (size + 1)) ≤
        (rounds limit copies).done.length := by
  induction copies using List.reverseRecOn with
  | nil => simp [rounds]
  | append_singleton copies copy ih =>
    obtain ⟨hupper, hone, htwo, hlower⟩ := ih fun c hc => h c (List.mem_append_left _ hc)
    have hcopy : size ≤ copy.length := h copy (by simp)
    have hqueue := congrArg List.length (done_append_waiting limit copies)
    rw [List.length_append] at hqueue
    have hround : (round limit (rounds limit copies) copy).done.length =
        (rounds limit copies).done.length +
          min limit ((rounds limit copies).waiting.length + copy.length) := by
      unfold round
      rw [List.length_append, List.length_take, List.length_append]
    rw [rounds_snoc, hround]
    simp only [List.length_append, List.length_singleton, List.flatten_append,
      List.flatten_singleton, Nat.mul_succ]
    rcases Nat.eq_zero_or_pos copies.length with hzero | hpos
    · rw [hzero, Nat.mul_zero] at hupper ⊢
      omega
    · have hsome := hone hpos
      omega

/-! ## Each item once -/

variable {limit : Nat} {first : List α} {rest : List (List α)}

/-- No more leave than the first copy has if and only if there is one round at most, or the first
copy is enough for all rounds. -/
theorem done_length_le_iff (hlimit : 0 < limit) (hfirst : first ≠ [])
    (hgrow : ∀ copy ∈ rest, first <+: copy) :
    (rounds limit (first :: rest)).done.length ≤ first.length ↔
      (first :: rest).length ≤ 1 ∨ limit * (first :: rest).length ≤ first.length := by
  have hsize : 0 < first.length := List.length_pos_of_ne_nil hfirst
  have hcopies : ∀ copy ∈ first :: rest, first.length ≤ copy.length := by
    intro copy hcopy
    rcases List.mem_cons.mp hcopy with rfl | hrest
    · exact Nat.le_refl _
    · exact (hgrow copy hrest).length_le
  obtain ⟨hupper, -, htwo, hlower⟩ := length_done_bounds hlimit hsize hcopies
  constructor
  · intro hle
    by_contra hnot
    obtain ⟨hmany, hmore⟩ := not_or.mp hnot
    have := htwo (by omega)
    omega
  · rintro (hone | henough)
    · have hnil : rest = [] := by
        rw [List.length_cons] at hone
        exact List.length_eq_zero_iff.mp (by omega)
      subst hnil
      have hle := (done_isPrefix limit [first]).length_le
      rwa [List.flatten_singleton] at hle
    · omega

theorem done_isPrefix_first (h : (rounds limit (first :: rest)).done.length ≤ first.length) :
    (rounds limit (first :: rest)).done <+: first :=
  List.prefix_of_prefix_length_le (done_isPrefix limit (first :: rest))
    (List.prefix_append first rest.flatten) h

/-- The item after the first copy is the first item of the second copy. -/
theorem not_nodup_of_length_lt (hfirst : first ≠ []) (hgrow : ∀ copy ∈ rest, first <+: copy)
    (h : first.length < (rounds limit (first :: rest)).done.length) :
    ¬ (rounds limit (first :: rest)).done.Nodup := by
  have hdone := done_isPrefix limit (first :: rest)
  rw [List.flatten_cons] at hdone
  cases rest with
  | nil =>
    have hle := hdone.length_le
    rw [List.flatten_nil, List.append_nil] at hle
    omega
  | cons second rest =>
    obtain ⟨a, items, rfl⟩ := List.exists_cons_of_ne_nil hfirst
    obtain ⟨more, rfl⟩ := hgrow second List.mem_cons_self
    have hpre : (a :: items) ++ [a] <+: (rounds limit ((a :: items) :: (a :: items ++ more) ::
        rest)).done := by
      refine List.prefix_of_prefix_length_le ?_ hdone ?_
      · refine ⟨items ++ (more ++ rest.flatten), ?_⟩
        simp
      · rw [List.length_append, List.length_singleton]
        exact h
    intro hnodup
    have hdup := hnodup.sublist hpre.sublist
    simp at hdup

/-! ## When an item leaves -/

variable (limit) (q : Queue α) (copies : List (List α))

theorem foldl_done_append_waiting :
    (copies.foldl (round limit) q).done ++ (copies.foldl (round limit) q).waiting =
      q.done ++ (q.waiting ++ copies.flatten) := by
  induction copies generalizing q with
  | nil => rw [List.foldl_nil, List.flatten_nil, List.append_nil]
  | cons copy copies ih =>
    rw [List.foldl_cons, ih, List.flatten_cons]
    unfold round
    rw [List.append_assoc, ← List.append_assoc (List.take _ _), List.take_append_drop,
      List.append_assoc]

theorem length_foldl_le :
    (copies.foldl (round limit) q).done.length ≤ q.done.length + limit * copies.length := by
  induction copies generalizing q with
  | nil => exact Nat.le_refl _
  | cons copy copies ih =>
    have hrest := ih (round limit q copy)
    have hround : (round limit q copy).done.length ≤ q.done.length + limit := by
      unfold round
      rw [List.length_append, List.length_take]
      omega
    rw [List.foldl_cons, List.length_cons, Nat.mul_succ]
    omega

theorem le_length_foldl :
    q.done.length + min (limit * copies.length) q.waiting.length ≤
      (copies.foldl (round limit) q).done.length := by
  induction copies generalizing q with
  | nil => simp
  | cons copy copies ih =>
    have hrest := ih (round limit q copy)
    unfold round at hrest
    dsimp only at hrest
    rw [List.length_append, List.length_take, List.length_drop, List.length_append] at hrest
    rw [List.foldl_cons, List.length_cons, Nat.mul_succ]
    unfold round
    omega

variable {limit q copies}

theorem mem_prefix_iff {l items rest : List α} {a : α} (ha : a ∉ l)
    (h : items <+: l ++ a :: rest) : a ∈ items ↔ l.length < items.length := by
  rw [List.prefix_iff_eq_take.mp h, List.take_append, List.length_append, List.length_take,
    List.length_take]
  constructor
  · intro hmem
    rcases List.mem_append.mp hmem with hmem | hmem
    · exact absurd (List.mem_of_mem_take hmem) ha
    · have hpos := List.length_pos_of_mem hmem
      rw [List.length_take] at hpos
      omega
  · intro hlt
    refine List.mem_append_right _ ?_
    obtain ⟨n, hn⟩ : ∃ n, items.length - l.length = n + 1 := ⟨_, (Nat.succ_pred_eq_of_pos
      (by omega)).symm⟩
    rw [hn, List.take_succ_cons]
    exact List.mem_cons_self

/-- An item that is new in the next copy leaves as soon as the rounds have room for all that is
before it. -/
theorem mem_done_iff {a : α} {before after : List α} {rest : List (List α)}
    (hdone : a ∉ q.done) (hwaiting : a ∉ q.waiting) (hbefore : a ∉ before) :
    a ∈ (((before ++ a :: after) :: rest).foldl (round limit) q).done ↔
      q.waiting.length + before.length < limit * (rest.length + 1) := by
  have hall := foldl_done_append_waiting limit q ((before ++ a :: after) :: rest)
  have hupper := length_foldl_le limit q ((before ++ a :: after) :: rest)
  have hlower := le_length_foldl limit (round limit q (before ++ a :: after)) rest
  have hpre : (((before ++ a :: after) :: rest).foldl (round limit) q).done <+:
      (q.done ++ (q.waiting ++ before)) ++ a :: (after ++ rest.flatten) := by
    refine ⟨_, hall.trans ?_⟩
    simp
  rw [mem_prefix_iff (by simp [hdone, hwaiting, hbefore]) hpre]
  simp only [List.length_append, List.length_cons] at hupper ⊢
  rw [List.foldl_cons] at hupper ⊢
  unfold round at hlower
  simp only [List.length_append, List.length_take, List.length_drop, List.length_cons] at hlower
  rw [Nat.mul_succ] at hupper ⊢
  constructor
  · intro hlt
    omega
  · intro hlt
    unfold round at hupper ⊢
    omega

end Refill
