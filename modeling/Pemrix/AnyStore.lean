-- The store over any backend that keeps what it is given. Each write is one function
-- from a store to a store, each read after a write is a lemma, and the rules say what
-- a program of the machine can end with.
import Pemrix.Backends
import Pemrix.Exits

open Std

namespace Pemrix

/-- A backend that keeps raw entries too, and whose writes go through. -/
class LawfulStore (B : Type) [StateBackend B] : Prop extends LawfulBackend B where
  put_raw_ok : ∀ (b : B) key value, (StateBackend.put_raw b key value).1 = .ok ()
  delete_raw_ok : ∀ (b : B) key, (StateBackend.delete_raw b key).1 = .ok ()
  get_put_raw : ∀ (b : B) key value key',
    StateBackend.get_raw (StateBackend.put_raw b key value).2 key' =
      if key = key' then .ok (some value) else StateBackend.get_raw b key'
  get_delete_raw : ∀ (b : B) key key',
    StateBackend.get_raw (StateBackend.delete_raw b key).2 key' =
      if key = key' then .ok none else StateBackend.get_raw b key'
  state_root_ok : ∀ b : B, ∃ root, StateBackend.state_root b = .ok root

/-- A value as a backend gives it. -/
theorem read_insert (m : ExtTreeMap Bytes Bytes) (key key' value : Bytes) :
    (.ok (m.insert key value)[key']? : Except StorageError (Option Bytes)) =
      if key = key' then .ok (some value) else .ok m[key']? := by
  simp only [ExtTreeMap.getElem?_insert, LawfulEqCmp.compare_eq_iff_eq]
  split
  · rfl
  · rfl

theorem read_erase (m : ExtTreeMap Bytes Bytes) (key key' : Bytes) :
    (.ok (m.erase key)[key']? : Except StorageError (Option Bytes)) =
      if key = key' then .ok none else .ok m[key']? := by
  simp only [ExtTreeMap.getElem?_erase, LawfulEqCmp.compare_eq_iff_eq]
  split
  · rfl
  · rfl

section Stores

variable [Crates]

instance : LawfulStore InMemoryBackend where
  put_raw_ok _ _ _ := rfl
  delete_raw_ok _ _ := rfl
  get_put_raw b key value key' := read_insert b.raw key key' value
  get_delete_raw b key key' := read_erase b.raw key key'
  state_root_ok _ := ⟨_, rfl⟩

instance [LawfulAccounts] : LawfulStore RocksDbBackend where
  put_raw_ok _ _ _ := rfl
  delete_raw_ok _ _ := rfl
  get_put_raw b key value key' := read_insert b.db key key' value
  get_delete_raw b key key' := read_erase b.db key key'
  state_root_ok _ := ⟨_, rfl⟩

/-! ## Writes and reads -/

namespace StateStore

variable {B : Type} [StateBackend B] (s : StateStore B)

omit [Crates] in
def withAccount (a : Address) (x : Account) : StateStore B := (s.set_account a x).2

def withValidator (v : Address) (r : ValidatorRecord) : StateStore B :=
  (s.set_validator_record v r).2

/-- A delegation with an amount is written, and one with nothing left is deleted. -/
def withDelegation (d v : Address) : Option Delegation → StateStore B
  | some x => (s.set_delegation d v x).2
  | none => (s.delete_delegation d v).2

variable [LawfulStore B]

omit [Crates] in
theorem set_account_eq (a : Address) (x : Account) :
    s.set_account a x = (.ok (), s.withAccount a x) :=
  Prod.ext (s.set_account_ok a x) rfl

theorem set_validator_record_eq (v : Address) (r : ValidatorRecord) :
    s.set_validator_record v r = (.ok (), s.withValidator v r) :=
  Prod.ext (LawfulStore.put_raw_ok s.backend _ _) rfl

theorem set_delegation_eq (d v : Address) (x : Delegation) :
    s.set_delegation d v x = (.ok (), s.withDelegation d v (some x)) :=
  Prod.ext (LawfulStore.put_raw_ok s.backend _ _) rfl

theorem delete_delegation_eq (d v : Address) :
    s.delete_delegation d v = (.ok (), s.withDelegation d v none) :=
  Prod.ext (LawfulStore.delete_raw_ok s.backend _) rfl

omit [Crates] in
@[simp] theorem get_account_withAccount (a b : Address) (x : Account) :
    (s.withAccount a x).get_account b = if a = b then .ok (some x) else s.get_account b :=
  s.get_account_set_account a b x

@[simp] theorem validator_record_withAccount (a v : Address) (x : Account) :
    (s.withAccount a x).validator_record v = s.validator_record v :=
  s.validator_record_set_account a v x

@[simp] theorem delegation_withAccount (a d v : Address) (x : Account) :
    (s.withAccount a x).delegation d v = s.delegation d v :=
  s.delegation_set_account a d v x

@[simp] theorem get_account_withValidator (a v : Address) (r : ValidatorRecord) :
    (s.withValidator v r).get_account a = s.get_account a :=
  s.get_account_set_validator_record a v r

@[simp] theorem get_account_withDelegation (a d v : Address) (x : Option Delegation) :
    (s.withDelegation d v x).get_account a = s.get_account a := by
  cases x with
  | none => exact s.get_account_delete_delegation a d v
  | some x => exact s.get_account_set_delegation a d v x

omit [Crates] [LawfulStore B] in
/-- A record is read from its own key only. -/
theorem get_record_congr {T : Type} [Serde T] {s s' : StateStore B} {key : Bytes}
    (h : StateBackend.get_raw s'.backend key = StateBackend.get_raw s.backend key) :
    s'.get_record (T := T) key = s.get_record key := by
  unfold get_record
  rw [h]

@[simp] theorem delegation_withValidator (v d w : Address) (r : ValidatorRecord) :
    (s.withValidator v r).delegation d w = s.delegation d w := by
  refine get_record_congr ?_
  exact (LawfulStore.get_put_raw s.backend _ _ _).trans
    (if_neg (validator_key_ne_delegation_key v d w))

@[simp] theorem validator_record_withDelegation (d v w : Address) (x : Option Delegation) :
    (s.withDelegation d v x).validator_record w = s.validator_record w := by
  have hne := (validator_key_ne_delegation_key w d v).symm
  refine get_record_congr ?_
  cases x with
  | none => exact (LawfulStore.get_delete_raw s.backend _ _).trans (if_neg hne)
  | some x => exact (LawfulStore.get_put_raw s.backend _ _ _).trans (if_neg hne)

variable [LawfulRecords]

@[simp] theorem validator_record_withValidator (v w : Address) (r : ValidatorRecord) :
    (s.withValidator v r).validator_record w =
      if v = w then .ok (some r) else s.validator_record w := by
  have hraw := LawfulStore.get_put_raw s.backend (validator_key v) (encode r) (validator_key w)
  split
  · rename_i h
    subst h
    rw [if_pos rfl] at hraw
    unfold validator_record get_record
    rw [show StateBackend.get_raw (s.withValidator v r).backend (validator_key v) = _ from hraw]
    simp only [LawfulRecords.validator_record]
  · rename_i h
    exact get_record_congr (hraw.trans (if_neg fun hkey => h (validator_key_inj hkey)))

@[simp] theorem delegation_withDelegation (d v d' w : Address) (x : Option Delegation) :
    (s.withDelegation d v x).delegation d' w =
      if (d, v) = (d', w) then .ok x else s.delegation d' w := by
  split
  · rename_i h
    cases h
    unfold delegation get_record
    cases x with
    | none =>
      have hraw := LawfulStore.get_delete_raw s.backend (delegation_key d v) (delegation_key d v)
      rw [if_pos rfl] at hraw
      rw [show StateBackend.get_raw (s.withDelegation d v none).backend (delegation_key d v) = _
        from hraw]
    | some x =>
      have hraw := LawfulStore.get_put_raw s.backend (delegation_key d v) (encode x)
        (delegation_key d v)
      rw [if_pos rfl] at hraw
      rw [show StateBackend.get_raw (s.withDelegation d v (some x)).backend (delegation_key d v) = _
        from hraw]
      simp only [LawfulRecords.delegation]
  · rename_i h
    have hne := delegation_key_ne h
    refine get_record_congr ?_
    cases x with
    | none => exact (LawfulStore.get_delete_raw s.backend _ _).trans (if_neg hne)
    | some x => exact (LawfulStore.get_put_raw s.backend _ _ _).trans (if_neg hne)

omit [LawfulRecords] [LawfulStore B] [Crates] in
theorem balance_of_get_account {s : StateStore B} {a : Address} {x : Option Account}
    (h : s.get_account a = .ok x) : s.balance a = .ok (x.getD default).balance := by
  unfold balance
  rw [h]
  cases x with
  | none => rfl
  | some x => rfl

end StateStore

end Stores

/-! ## What a program of the machine ends with -/

section Rules

variable {B ε α β : Type}

/-- From the store, the program ends with a result and a store that meet `Q`. -/
def EndsIn (x : Exec B ε α) (s : StateStore B) (Q : Except ε α → StateStore B → Prop) : Prop :=
  ∀ ops, Exits.Ends x ⟨s, ops⟩ fun r m => Q r m.store

variable {s s' : StateStore B} {Q : Except ε α → StateStore B → Prop}

theorem endsIn_pure {v : α} (h : Q (.ok v) s) : EndsIn (pure v : Exec B ε α) s Q :=
  fun _ => Exits.ends_pure h

theorem endsIn_throw {e : ε} (h : Q (.error e) s) : EndsIn (throw e : Exec B ε α) s Q :=
  fun _ => Exits.ends_throw h

theorem endsIn_check {c : Prop} [Decidable c] {e : ε} {k : Unit → Exec B ε α}
    (hthrow : c → Q (.error e) s) (hk : ¬ c → EndsIn (k ()) s Q) :
    EndsIn (if c then (throw e >>= k) else k ()) s Q :=
  fun ops => Exits.ends_check hthrow fun hc => hk hc ops

theorem endsIn_ite {c : Prop} [Decidable c] {x y : Exec B ε α} (hx : c → EndsIn x s Q)
    (hy : ¬ c → EndsIn y s Q) : EndsIn (if c then x else y) s Q :=
  fun ops => Exits.ends_ite (fun hc => hx hc ops) fun hc => hy hc ops

/-- The first part as a whole. -/
theorem endsIn_bind {x : Exec B ε β} {k : β → Exec B ε α}
    {P : Except ε β → StateStore B → Prop} (hx : EndsIn x s P)
    (herr : ∀ e s', P (.error e) s' → Q (.error e) s')
    (hok : ∀ v s', P (.ok v) s' → EndsIn (k v) s' Q) : EndsIn (x >>= k) s Q := by
  intro ops
  refine Exits.ends_bind ((hx ops).mono ?_)
  rintro (e | v) m hP
  · exact herr e m.store hP
  · exact hok v m.store hP m.ops

theorem endsIn_or_storage {x : Exec B StorageError α} {P : Except VmError α → StateStore B → Prop}
    (hx : EndsIn x s fun r s' => P (r.mapError fun _ => .Storage) s') :
    EndsIn (Exec.or_storage x) s P := hx

/-- An operation on `u128` goes on with its value. -/
theorem endsIn_arith {op : ArithOp} {v : β} {k : β → Exec B ε α} (hk : EndsIn (k v) s Q) :
    EndsIn ((do Exec.note op; return v) >>= k) s Q := fun ops => hk (ops ++ [op])

theorem endsIn_get {f : StateStore B → Except StorageError β} {k : β → Exec B StorageError α}
    {Q : Except StorageError α → StateStore B → Prop} (herr : ∀ e, f s = .error e → Q (.error e) s)
    (hok : ∀ v, f s = .ok v → EndsIn (k v) s Q) : EndsIn (Exec.read f >>= k) s Q := by
  refine endsIn_bind (P := fun r t => s = t ∧ f s = r) (fun _ => ⟨rfl, rfl⟩) ?_ ?_
  · rintro e _ ⟨rfl, he⟩
    exact herr e he
  · rintro v _ ⟨rfl, hv⟩
    exact hok v hv

theorem endsIn_put {f : StateStore B → Except StorageError Unit × StateStore B}
    {Q : Except StorageError Unit → StateStore B → Prop} (hf : f s = (.ok (), s'))
    (hQ : Q (.ok ()) s') : EndsIn (Exec.write f) s Q := by
  intro ops
  show Q (f s).1 (f s).2
  rw [hf]
  exact hQ

variable {Q : Except VmError α → StateStore B → Prop}

theorem endsIn_read {f : StateStore B → Except StorageError β} {k : β → Exec B VmError α}
    (herr : ∀ e, f s = .error e → Q (.error .Storage) s)
    (hok : ∀ v, f s = .ok v → EndsIn (k v) s Q) :
    EndsIn (Exec.or_storage (Exec.read f) >>= k) s Q := by
  refine endsIn_bind (P := fun r t => s = t ∧ (f s).mapError (fun _ => .Storage) = r)
    (fun _ => ⟨rfl, rfl⟩) ?_ ?_
  · rintro e _ ⟨rfl, he⟩
    rcases hf : f s with err | v
    · rw [hf] at he
      cases he
      exact herr err hf
    · rw [hf] at he
      cases he
  · rintro v _ ⟨rfl, hv⟩
    rcases hf : f s with err | w
    · rw [hf] at hv
      cases hv
    · rw [hf] at hv
      cases hv
      exact hok _ hf

/-- A read whose value is known. -/
theorem endsIn_read_ok {f : StateStore B → Except StorageError β} {k : β → Exec B VmError α} {v : β}
    (hf : f s = .ok v) (hk : EndsIn (k v) s Q) :
    EndsIn (Exec.or_storage (Exec.read f) >>= k) s Q := by
  refine endsIn_read ?_ ?_
  · intro e he
    cases hf.symm.trans he
  · intro w hw
    cases hf.symm.trans hw
    exact hk

/-- A write goes on with the new store. -/
theorem endsIn_write {f : StateStore B → Except StorageError Unit × StateStore B}
    {k : Unit → Exec B VmError α} (hf : f s = (.ok (), s')) (hk : EndsIn (k ()) s' Q) :
    EndsIn (Exec.or_storage (Exec.write f) >>= k) s Q := by
  refine endsIn_bind (P := fun r t => r = .ok () ∧ t = s') ?_ ?_ ?_
  · exact endsIn_or_storage (endsIn_put hf ⟨rfl, rfl⟩)
  · rintro e _ ⟨he, -⟩
    cases he
  · rintro ⟨⟩ _ ⟨-, rfl⟩
    exact hk

end Rules

end Pemrix
