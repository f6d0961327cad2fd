-- Slashing and jailing of validators (`pemrix-consensus/src/slashing.rs`), and
-- the law of the jail terms: in a run of slashes and releases no validator is
-- active before its terms are over, as long as no slash cuts a term short.
import Pemrix.Primitives

open Std

namespace Pemrix

/-- Evidence of misbehavior. -/
inductive Misbehavior where
  | DoubleSign (height round : UInt64)
  | Downtime (missed window : UInt64)
  | Equivocation (height round : UInt64)
  deriving DecidableEq

/-- The parameters of slashing: shares of the stake in basis points, jail durations in
blocks. -/
structure SlashingPolicy where
  double_sign_bps : UInt16
  downtime_bps : UInt16
  equivocation_bps : UInt16
  double_sign_jail_blocks : UInt64
  downtime_jail_blocks : UInt64
  equivocation_jail_blocks : UInt64
  downtime_threshold_ratio : UInt8
  deriving DecidableEq

namespace SlashingPolicy

protected def default : SlashingPolicy where
  double_sign_bps := 500
  downtime_bps := 10
  equivocation_bps := 100
  double_sign_jail_blocks := 60 * 24 * 60
  downtime_jail_blocks := 7 * 24 * 60
  equivocation_jail_blocks := 14 * 24 * 60
  downtime_threshold_ratio := 50

/-- The pair `(slash_bps, jail_blocks)` that `apply_slash` picks. -/
def penalty (policy : SlashingPolicy) : Misbehavior → UInt16 × UInt64
  | .DoubleSign _ _ => (policy.double_sign_bps, policy.double_sign_jail_blocks)
  | .Downtime _ _ => (policy.downtime_bps, policy.downtime_jail_blocks)
  | .Equivocation _ _ => (policy.equivocation_bps, policy.equivocation_jail_blocks)

end SlashingPolicy

/-- The amount slashed, and the record after it. -/
def apply_slash (record : ValidatorRecord) (misbehavior : Misbehavior) (current_height : UInt64)
    (policy : SlashingPolicy) : Balance × ValidatorRecord :=
  let (slash_bps, jail_blocks) := policy.penalty misbehavior
  let stake := record.total_stake
  let slash_amount := stake * BitVec.ofNat 128 slash_bps.toNat / 10000
  let record := { record with status := .Jailed, jailed_until := current_height + jail_blocks }
  if slash_amount ≤ record.self_stake then
    (slash_amount, { record with self_stake := record.self_stake - slash_amount })
  else
    let remaining := slash_amount - record.self_stake
    (slash_amount, { record with
      self_stake := 0, delegated_stake := U128.saturating_sub record.delegated_stake remaining })

def is_jailed (record : ValidatorRecord) (current_height : UInt64) : Bool :=
  record.status = .Jailed ∧ current_height < record.jailed_until

/-- The body of the loop of `release_validators`. -/
def release_validator (record : ValidatorRecord) (current_height : UInt64) : ValidatorRecord :=
  if record.status = .Jailed ∧ record.jailed_until ≤ current_height then
    { record with status := .Active, jailed_until := 0 }
  else record

def release_validators (records : ExtTreeMap Address ValidatorRecord) (current_height : UInt64) :
    ExtTreeMap Address ValidatorRecord :=
  records.map fun _ record => release_validator record current_height

/-! ## One record -/

section Record

variable (record : ValidatorRecord) (misbehavior : Misbehavior) (height : UInt64)
  (policy : SlashingPolicy)

@[simp] theorem apply_slash_status :
    (apply_slash record misbehavior height policy).2.status = .Jailed := by
  unfold apply_slash
  dsimp only
  split
  · rfl
  · rfl

@[simp] theorem apply_slash_jailed_until :
    (apply_slash record misbehavior height policy).2.jailed_until =
      height + (policy.penalty misbehavior).2 := by
  unfold apply_slash
  dsimp only
  split
  · rfl
  · rfl

/-- A share of at most 10000 basis points is at most the whole, if the product does not
overflow. -/
theorem share_le {stake : U128} {bps : UInt16} (hbps : bps ≤ 10000)
    (hfits : stake.toNat * 10000 < 2 ^ 128) :
    (stake * BitVec.ofNat 128 bps.toNat / 10000).toNat ≤ stake.toNat := by
  have hbps : bps.toNat ≤ 10000 := UInt16.le_iff_toNat_le.mp hbps
  have hsmall : (BitVec.ofNat 128 bps.toNat).toNat = bps.toNat := by
    rw [BitVec.toNat_ofNat, Nat.mod_eq_of_lt (by omega)]
  have hmul : stake.toNat * bps.toNat ≤ stake.toNat * 10000 := Nat.mul_le_mul_left _ hbps
  have hten : (10000 : U128).toNat = 10000 := rfl
  rw [BitVec.toNat_udiv, BitVec.toNat_mul, hsmall, hten, Nat.mod_eq_of_lt (by omega)]
  omega

/-- What is slashed leaves the stake of the record. -/
theorem apply_slash_stake (hbps : (policy.penalty misbehavior).1 ≤ 10000)
    (hfits : (record.self_stake.toNat + record.delegated_stake.toNat) * 10000 < 2 ^ 128) :
    (apply_slash record misbehavior height policy).1.toNat +
      ((apply_slash record misbehavior height policy).2.self_stake.toNat +
        (apply_slash record misbehavior height policy).2.delegated_stake.toNat) =
      record.self_stake.toNat + record.delegated_stake.toNat := by
  have htotal : record.total_stake.toNat =
      record.self_stake.toNat + record.delegated_stake.toNat := by
    unfold ValidatorRecord.total_stake
    rw [U128.toNat_saturating_add]
    omega
  have hle := share_le hbps (htotal ▸ hfits)
  unfold apply_slash
  dsimp only
  generalize record.total_stake * BitVec.ofNat 128 (policy.penalty misbehavior).1.toNat / 10000 =
    slash_amount at hle
  split
  · rename_i hself
    have := BitVec.le_def.mp hself
    dsimp only
    rw [U128.toNat_sub hself]
    omega
  · rename_i hself
    have hself := BitVec.not_le.mp hself
    have hlt := BitVec.lt_def.mp hself
    have hrest := U128.toNat_sub (BitVec.le_of_lt hself)
    have hcovered : slash_amount - record.self_stake ≤ record.delegated_stake := by
      rw [BitVec.le_def, hrest]
      omega
    have hzero : (0 : U128).toNat = 0 := rfl
    dsimp only
    rw [U128.saturating_sub_of_le hcovered, U128.toNat_sub hcovered, hrest, hzero]
    omega

/-- A release leaves a jailed record, or the record is no longer jailed. -/
theorem release_validator_of_is_jailed (h : is_jailed record height = true) :
    release_validator record height = record := by
  unfold is_jailed at h
  unfold release_validator
  rw [decide_eq_true_eq] at h
  rw [if_neg]
  rintro ⟨-, hle⟩
  exact absurd h.2 (UInt64.not_lt.mpr hle)

theorem release_validator_of_not_is_jailed (h : is_jailed record height = false) :
    (release_validator record height).status ≠ .Jailed := by
  unfold is_jailed at h
  unfold release_validator
  rw [decide_eq_false_iff_not] at h
  split
  · simp
  · rename_i hkeep
    intro hjailed
    refine hkeep ⟨hjailed, UInt64.not_lt.mp ?_⟩
    intro hlt
    exact h ⟨hjailed, hlt⟩

end Record

/-! ## Runs of slashes and releases -/

/-- One call at a height: a slash of a stored record, or a release over all records. -/
inductive JailCall where
  | slash (validator : Address) (misbehavior : Misbehavior) (policy : SlashingPolicy)
      (height : UInt64)
  | release (height : UInt64)
  deriving DecidableEq

namespace JailCall

def height : JailCall → UInt64
  | .slash _ _ _ height => height
  | .release height => height

def run (records : ExtTreeMap Address ValidatorRecord) :
    JailCall → ExtTreeMap Address ValidatorRecord
  | .slash validator misbehavior policy height =>
    match records[validator]? with
    | none => records
    | some record => records.insert validator (apply_slash record misbehavior height policy).2
  | .release height => release_validators records height

/-- What the call does to the record of `v`. -/
def on (v : Address) (record : ValidatorRecord) : JailCall → ValidatorRecord
  | .slash validator misbehavior policy height =>
    if validator = v then (apply_slash record misbehavior height policy).2 else record
  | .release height => release_validator record height

theorem getElem?_run (records : ExtTreeMap Address ValidatorRecord) (c : JailCall) (v : Address) :
    (c.run records)[v]? = records[v]?.map fun record => c.on v record := by
  cases c with
  | slash validator misbehavior policy height =>
    simp only [run, on]
    cases hrecord : records[validator]? with
    | none =>
      by_cases hv : validator = v
      · subst hv
        simp [hrecord]
      · simp [hv]
    | some record =>
      rw [ExtTreeMap.getElem?_insert]
      by_cases hv : validator = v
      · subst hv
        simp [hrecord]
      · simp [hv]
  | release height =>
    simp only [run, on, release_validators]
    rw [ExtTreeMap.getElem?_map]

/-- The term that a slash imposes ends at a `u64` height, and not before a term that the
validator still has to serve. -/
def Meets (records : ExtTreeMap Address ValidatorRecord) : JailCall → Prop
  | .slash validator misbehavior policy height =>
    ∀ record, records[validator]? = some record →
      height.toNat + (policy.penalty misbehavior).2.toNat < 2 ^ 64 ∧
      (record.status = .Jailed →
        record.jailed_until.toNat ≤ height.toNat + (policy.penalty misbehavior).2.toNat)
  | .release _ => True

instance (records : ExtTreeMap Address ValidatorRecord) (c : JailCall) :
    Decidable (c.Meets records) :=
  match c with
  | .slash validator _ _ _ =>
    match h : records[validator]? with
    | none => isTrue fun _ hrecord => by cases h.symm.trans hrecord
    | some _ => decidable_of_iff _
        ⟨fun hterm _ hrecord => Option.some.inj (h.symm.trans hrecord) ▸ hterm,
          fun hall => hall _ h⟩
  | .release _ => isTrue trivial

end JailCall

def runJail (records : ExtTreeMap Address ValidatorRecord) (calls : List JailCall) :
    ExtTreeMap Address ValidatorRecord :=
  calls.foldl JailCall.run records

/-- Each call of the run meets the condition on the records before it. -/
def JailRunMeets (records : ExtTreeMap Address ValidatorRecord) (calls : List JailCall) : Prop :=
  ∀ earlier c later, calls = earlier ++ c :: later → c.Meets (runJail records earlier)

/-- The calls come at heights that never go down. -/
def HeightsRise (calls : List JailCall) : Prop := calls.Pairwise fun c c' => c.height ≤ c'.height

/-- The jail terms are served in the run. -/
structure TermsServed (records : ExtTreeMap Address ValidatorRecord) (calls : List JailCall) :
    Prop where
  -- After the call `c`, a validator that was slashed and has not served its term is not active.
  inactive : ∀ earlier c later, calls = earlier ++ c :: later →
    ∀ v misbehavior policy height, .slash v misbehavior policy height ∈ earlier ++ [c] →
      c.height.toNat < height.toNat + (policy.penalty misbehavior).2.toNat →
      ∀ record : ValidatorRecord, (runJail records (earlier ++ [c]))[v]? = some record →
        record.status ≠ .Active
  -- The call `c` does not lower the end of the term of a validator that stays in jail.
  until_rises : ∀ earlier c later, calls = earlier ++ c :: later →
    ∀ (v : Address) (record record' : ValidatorRecord),
      (runJail records earlier)[v]? = some record →
      (runJail records (earlier ++ [c]))[v]? = some record' →
      record.status = .Jailed → record'.status = .Jailed →
      record.jailed_until ≤ record'.jailed_until

section Runs

variable {records : ExtTreeMap Address ValidatorRecord} {calls : List JailCall} {c : JailCall}
  {v : Address} {record : ValidatorRecord}

theorem runJail_snoc (records : ExtTreeMap Address ValidatorRecord) (calls : List JailCall)
    (c : JailCall) : runJail records (calls ++ [c]) = c.run (runJail records calls) := by
  unfold runJail
  rw [List.foldl_append]
  rfl

theorem JailRunMeets.of_prefix {later : List JailCall} (h : JailRunMeets records (calls ++ later)) :
    JailRunMeets records calls := by
  intro earlier c rest he
  refine h earlier c (rest ++ later) ?_
  rw [he, List.append_assoc]
  rfl

theorem jailRunMeets_cons (h : c.Meets records) (hrest : JailRunMeets (c.run records) calls) :
    JailRunMeets records (c :: calls) := by
  intro earlier c' later he
  cases earlier with
  | nil =>
    cases he
    exact h
  | cons c₁ earlier =>
    cases he
    exact hrest earlier c' later rfl

theorem jailRunMeets_nil : JailRunMeets records [] := by
  intro earlier c later he
  simp at he

/-- The validator is in jail until height `n` at least. -/
def Serves (record : ValidatorRecord) (n : Nat) : Prop :=
  record.status = .Jailed ∧ n ≤ record.jailed_until.toNat

theorem Serves.is_jailed {n : Nat} (h : Serves record n) {height : UInt64}
    (hlt : height.toNat < n) : is_jailed record height = true := by
  unfold Pemrix.is_jailed
  rw [decide_eq_true_eq]
  exact ⟨h.1, UInt64.lt_iff_toNat_lt.mpr (by have := h.2; omega)⟩

theorem toNat_until {height blocks : UInt64} (h : height.toNat + blocks.toNat < 2 ^ 64) :
    (height + blocks).toNat = height.toNat + blocks.toNat := by
  rw [UInt64.toNat_add, Nat.mod_eq_of_lt h]

/-- What one call preserves: before height `n` a jailed validator stays in jail until `n`. -/
theorem Serves.step {n : Nat} (h : Serves record n) (hrecord : records[v]? = some record)
    (hmeets : c.Meets records) (hlt : c.height.toNat < n) : Serves (c.on v record) n := by
  cases c with
  | slash validator misbehavior policy height =>
    simp only [JailCall.on]
    split
    · rename_i hv
      subst hv
      obtain ⟨hfits, hlater⟩ := hmeets record hrecord
      have hend := hlater h.1
      refine ⟨apply_slash_status _ _ _ _, ?_⟩
      rw [apply_slash_jailed_until, toNat_until hfits]
      have := h.2
      omega
    · exact h
  | release height =>
    simp only [JailCall.on]
    rw [release_validator_of_is_jailed record height (h.is_jailed hlt)]
    exact h

/-- The term that a slash imposes begins with it. -/
theorem serves_of_slash {misbehavior : Misbehavior} {policy : SlashingPolicy} {height : UInt64}
    (hrecord : records[v]? = some record)
    (hmeets : (JailCall.slash v misbehavior policy height).Meets records) :
    Serves ((JailCall.slash v misbehavior policy height).on v record)
      (height.toNat + (policy.penalty misbehavior).2.toNat) := by
  obtain ⟨hfits, -⟩ := hmeets record hrecord
  simp only [JailCall.on, if_true]
  refine ⟨apply_slash_status _ _ _ _, ?_⟩
  rw [apply_slash_jailed_until, toNat_until hfits]

/-- What a whole run preserves. -/
theorem serves_runJail {misbehavior : Misbehavior} {policy : SlashingPolicy} {height : UInt64}
    (hmeets : JailRunMeets records calls) (hrise : HeightsRise calls)
    (hslash : .slash v misbehavior policy height ∈ calls)
    (hlast : ∀ c ∈ calls.getLast?, c.height.toNat <
      height.toNat + (policy.penalty misbehavior).2.toNat)
    (hrecord : (runJail records calls)[v]? = some record) :
    Serves record (height.toNat + (policy.penalty misbehavior).2.toNat) := by
  -- On the calls from the last one back: a term that is running there was running before.
  induction calls using List.reverseRecOn generalizing record with
  | nil => simp at hslash
  | append_singleton calls c ih =>
    have hc := hmeets calls c [] rfl
    have hheight := hlast c (by simp)
    rw [runJail_snoc, JailCall.getElem?_run] at hrecord
    obtain ⟨old, hold, rfl⟩ := Option.map_eq_some_iff.mp hrecord
    rcases List.mem_append.mp hslash with hin | hin
    · refine (ih hmeets.of_prefix (List.pairwise_append.mp hrise).1 hin ?_ hold).step
        hold hc hheight
      intro c' hc'
      have hle : c'.height ≤ c.height :=
        (List.pairwise_append.mp hrise).2.2 c' (List.mem_of_mem_getLast? hc') c (by simp)
      exact Nat.lt_of_le_of_lt (UInt64.le_iff_toNat_le.mp hle) hheight
    · rw [List.mem_singleton] at hin
      subst hin
      exact serves_of_slash hold hc

/-- A call that meets the condition does not lower the end of a term. -/
theorem until_rises_of_meets (hrecord : records[v]? = some record) (hmeets : c.Meets records)
    (hjailed : record.status = .Jailed) (hstays : (c.on v record).status = .Jailed) :
    record.jailed_until ≤ (c.on v record).jailed_until := by
  cases c with
  | slash validator misbehavior policy height =>
    simp only [JailCall.on]
    split
    · rename_i hv
      subst hv
      obtain ⟨hfits, hlater⟩ := hmeets record hrecord
      rw [apply_slash_jailed_until, UInt64.le_iff_toNat_le, toNat_until hfits]
      exact hlater hjailed
    · exact UInt64.le_refl _
  | release height =>
    simp only [JailCall.on] at hstays ⊢
    cases hin : is_jailed record height with
    | true =>
      rw [release_validator_of_is_jailed record height hin]
      exact UInt64.le_refl _
    | false => exact absurd hstays (release_validator_of_not_is_jailed record height hin)

/-- In every run at rising heights whose slashes cut no term short, the jail terms are
served. -/
theorem jail_terms_are_served (records : ExtTreeMap Address ValidatorRecord)
    (calls : List JailCall) (hrise : HeightsRise calls) (hmeets : JailRunMeets records calls) :
    TermsServed records calls := by
  refine ⟨?_, ?_⟩
  · intro earlier c later he v misbehavior policy height hslash hlt record hrecord hactive
    have he' : calls = (earlier ++ [c]) ++ later := by simpa using he
    subst he'
    have hserves := serves_runJail hmeets.of_prefix (List.pairwise_append.mp hrise).1 hslash
      (fun c' hc' => by simp at hc'; subst hc'; exact hlt) hrecord
    rw [hserves.1] at hactive
    cases hactive
  · intro earlier c later he v record record' hrecord hrecord' hjailed hstays
    rw [runJail_snoc, JailCall.getElem?_run, hrecord] at hrecord'
    cases hrecord'
    exact until_rises_of_meets hrecord (hmeets earlier c later he) hjailed hstays

/-- The condition is no stronger than it has to be: a slash that breaks it cuts a term short
at once, or it does so when a release follows at the same height. -/
theorem not_served_of_not_meets (calls : List JailCall) (h : ¬ c.Meets (runJail records calls)) :
    ¬ TermsServed records (calls ++ [c, .release c.height]) := by
  intro hserved
  cases c with
  | release height => exact h trivial
  | slash v misbehavior policy height =>
    simp only [JailCall.Meets, not_forall] at h
    obtain ⟨record, hrecord, hbreaks⟩ := h
    have hslashed : (runJail records (calls ++ [.slash v misbehavior policy height]))[v]? =
        some (apply_slash record misbehavior height policy).2 := by
      rw [runJail_snoc, JailCall.getElem?_run, hrecord]
      simp [JailCall.on]
    by_cases hfits : height.toNat + (policy.penalty misbehavior).2.toNat < 2 ^ 64
    · simp only [hfits, true_and, Classical.not_imp, Nat.not_le] at hbreaks
      have hle := hserved.until_rises calls _ [.release height] rfl v _ _ hrecord hslashed
        hbreaks.1 (apply_slash_status _ _ _ _)
      rw [apply_slash_jailed_until, UInt64.le_iff_toNat_le, toNat_until hfits] at hle
      omega
    · -- The end of the term wraps to a height that has passed.
      have hblocks := (policy.penalty misbehavior).2.toNat_lt
      have hheight := height.toNat_lt
      have hwraps : height + (policy.penalty misbehavior).2 ≤ height := by
        rw [UInt64.le_iff_toNat_le, UInt64.toNat_add]
        omega
      have hreleased : (runJail records (calls ++ [.slash v misbehavior policy height] ++
          [.release height]))[v]? =
          some (release_validator (apply_slash record misbehavior height policy).2 height) := by
        rw [runJail_snoc, JailCall.getElem?_run, hslashed]
        rfl
      refine hserved.inactive (calls ++ [.slash v misbehavior policy height]) (.release height) []
        (by simp [JailCall.height]) v misbehavior policy height (by simp) ?_ _ hreleased ?_
      · simp only [JailCall.height]
        omega
      · unfold release_validator
        rw [apply_slash_status, apply_slash_jailed_until, if_pos ⟨rfl, hwraps⟩]

end Runs

end Pemrix

/-! ## Two slashes of one validator -/

namespace Pemrix.Jail

def offender : Address := ⟨Vector.replicate 32 7⟩

def records : ExtTreeMap Address ValidatorRecord :=
  (∅ : ExtTreeMap Address ValidatorRecord).insert offender (.new offender [1, 2, 3] 1000000 500)

def double_sign (height : UInt64) : JailCall :=
  .slash offender (.DoubleSign height 0) .default height

def downtime (height : UInt64) : JailCall := .slash offender (.Downtime 6 10) .default height

/-- The long term comes after the short one, and the release at the end of the short one does
not end it. -/
theorem long_term_after_a_short_one :
    TermsServed records [downtime 100, double_sign 101, .release 10180] :=
  jail_terms_are_served records _ (by unfold HeightsRise; decide)
    (jailRunMeets_cons (by decide +kernel) (jailRunMeets_cons (by decide +kernel)
      (jailRunMeets_cons trivial jailRunMeets_nil)))

/-- A double sign at height 100 is worth a term of 86400 blocks. After a downtime at height
101 the validator is active again at height 10181. -/
theorem short_term_after_a_long_one :
    HeightsRise [double_sign 100, downtime 101, .release 10181] ∧
    10181 < 100 + SlashingPolicy.default.double_sign_jail_blocks.toNat ∧
    ((runJail records [double_sign 100, downtime 101, .release 10181])[offender]?.map
      fun record => record.status) = some .Active ∧
    ¬ TermsServed records [double_sign 100, downtime 101, .release 10181] := by
  have hactive : ((runJail records [double_sign 100, downtime 101, .release 10181])[offender]?.map
      fun record => record.status) = some .Active := by decide +kernel
  refine ⟨by unfold HeightsRise; decide, by decide, hactive, ?_⟩
  intro hserved
  obtain ⟨record, hrecord, hstatus⟩ := Option.map_eq_some_iff.mp hactive
  exact hserved.inactive [double_sign 100, downtime 101] (.release 10181) [] rfl offender
    (.DoubleSign 100 0) .default 100 (by decide) (by decide) record hrecord hstatus

end Pemrix.Jail
