-- Runs of the executors and the laws of the staking records in the store: the
-- delegated stake of a validator is the sum of the delegations to it, no
-- delegation is empty or points to an address with no record, and a delegator
-- can take back what it put in.
import Pemrix.SerdeJson
import Pemrix.StakeBook

open Std

namespace Pemrix

/-- One call of an executor with a transaction. -/
inductive Call where
  | block (tx : Transaction)
  | staking (tx : Transaction)
  deriving DecidableEq

namespace Call

def tx : Call → Transaction
  | .block tx => tx
  | .staking tx => tx

variable [Crates]

def execute (s : StateStore InMemoryBackend) :
    Call → Except VmError ExecutionResult × StateStore InMemoryBackend
  | .block tx => BlockExecutor.execute s tx
  | .staking tx => StakingExecutor.execute s tx

/-- The `u128` operations of the call. -/
def operations (s : StateStore InMemoryBackend) : Call → List ArithOp
  | .block tx => BlockExecutor.operations s tx
  | .staking tx => StakingExecutor.operations s tx

/-- The fee that the call takes before the staking operation runs. -/
def fee : Call → Balance
  | .block tx => tx.fee
  | .staking _ => 0

/-- The call passes the checks before the fee. -/
def Accepted (s : StateStore InMemoryBackend) : Call → Prop
  | .block tx => BlockExecutor.verify_signature tx = .ok () ∧ s.nonce tx.sender = .ok tx.nonce
  | .staking _ => True

/-- Where the call comes to `delegated_stake += amount`, the sum is at most `u128::MAX`. -/
def Fits (s : StateStore InMemoryBackend) (c : Call) : Prop :=
  ∀ v amount record balance, c.Accepted s →
    StakingExecutor.decode c.tx.payload = .ok (.Delegate v amount) →
    s.validator_record v = .ok (some record) → record.status = .Active →
    s.balance c.tx.sender = .ok balance → c.fee.toNat + amount.toNat ≤ balance.toNat →
    record.delegated_stake.toNat + amount.toNat < 2 ^ 128

/-- What the call moves into the delegation of `d` to `v`. -/
def moved (s : StateStore InMemoryBackend) (c : Call) (d v : Address) : Int :=
  match StakingExecutor.decode c.tx.payload with
  | .error _ => 0
  | .ok op => Ledger.moved (c.execute s).1 c.tx.sender op d v

/-- The call on a ledger. -/
def outcome (L : Ledger) : Call → Outcome ExecutionResult
  | .block tx => L.execute tx
  | .staking tx => L.stakePayload tx

variable [LawfulRecords] {s : StateStore InMemoryBackend} {L : Ledger}

theorem execute_of_represents (h : Represents s L) (c : Call) :
    (c.execute s).1 = (c.outcome L).1 ∧ Represents (c.execute s).2 (c.outcome L).2.1 ∧
      c.operations s = (c.outcome L).2.2 := by
  cases c with
  | block tx => exact Pemrix.execute_of_represents h tx
  | staking tx => exact stake_of_represents h tx

/-- The ledger on which the staking operation of the call runs. -/
def before (L : Ledger) : Call → Ledger
  | .block tx => L.charge tx
  | .staking _ => L

/-- The call leaves the records, or it is a staking operation that runs after the fee. -/
theorem outcome_cases (h : Represents s L) (c : Call) :
    (L.LeavesRecords (c.outcome L) ∧ ∀ d v, c.moved s d v = 0) ∨
    (c.Accepted s ∧ c.fee ≤ (L.account c.tx.sender).balance ∧
      ∃ op ops, StakingExecutor.decode c.tx.payload = .ok op ∧
        c.outcome L =
          (((c.before L).stake c.tx.sender op).1, ((c.before L).stake c.tx.sender op).2.1,
          ops ++ ((c.before L).stake c.tx.sender op).2.2) ∧
        ∀ a b, .saturating_sub a b ∉ ops) := by
  have hr := (execute_of_represents h c).1
  unfold moved
  cases c with
  | staking tx =>
    simp only [outcome, Ledger.stakePayload, Call.tx]
    cases hd : StakingExecutor.decode tx.payload with
    | error e => exact Or.inl ⟨⟨rfl, rfl, by simp⟩, fun _ _ => rfl⟩
    | ok op =>
      refine Or.inr ⟨trivial, ?_, op, [], rfl, rfl, by simp⟩
      exact BitVec.le_def.mpr (Nat.zero_le _)
  | block tx =>
    rcases L.execute_cases tx with ⟨-, r, hsuccess, he⟩ | ⟨⟨hsig, hnonce, hfee⟩, he⟩
    · rw [outcome, he] at hr
      refine Or.inl ⟨by rw [outcome, he]; exact ⟨rfl, rfl, by simp⟩, ?_⟩
      intro d v
      rw [hr]
      split
      · rfl
      · exact Ledger.moved_of_not_success _ d v hsuccess _
    · rcases (L.charge tx).dispatch_cases tx with ⟨op, hop, hd⟩ | ⟨⟨e, hop⟩, hd⟩
      · rw [hd] at he
        refine Or.inr ⟨⟨hsig, by rw [h.nonce, hnonce]⟩, hfee, op, [_], hop, he, by simp⟩
      · refine Or.inl ⟨?_, ?_⟩
        · rw [outcome, he]
          exact ⟨hd.validators, hd.delegations, by simpa using hd.operations⟩
        · intro d v
          simp only [Call.tx, hop]

omit [Crates] [LawfulRecords] in
theorem before_consistent (hc : L.Consistent) (c : Call) : (c.before L).Consistent := by
  cases c with
  | block tx => exact hc.of_same_records rfl rfl
  | staking tx => exact hc

omit [Crates] [LawfulRecords] in
theorem before_balance (c : Call) :
    ((c.before L).account c.tx.sender).balance = (L.account c.tx.sender).balance - c.fee := by
  cases c with
  | block tx => exact congrArg Account.balance (L.account_charge tx)
  | staking tx => simp [before, Call.tx, fee]

omit [LawfulRecords] in
/-- A staking operation in an accepted call runs after the fee. -/
theorem outcome_of_accepted (h : Represents s L) {c : Call} (ha : c.Accepted s)
    (hfee : c.fee ≤ (L.account c.tx.sender).balance) {op : StakingOperation}
    (hop : StakingExecutor.decode c.tx.payload = .ok op) :
    (c.outcome L).1 = ((c.before L).stake c.tx.sender op).1 ∧
      (c.outcome L).2.1 = ((c.before L).stake c.tx.sender op).2.1 := by
  cases c with
  | staking tx =>
    simp only [Call.tx] at hop
    simp only [outcome, Ledger.stakePayload, hop]
    exact ⟨rfl, rfl⟩
  | block tx =>
    obtain ⟨hsig, hnonce⟩ := ha
    rw [h.nonce, Except.ok.injEq] at hnonce
    have hcharges : L.Charges tx := ⟨hsig, hnonce, hfee⟩
    rcases L.execute_cases tx with ⟨hno, -⟩ | ⟨-, he⟩
    · exact absurd hcharges hno
    · rcases (L.charge tx).dispatch_cases tx with ⟨op', hop', hd⟩ | ⟨⟨e, hop'⟩, -⟩
      · have hsame : op' = op := Except.ok.inj (hop'.symm.trans hop)
        subst hsame
        rw [outcome, he, hd]
        exact ⟨rfl, rfl⟩
      · have := hop'.symm.trans hop
        cases this

/-- Where the call fits, the operation in it fits. -/
theorem delegateFits_of_fits (h : Represents s L) {c : Call} (hf : c.Fits s) (ha : c.Accepted s)
    (hfee : c.fee ≤ (L.account c.tx.sender).balance) {op : StakingOperation}
    (hop : StakingExecutor.decode c.tx.payload = .ok op) (v : Address) (amount : Balance)
    (hd : op = .Delegate v amount) : (c.before L).DelegateFits c.tx.sender v amount := by
  subst hd
  intro record hrecord hactive hb
  have hrecord' : L.validators[v]? = some record := by
    cases c with
    | block tx => exact hrecord
    | staking tx => exact hrecord
  refine hf v amount record _ ha hop (by rw [h.validator_record, hrecord']) hactive
    (h.balance _) ?_
  rw [before_balance, BitVec.le_def, U128.toNat_sub hfee] at hb
  have := BitVec.le_def.mp hfee
  omega

/-- What one call preserves. -/
theorem outcome_consistent (h : Represents s L) (hc : L.Consistent) {c : Call} (hf : c.Fits s) :
    (c.outcome L).2.1.Consistent ∧
      ∀ d v, (((c.outcome L).2.1.delegation d v).amount.toNat : Int) =
        (L.delegation d v).amount.toNat + c.moved s d v := by
  rcases outcome_cases h c with ⟨hleaves, hm⟩ | ⟨ha, hfee, op, ops, hop, he, -⟩
  · refine ⟨hc.of_same_records hleaves.validators hleaves.delegations, ?_⟩
    intro d v
    rw [hm, Ledger.delegation, hleaves.delegations, Ledger.delegation, Int.add_zero]
  · have hfits := delegateFits_of_fits h hf ha hfee hop
    have hr := (execute_of_represents h c).1
    refine ⟨?_, ?_⟩
    · rw [he]
      exact Ledger.stake_consistent _ (before_consistent hc c) op hfits
    · intro d v
      have hmoves := Ledger.stake_moves _ (before_consistent hc c) op hfits d v
      have hsame : (c.before L).delegation d v = L.delegation d v := by
        cases c with
        | block tx => rfl
        | staking tx => rfl
      unfold moved
      rw [hop, hr, he]
      rw [hsame] at hmoves
      exact hmoves

/-- On consistent records no `saturating_sub` saturates. -/
theorem saturating_sub_exact (h : Represents s L) (hc : L.Consistent) (c : Call) {a b : U128}
    (hop : .saturating_sub a b ∈ c.operations s) : b ≤ a := by
  rw [(execute_of_represents h c).2.2] at hop
  rcases outcome_cases h c with ⟨hleaves, -⟩ | ⟨-, -, op, ops, -, he, hops⟩
  · exact absurd hop (hleaves.operations a b)
  · simp only [he, List.mem_append, hops, false_or] at hop
    cases op with
    | RegisterValidator consensus_pubkey commission_bps self_stake =>
      rcases (c.before L).register_cases c.tx.sender consensus_pubkey commission_bps self_stake with
        ⟨e, hs⟩ | ⟨-, -, hs⟩
      · simp [Ledger.stake, hs] at hop
      · simp [Ledger.stake, hs] at hop
    | Delegate v amount =>
      rcases (c.before L).delegate_cases c.tx.sender v amount with ⟨e, hs⟩ | ⟨_, -, -, -, -, hs⟩
      · simp [Ledger.stake, hs] at hop
      · simp [Ledger.stake, hs] at hop
    | Undelegate v amount =>
      rcases (c.before L).undelegate_cases c.tx.sender v amount with
        ⟨e, hs⟩ | ⟨x, record, hx, hrecord, hb, hs⟩
      · simp [Ledger.stake, hs] at hop
      · simp only [Ledger.stake, hs, List.mem_cons, ArithOp.saturating_sub.injEq, reduceCtorEq,
          List.not_mem_nil, or_false] at hop
        obtain ⟨rfl, rfl⟩ := hop
        have hle := (before_consistent hc c).amount_le (d := c.tx.sender) hrecord
        rw [Ledger.delegation_of_some hx] at hle
        exact BitVec.le_def.mpr (Nat.le_trans (BitVec.le_def.mp hb) hle)

end Call

/-! ## Runs -/

section Runs

variable [Crates]

def runCalls (s : StateStore InMemoryBackend) : List Call → StateStore InMemoryBackend
  | [] => s
  | c :: calls => runCalls (c.execute s).2 calls

/-- Every call of the run fits. -/
def FitRun (s : StateStore InMemoryBackend) : List Call → Prop
  | [] => True
  | c :: calls => c.Fits s ∧ FitRun (c.execute s).2 calls

/-- What the run has put into the delegation of `d` to `v`, less what it took out. -/
def putIn (s : StateStore InMemoryBackend) : List Call → Address → Address → Int
  | [], _, _ => 0
  | c :: calls, d, v => c.moved s d v + putIn (c.execute s).2 calls d v

variable [LawfulRecords]

/-- What a whole run preserves. -/
theorem runCalls_consistent {s : StateStore InMemoryBackend} {L : Ledger} (calls : List Call)
    (h : Represents s L) (hc : L.Consistent) (hf : FitRun s calls) :
    ∃ L', Represents (runCalls s calls) L' ∧ L'.Consistent ∧
      ∀ d v, ((L'.delegation d v).amount.toNat : Int) =
        (L.delegation d v).amount.toNat + putIn s calls d v := by
  induction calls generalizing s L with
  | nil => exact ⟨L, h, hc, fun _ _ => (Int.add_zero _).symm⟩
  | cons c calls ih =>
    obtain ⟨hfit, hrest⟩ := hf
    obtain ⟨hc', hmoved⟩ := Call.outcome_consistent h hc hfit
    obtain ⟨L', hr', hcon', hput⟩ := ih (Call.execute_of_represents h c).2.1 hc' hrest
    refine ⟨L', hr', hcon', ?_⟩
    intro d v
    rw [hput, hmoved, putIn, Int.add_assoc]

end Runs

/-! ## The store -/

section Store

variable [Crates]

/-- The amount of the delegation of `d` to `v`, or 0 with none. -/
def StateStore.delegated (s : StateStore InMemoryBackend) (d v : Address) : Nat :=
  match s.delegation d v with
  | .ok (some x) => x.amount.toNat
  | _ => 0

/-- The staking records in the store agree with each other. -/
structure StakeBook (s : StateStore InMemoryBackend) : Prop where
  readable : ∀ v, ∃ o, s.validator_record v = .ok o
  total : ∀ v record, s.validator_record v = .ok (some record) →
    record.delegated_stake.toNat = ∑ᶠ d, s.delegated d v
  address : ∀ v record, s.validator_record v = .ok (some record) → record.address = v
  delegation : ∀ d v, ∃ o, s.delegation d v = .ok o
  positive : ∀ d v x, s.delegation d v = .ok (some x) →
    0 < x.amount ∧ ∃ record, s.validator_record v = .ok (some record)

variable [LawfulRecords] {s : StateStore InMemoryBackend} {L : Ledger}

theorem delegated_of_represents (h : Represents s L) (d v : Address) :
    s.delegated d v = (L.delegation d v).amount.toNat := by
  unfold StateStore.delegated Ledger.delegation
  rw [h.delegation]
  cases L.delegations[(d, v)]? with
  | none => rfl
  | some x => rfl

theorem delegatedTo_eq_finsum (h : Represents s L) (v : Address) :
    L.delegatedTo v = ∑ᶠ d, s.delegated d v := by
  classical
  have hinj : Function.Injective fun d : Address => (d, v) := fun _ _ he => (Prod.mk.inj he).1
  unfold Ledger.delegatedTo
  rw [ExtTreeMap.sumBy_eq_finsum]
  simp only [delegated_of_represents h]
  rw [← finsum_mem_range (f := fun k : Address × Address =>
    (L.delegation k.1 k.2).amount.toNat) hinj]
  refine finsum_congr ?_
  rintro ⟨d, w⟩
  rw [Ledger.at0_delegations, finsum_eq_if]
  refine if_congr ?_ rfl rfl
  simp [eq_comm]

theorem stakeBook_of_consistent (h : Represents s L) (hc : L.Consistent) : StakeBook s := by
  refine ⟨?_, ?_, ?_, ?_, ?_⟩
  · intro v
    exact ⟨_, h.validator_record v⟩
  · intro v record hr
    rw [h.validator_record, Except.ok.injEq] at hr
    rw [hc.total hr]
    exact delegatedTo_eq_finsum h v
  · intro v record hr
    rw [h.validator_record, Except.ok.injEq] at hr
    exact hc.address hr
  · intro d v
    exact ⟨_, h.delegation d v⟩
  · intro d v x hx
    rw [h.delegation, Except.ok.injEq] at hx
    refine ⟨hc.positive hx, ?_⟩
    obtain ⟨record, hrecord⟩ := Option.ne_none_iff_exists'.mp (hc.validator hx)
    exact ⟨record, by rw [h.validator_record, hrecord]⟩

/-- A delegator takes back any part of its delegation. -/
theorem withdraw_of_consistent (h : Represents s L) (hc : L.Consistent) {c : Call} {v : Address}
    {x : Delegation} {amount balance : Balance}
    (hx : s.delegation c.tx.sender v = .ok (some x)) (hamount : amount ≤ x.amount)
    (hop : StakingExecutor.decode c.tx.payload = .ok (.Undelegate v amount)) (ha : c.Accepted s)
    (hb : s.balance c.tx.sender = .ok balance) (hfee : c.fee ≤ balance) :
    (c.execute s).1 = .ok ⟨true, 30000, "undelegated"⟩ ∧
      (c.execute s).2.balance c.tx.sender = .ok (balance - c.fee + amount) ∧
      (c.execute s).2.delegated c.tx.sender v + amount.toNat = x.amount.toNat := by
  rw [h.delegation, Except.ok.injEq] at hx
  rw [h.balance, Except.ok.injEq] at hb
  subst hb
  obtain ⟨hres, hrep, -⟩ := Call.execute_of_represents h c
  obtain ⟨hout, hledger⟩ := Call.outcome_of_accepted h ha hfee hop
  obtain ⟨record, hrecord⟩ := Option.ne_none_iff_exists'.mp (hc.validator hx)
  have hx' : (c.before L).delegations[(c.tx.sender, v)]? = some x := by
    cases c with
    | block tx => exact hx
    | staking tx => exact hx
  have hrecord' : (c.before L).validators[v]? = some record := by
    cases c with
    | block tx => exact hrecord
    | staking tx => exact hrecord
  obtain ⟨hok, hbalance⟩ := Ledger.undelegate_of_some _ _ _ hx' hrecord' hamount
  have hmoves := Ledger.stake_moves c.tx.sender (Call.before_consistent hc c) (.Undelegate v amount)
    (fun _ _ he => by cases he) c.tx.sender v
  refine ⟨?_, ?_, ?_⟩
  · rw [hres, hout]
    exact hok
  · rw [hrep.balance, hledger, ← Call.before_balance]
    exact congrArg Except.ok hbalance
  · rw [delegated_of_represents hrep, hledger]
    have hok' : ((c.before L).stake c.tx.sender (.Undelegate v amount)).1 =
        .ok ⟨true, 30000, "undelegated"⟩ := hok
    rw [hok', Ledger.delegation_of_some hx'] at hmoves
    simp only [Ledger.moved, true_and, if_true] at hmoves
    omega

/-- In every run whose delegations fit, the staking records agree: no `saturating_sub`
saturates, each delegation is what its delegator put in, and the delegator can take back any
part of it. -/
theorem staking_records_agree_in_every_fitting_run (accounts : ExtTreeMap Address Account)
    (calls : List Call) (hfit : FitRun ⟨⟨accounts, ∅⟩⟩ calls) :
    let s := runCalls ⟨⟨accounts, ∅⟩⟩ calls
    StakeBook s ∧
    (∀ (c : Call) a b, .saturating_sub a b ∈ c.operations s → b ≤ a) ∧
    (∀ d v, (s.delegated d v : Int) = putIn ⟨⟨accounts, ∅⟩⟩ calls d v) ∧
    ∀ (c : Call) v x amount balance, s.delegation c.tx.sender v = .ok (some x) → amount ≤ x.amount →
      StakingExecutor.decode c.tx.payload = .ok (.Undelegate v amount) → c.Accepted s →
      s.balance c.tx.sender = .ok balance → c.fee ≤ balance →
      (balance - c.fee).toNat + amount.toNat < 2 ^ 128 →
      (c.execute s).1 = .ok ⟨true, 30000, "undelegated"⟩ ∧
      (∃ b', (c.execute s).2.balance c.tx.sender = .ok b' ∧
        b'.toNat = (balance - c.fee).toNat + amount.toNat) ∧
      (c.execute s).2.delegated c.tx.sender v + amount.toNat = x.amount.toNat := by
  intro s
  obtain ⟨L, hr, hc, hput⟩ := runCalls_consistent calls (represents_of_accounts accounts)
    (Ledger.consistent_of_accounts accounts) hfit
  refine ⟨stakeBook_of_consistent hr hc, ?_, ?_, ?_⟩
  · intro c a b hop
    exact Call.saturating_sub_exact hr hc c hop
  · intro d v
    rw [delegated_of_represents hr, hput]
    simp [Ledger.delegation]
  · intro c v x amount balance hx hamount hop ha hb hfee hfits
    obtain ⟨hok, hbalance, hrest⟩ := withdraw_of_consistent hr hc hx hamount hop ha hb hfee
    exact ⟨hok, ⟨_, hbalance, U128.toNat_add hfits⟩, hrest⟩

end Store

end Pemrix

/-! ## Runs from fixed accounts -/

namespace Pemrix.Concrete

/-- A call of the staking executor with an operation. -/
def staking_call (sender : Address) (op : StakingOperation) : Call :=
  .staking
    { sender, recipient := sender, amount := 0, nonce := 0, fee := 0, public_key := [],
      signature := [], payload := 1 :: encode op }

/-- A validator, and two accounts that hold `u128::MAX` each. -/
def rich : ExtTreeMap Address Account :=
  ((∅ : ExtTreeMap Address Account).insert (addr 1) ⟨U128.MAX, 0⟩).insert (addr 2) ⟨U128.MAX, 0⟩
    |>.insert (addr 3) ⟨10000, 0⟩

def register_call : Call := staking_call (addr 3) (.RegisterValidator [7] 500 10000)

/-- Both accounts delegate all they have. -/
def delegate_all : List Call :=
  [register_call, staking_call (addr 1) (.Delegate (addr 3) U128.MAX),
    staking_call (addr 2) (.Delegate (addr 3) U128.MAX)]

/-- The delegated stake wraps: it is less than the delegation of one account, and to take
that one back saturates. -/
theorem delegated_stake_wraps :
    let s := runCalls ⟨⟨rich, ∅⟩⟩ delegate_all
    ¬ StakeBook s ∧ s.delegated (addr 1) (addr 3) = 2 ^ 128 - 1 ∧
      .saturating_sub (BitVec.ofNat 128 (2 ^ 128 - 2)) U128.MAX ∈
        (staking_call (addr 1) (.Undelegate (addr 3) U128.MAX)).operations s := by
  intro s
  have hone : s.delegated (addr 1) (addr 3) = 2 ^ 128 - 1 := by decide +kernel
  have hstake : (s.validator_record (addr 3)).map (Option.map (·.delegated_stake.toNat)) =
      .ok (some (2 ^ 128 - 2)) := by
    decide +kernel
  refine ⟨fun hbook => ?_, hone, by decide +kernel⟩
  obtain ⟨o, ho⟩ := hbook.readable (addr 3)
  rw [ho] at hstake
  cases o with
  | none => cases hstake
  | some record =>
    have hstake : record.delegated_stake.toNat = 2 ^ 128 - 2 :=
      Option.some.inj (Except.ok.inj hstake)
    have htotal := hbook.total (addr 3) record ho
    have hfinite : (Function.support fun d => s.delegated d (addr 3)).Finite := by
      by_contra hinf
      rw [finsum_of_infinite_support hinf] at htotal
      omega
    have hle := single_le_finsum (addr 1) hfinite fun _ => Nat.zero_le _
    rw [← htotal, hone] at hle
    omega

/-- An account delegates a part of what it has. -/
def delegate_some : List Call := [register_call, staking_call (addr 1) (.Delegate (addr 3) 5)]

theorem delegate_some_fits : FitRun ⟨⟨rich, ∅⟩⟩ delegate_some := by
  refine ⟨?_, ?_, trivial⟩
  · intro v amount record balance _ hop
    have hregister : StakingExecutor.decode register_call.tx.payload =
        .ok (.RegisterValidator [7] 500 10000) := by
      decide +kernel
    rw [hregister] at hop
    cases hop
  · intro v amount record balance _ hop hrecord
    have hdelegate : StakingExecutor.decode
        (staking_call (addr 1) (.Delegate (addr 3) 5)).tx.payload = .ok (.Delegate (addr 3) 5) := by
      decide +kernel
    rw [hdelegate] at hop
    cases hop
    have hstake : ((register_call.execute ⟨⟨rich, ∅⟩⟩).2.validator_record (addr 3)).map
        (Option.map (·.delegated_stake.toNat)) = .ok (some 0) := by
      decide +kernel
    rw [hrecord] at hstake
    have hstake : record.delegated_stake.toNat = 0 := Option.some.inj (Except.ok.inj hstake)
    intro _ _ _
    rw [hstake]
    decide

theorem delegate_some_agrees :
    let s := runCalls ⟨⟨rich, ∅⟩⟩ delegate_some
    s.delegated (addr 1) (addr 3) = 5 ∧ StakeBook s :=
  ⟨by decide +kernel, (staking_records_agree_in_every_fitting_run rich delegate_some
    delegate_some_fits).1⟩

end Pemrix.Concrete
