-- The nonces of the drips. A handler takes the nonce from the mirrored account, which knows
-- nothing of the drips that are signed but not in a block yet. Two drips never share a nonce as
-- long as each nonce is read when the mirrored account is past all drips that were signed before.
import Pemrix.Faucet
import Pemrix.TwiceIngested

open Std

namespace Pemrix

/-! ## The mirrored nonce -/

namespace RpcState

/-- A transaction that is replayed advances the nonce of its sender or leaves all nonces. -/
theorem nonce_le_replay {staking : RpcState → RpcState}
    (hstaking : ∀ s a, ((staking s).account a).nonce = (s.account a).nonce) (s : RpcState)
    (tx : Transaction) (a : Address) :
    (s.account a).nonce ≤ ((s.replay staking tx).account a).nonce := by
  unfold replay
  dsimp only
  split
  · exact UInt64.le_refl _
  split
  · exact UInt64.le_refl _
  · have hcharged : ∀ (x : Balance) (b : Address), (s.account b).nonce ≤
        (((staking s).set_account tx.sender
          ⟨x, saturating_add_u64 (s.account tx.sender).nonce 1⟩).account b).nonce := by
      intro x b
      rw [account_set_account]
      split
      · rename_i hb
        rw [← hb]
        exact View.next_nonce_le _
      · rw [hstaking]
        exact UInt64.le_refl _
    rw [account_set_account]
    split
    · rename_i ha
      rw [← ha]
      exact hcharged _ _
    · exact hcharged _ _

/-- The replay of staking writes balances and no nonces. -/
theorem nonce_replay_staking (s : RpcState) (sender : Address) (op : StakingOperation)
    (a : Address) : ((s.replay_staking sender op).account a).nonce = (s.account a).nonce := by
  have hset : ∀ (t : RpcState) (x : Balance),
      ((t.set_account sender { t.account sender with balance := x }).account a).nonce =
        (t.account a).nonce := by
    intro t x
    rw [account_set_account]
    split
    · rename_i ha
      rw [ha]
    · rfl
  cases op with
  | RegisterValidator consensus_pubkey commission_bps self_stake => exact hset s _
  | Delegate validator amount =>
    unfold replay_staking
    dsimp only
    split
    · exact hset s _
    · exact hset s _
  | Undelegate validator amount =>
    unfold replay_staking
    dsimp only
    rw [hset]
    cases s.get_validator validator with
    | none =>
      dsimp only
      split
      · split
        · rfl
        · rfl
      · rfl
    | some record =>
      dsimp only
      split
      · split
        · rfl
        · rfl
      · rfl

theorem nonce_replay_payload [Crates] (tx : Transaction) (s : RpcState) (a : Address) :
    ((s.replay_payload tx).account a).nonce = (s.account a).nonce := by
  unfold replay_payload
  cases StakingExecutor.decode tx.payload with
  | error e => rfl
  | ok op => exact s.nonce_replay_staking tx.sender op a

end RpcState

namespace FaucetSystem

variable [Crates]

/-- The drips that were answered with success have pairwise different nonces. -/
def NoncesDiffer (w : FaucetSystem) : Prop :=
  ∀ (i j : Nat) (tx tx' : Transaction), w.handlers[i]?.bind FaucetHandler.delivered = some tx →
    w.handlers[j]?.bind FaucetHandler.delivered = some tx' → i ≠ j → tx.nonce ≠ tx'.nonce

/-- A handler that reads the nonce finds the mirrored account past every drip signed so far. -/
def ReadsPastDrips (faucet : FaucetState) (w : FaucetSystem) : FaucetAction → Prop
  | .resume i => (w.handlers[i]?.any (·.reads_nonce)) = true →
    ∀ h ∈ w.handlers, ∀ tx ∈ h.drip, tx.nonce < faucet.submitter.nonce w.rpc
  | _ => True

omit [Crates] in
instance (faucet : FaucetState) (w : FaucetSystem) (action : FaucetAction) :
    Decidable (w.ReadsPastDrips faucet action) :=
  match action with
  | .resume _ => inferInstanceAs (Decidable (_ → _))
  | .request _ _ | .tick _ | .services_ingest _ | .testnet_ingest _ | .store _ => isTrue trivial

/-! ## What a run preserves -/

omit [Crates] in
/-- All drips that are signed, also those on their way, have pairwise different nonces. -/
def SignedDiffer (handlers : List FaucetHandler) : Prop :=
  ∀ (i j : Nat) (h h' : FaucetHandler) (tx tx' : Transaction), handlers[i]? = some h →
    handlers[j]? = some h' → h.drip = some tx → h'.drip = some tx' → i ≠ j → tx.nonce ≠ tx'.nonce

variable {faucet : FaucetState} {w : FaucetSystem} {handlers : List FaucetHandler}

omit [Crates] in
/-- A handler that comes with no drip of its own. -/
theorem SignedDiffer.snoc (hdiffer : SignedDiffer handlers) {h : FaucetHandler}
    (hdrip : h.drip = none) : SignedDiffer (handlers ++ [h]) := by
  intro i j g g' tx tx' hi hj htx htx'
  rcases getElem?_snoc_cases hi with ⟨-, rfl⟩ | hi
  · rw [hdrip] at htx
    cases htx
  rcases getElem?_snoc_cases hj with ⟨-, rfl⟩ | hj
  · rw [hdrip] at htx'
    cases htx'
  exact hdiffer i j g g' tx tx' hi hj htx htx'

omit [Crates] in
/-- A handler whose new drip is no one else's nonce. -/
theorem SignedDiffer.set (hdiffer : SignedDiffer handlers) {i : Nat} {h : FaucetHandler}
    (hnew : ∀ tx, h.drip = some tx → ∀ j g tx', i ≠ j → handlers[j]? = some g →
      g.drip = some tx' → tx'.nonce ≠ tx.nonce) : SignedDiffer (handlers.set i h) := by
  intro j k g g' tx tx' hj hk htx htx' hjk
  rcases getElem?_set_cases hj with ⟨rfl, rfl⟩ | ⟨hij, hold⟩
  · rcases getElem?_set_cases hk with ⟨rfl, -⟩ | ⟨hik, hold'⟩
    · exact absurd rfl hjk
    · exact (hnew tx htx k g' tx' hik hold' htx').symm
  · rcases getElem?_set_cases hk with ⟨rfl, rfl⟩ | ⟨hik, hold'⟩
    · exact hnew tx' htx' j g tx hij hold htx
    · exact hdiffer j k g g' tx tx' hold hold' htx htx' hjk

omit [Crates] in
/-- A handler that goes on with the drip it has. -/
theorem SignedDiffer.set_same (hdiffer : SignedDiffer handlers) {i : Nat} {h h' : FaucetHandler}
    (hget : handlers[i]? = some h) (hsame : h'.drip = h.drip) :
    SignedDiffer (handlers.set i h') := by
  refine hdiffer.set ?_
  intro tx htx j g tx' hij hj htx'
  rw [hsame] at htx
  exact (hdiffer i j h g tx tx' hget hj htx htx' hij).symm

omit [Crates] in
theorem check_drip (faucet : FaucetState) (cooldowns : FaucetService.Cooldowns) (now : Nat)
    (address amount : String) : (check faucet cooldowns now address amount).drip = none := by
  rcases check_cases faucet cooldowns now address amount with
    ⟨answer, hcheck⟩ | ⟨recipient, units, hcheck, -⟩
  · rw [hcheck]
    rfl
  · rw [hcheck]
    rfl

theorem SignedDiffer.step (hdiffer : SignedDiffer w.handlers) (action : FaucetAction)
    (hreads : w.ReadsPastDrips faucet action) :
    SignedDiffer (w.step faucet action).handlers := by
  cases action with
  | request address amount => exact hdiffer.snoc (check_drip ..)
  | resume i =>
    simp only [FaucetSystem.step]
    rcases w.resume_cases faucet i with
      ⟨recipient, amount, hget, hresume⟩ | ⟨recipient, tx, hget, hresume⟩ |
      ⟨recipient, tx, hash, hget, hresume⟩ | hresume
    · rw [hresume]
      refine hdiffer.set ?_
      intro tx htx j g tx' _ hj htx'
      have hpast := hreads (by rw [hget]; rfl) g (List.mem_of_getElem? hj) tx' htx'
      rcases sign_cases faucet w.rpc recipient amount with ⟨signed, hsign, hnonce⟩ | hsign
      · rw [hsign] at htx
        cases htx
        rw [hnonce]
        exact UInt64.ne_of_lt hpast
      · rw [hsign] at htx
        cases htx
    · rw [hresume]
      exact hdiffer.set_same hget rfl
    · rw [hresume]
      exact hdiffer.set_same hget rfl
    · rw [hresume]
      exact hdiffer
  | tick nanoseconds => exact hdiffer
  | services_ingest tx => exact hdiffer
  | testnet_ingest tx => exact hdiffer
  | store block => exact hdiffer

/-- In every run whose handlers read the nonce past the drips signed before, no two drips that
were answered with success share a nonce. -/
theorem drips_differ_in_every_run (faucet : FaucetState) (rpc : RpcState)
    (actions : List FaucetAction)
    (hreads : (start rpc).RunMeets faucet (ReadsPastDrips faucet) actions)
    (before : List FaucetAction) (hbefore : before <+: actions) :
    ((start rpc).run faucet before).NoncesDiffer := by
  have hdiffer : SignedDiffer ((start rpc).run faucet before).handlers := by
    refine run_invariant (I := fun w => SignedDiffer w.handlers) ?_ ?_ hreads hbefore
    · exact fun w action hw hmeets => hw.step action hmeets
    · intro i j h h' tx tx' hi
      simp [start] at hi
  intro i j tx tx' hi hj hij
  obtain ⟨h, hget, hd⟩ := Option.bind_eq_some_iff.mp hi
  obtain ⟨h', hget', hd'⟩ := Option.bind_eq_some_iff.mp hj
  exact hdiffer i j h h' tx tx' hget hget' (FaucetHandler.drip_of_delivered hd)
    (FaucetHandler.drip_of_delivered hd') hij

/-! ## What follows when a nonce is read too early -/

/-- No drip is past the mirrored nonce. -/
def NotAhead (faucet : FaucetState) (w : FaucetSystem) : Prop :=
  ∀ h ∈ w.handlers, ∀ tx ∈ h.drip, tx.nonce ≤ faucet.submitter.nonce w.rpc

/-- A drip after an action was signed before, or it has the nonce that is mirrored. -/
theorem drip_step {action : FaucetAction} {h : FaucetHandler} {tx : Transaction}
    (hmem : h ∈ (w.step faucet action).handlers) (hdrip : h.drip = some tx) :
    (∃ g ∈ w.handlers, g.drip = some tx) ∨ tx.nonce = faucet.submitter.nonce w.rpc := by
  cases action with
  | request address amount =>
    rcases List.mem_append.mp hmem with hold | hnew
    · exact .inl ⟨h, hold, hdrip⟩
    · rw [List.mem_singleton.mp hnew, check_drip] at hdrip
      cases hdrip
  | resume i =>
    obtain ⟨j, hj⟩ := List.mem_iff_getElem?.mp hmem
    simp only [FaucetSystem.step] at hj
    rcases w.resume_cases faucet i with
      ⟨recipient, amount, hget, hresume⟩ | ⟨recipient, tx', hget, hresume⟩ |
      ⟨recipient, tx', hash, hget, hresume⟩ | hresume
    · rw [hresume] at hj
      rcases getElem?_set_cases hj with ⟨-, rfl⟩ | ⟨-, hold⟩
      · rcases sign_cases faucet w.rpc recipient amount with ⟨signed, hsign, hnonce⟩ | hsign
        · rw [hsign] at hdrip
          cases hdrip
          exact .inr hnonce
        · rw [hsign] at hdrip
          cases hdrip
      · exact .inl ⟨h, List.mem_of_getElem? hold, hdrip⟩
    · rw [hresume] at hj
      rcases getElem?_set_cases hj with ⟨-, rfl⟩ | ⟨-, hold⟩
      · exact .inl ⟨_, List.mem_of_getElem? hget, hdrip⟩
      · exact .inl ⟨h, List.mem_of_getElem? hold, hdrip⟩
    · rw [hresume] at hj
      rcases getElem?_set_cases hj with ⟨-, rfl⟩ | ⟨-, hold⟩
      · exact .inl ⟨_, List.mem_of_getElem? hget, hdrip⟩
      · exact .inl ⟨h, List.mem_of_getElem? hold, hdrip⟩
    · rw [hresume] at hj
      exact .inl ⟨h, List.mem_of_getElem? hj, hdrip⟩
  | tick nanoseconds => exact .inl ⟨h, hmem, hdrip⟩
  | services_ingest tx' => exact .inl ⟨h, hmem, hdrip⟩
  | testnet_ingest tx' => exact .inl ⟨h, hmem, hdrip⟩
  | store block => exact .inl ⟨h, hmem, hdrip⟩

omit [Crates] in
theorem nonce_eq_account (submitter : LocalSubmitter) (s : RpcState) :
    submitter.nonce s = (s.account submitter.faucet_address).nonce := by
  unfold LocalSubmitter.nonce RpcState.account
  cases s.get_account submitter.faucet_address with
  | none => rfl
  | some account => rfl

/-- The mirrored nonce never falls. -/
theorem nonce_le_step (faucet : FaucetState) (w : FaucetSystem) (action : FaucetAction) :
    faucet.submitter.nonce w.rpc ≤ faucet.submitter.nonce (w.step faucet action).rpc := by
  cases action with
  | request address amount => exact UInt64.le_refl _
  | resume i =>
    simp only [FaucetSystem.step]
    rcases w.resume_cases faucet i with
      ⟨recipient, amount, -, hresume⟩ | ⟨recipient, tx, -, hresume⟩ |
      ⟨recipient, tx, hash, -, hresume⟩ | hresume
    · rw [hresume]
      exact UInt64.le_refl _
    · rw [hresume]
      exact UInt64.le_refl _
    · rw [hresume]
      exact UInt64.le_refl _
    · rw [hresume]
      exact UInt64.le_refl _
  | tick nanoseconds => exact UInt64.le_refl _
  | services_ingest tx =>
    rw [nonce_eq_account, nonce_eq_account]
    exact w.rpc.nonce_le_replay (RpcState.nonce_replay_payload tx) tx _
  | testnet_ingest tx =>
    rw [nonce_eq_account, nonce_eq_account]
    exact w.rpc.nonce_le_replay (fun _ _ => rfl) tx _
  | store block =>
    rw [nonce_eq_account, nonce_eq_account]
    simp only [FaucetSystem.step]
    rw [account_store]
    exact UInt64.le_refl _

theorem NotAhead.step (h : w.NotAhead faucet) (action : FaucetAction) :
    (w.step faucet action).NotAhead faucet := by
  intro g hmem tx hdrip
  refine UInt64.le_trans ?_ (nonce_le_step faucet w action)
  rcases drip_step hmem hdrip with ⟨g', hmem', hdrip'⟩ | hnonce
  · exact h g' hmem' tx hdrip'
  · rw [hnonce]
    exact UInt64.le_refl _

theorem NotAhead.run (h : w.NotAhead faucet) (actions : List FaucetAction) :
    (w.run faucet actions).NotAhead faucet := by
  induction actions generalizing w with
  | nil => exact h
  | cons action later ih => exact ih (h.step action)

/-- A handler that reads the nonce too early signs at the nonce of another drip. -/
theorem NotAhead.signs_again (hahead : w.NotAhead faucet) {i : Nat}
    (hearly : ¬ w.ReadsPastDrips faucet (.resume i))
    (hsigned : ((w.resume faucet i).handlers[i]?.bind FaucetHandler.drip).isSome) :
    ∃ j tx tx', i ≠ j ∧ (w.resume faucet i).handlers[i]?.bind FaucetHandler.drip = some tx ∧
      (w.resume faucet i).handlers[j]?.bind FaucetHandler.drip = some tx' ∧
      tx.nonce = tx'.nonce := by
  unfold ReadsPastDrips at hearly
  push Not at hearly
  obtain ⟨hreads, h, hmem, tx', htx', hle⟩ := hearly
  have hsame : tx'.nonce = faucet.submitter.nonce w.rpc :=
    UInt64.le_antisymm (hahead h hmem tx' htx') (UInt64.not_lt.mp hle)
  obtain ⟨j, hj⟩ := List.mem_iff_getElem?.mp hmem
  rcases hi : w.handlers[i]? with _ | g
  · rw [hi] at hreads
    cases hreads
  rw [hi, Option.any_some] at hreads
  cases g with
  | signed recipient tx => cases hreads
  | submitted recipient tx hash => cases hreads
  | sent recipient tx hash recorded => cases hreads
  | refused answer => cases hreads
  | checked recipient amount =>
    have hij : i ≠ j := by
      rintro rfl
      rw [hi] at hj
      cases hj
      cases htx'
    rw [resume_checked faucet hi] at hsigned ⊢
    rcases sign_cases faucet w.rpc recipient amount with ⟨tx, hsign, hnonce⟩ | hsign
    · rw [hsign]
      refine ⟨j, tx, tx', hij, rfl, ?_, hnonce.trans hsame.symm⟩
      rw [(resume_waits faucet w i).2 j hij, hj]
      exact htx'
    · rw [hsign] at hsigned
      cases hsigned

/-- Two drips at one nonce are delivered when their handlers go on. -/
theorem not_noncesDiffer_of_drips (faucet : FaucetState) {i j : Nat} {tx tx' : Transaction}
    (hij : i ≠ j) (hi : w.handlers[i]?.bind FaucetHandler.drip = some tx)
    (hj : w.handlers[j]?.bind FaucetHandler.drip = some tx') (hsame : tx.nonce = tx'.nonce) :
    ¬ (w.run faucet [.resume i, .resume i, .resume j, .resume j]).NoncesDiffer := by
  have hothers : ∀ (v : FaucetSystem) (k l : Nat), k ≠ l →
      ((v.resume faucet k).resume faucet k).handlers[l]? = v.handlers[l]? := by
    intro v k l hkl
    rw [(resume_waits faucet _ k).2 l hkl, (resume_waits faucet v k).2 l hkl]
  have hfirst := delivered_of_resumed faucet hi
  rw [← hothers _ j i (Ne.symm hij)] at hfirst
  rw [← hothers w i j hij] at hj
  exact fun hdiffer => hdiffer i j tx tx' hfirst (delivered_of_resumed faucet hj) hij hsame

/-- The other way round: when a handler reads the nonce too early and signs, its drip and an
earlier one share a nonce, and both are delivered when their handlers go on. -/
theorem drips_meet_when_read_early (faucet : FaucetState) (rpc : RpcState)
    (before : List FaucetAction) (i : Nat)
    (hearly : ¬ ((start rpc).run faucet before).ReadsPastDrips faucet (.resume i))
    (hsigned : ((((start rpc).run faucet before).resume faucet i).handlers[i]?.bind
      FaucetHandler.drip).isSome) :
    ∃ j, ¬ ((start rpc).run faucet
      (before ++ .resume i :: [.resume i, .resume i, .resume j, .resume j])).NoncesDiffer := by
  have hahead : ((start rpc).run faucet before).NotAhead faucet := by
    refine NotAhead.run ?_ before
    intro h hmem
    simp [start] at hmem
  obtain ⟨j, tx, tx', hij, hi, hj, hsame⟩ := hahead.signs_again hearly hsigned
  refine ⟨j, ?_⟩
  have hmeet := not_noncesDiffer_of_drips faucet hij hi hj hsame
  unfold run at hmeet ⊢
  rwa [List.foldl_append]

end FaucetSystem

end Pemrix

/-! ## Two drips -/

namespace Pemrix.Drips

open FaucetSystem

/-- Two requests before the next block. Both are answered with success, and when the drips are
executed in the order of their submission the second one is invalid. -/
theorem two_drips_at_one_nonce :
    let w := (start (.from_genesis accounts)).run faucet (request 9 0 ++ request 8 1)
    let store : StateStore InMemoryBackend := ⟨⟨accounts, ∅⟩⟩
    let executed := BlockExecutor.execute store first
    w.handlers.map FaucetHandler.delivered = [some first, some second] ∧
      w.rpc.pending = [first, second] ∧ executed.1 = .ok ⟨true, 21000, "ok"⟩ ∧
      (BlockExecutor.execute executed.2 second).1 = .ok ⟨false, 0, "invalid nonce"⟩ ∧
      ¬ w.NoncesDiffer := by
  intro w store executed
  have hdelivered : w.handlers.map FaucetHandler.delivered = [some first, some second] := by
    decide +kernel
  refine ⟨hdelivered, by decide +kernel, by decide +kernel, by decide +kernel, ?_⟩
  intro hdiffer
  have hget := getElem?_bind_of_map_eq hdelivered
  exact hdiffer 0 1 first second (hget 0) (hget 1) (by decide) rfl

/-- With the block of the first drip between the two requests the nonces differ. -/
theorem a_block_between_two_drips :
    ((start (.from_genesis accounts)).run faucet
      (request 9 0 ++ .services_ingest first :: request 8 1)).NoncesDiffer := by
  refine drips_differ_in_every_run faucet (.from_genesis accounts) _ ?_ _ (List.prefix_refl _)
  decide +kernel

end Pemrix.Drips
