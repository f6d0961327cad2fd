-- The explorer and the webhooks beside the loop of the solo testnet. The explorer has
-- every block, and the accounts of genesis for good. A webhook is told of each block
-- and of each transaction in it, again in every block that has it again.
import Pemrix.FrontEnds
import Pemrix.Lookups
import Pemrix.SoloChain

open Std

namespace Pemrix

/-! ## Webhooks -/

inductive EventType where
  | Block
  | Transaction
  | TransactionConfirmed
  deriving DecidableEq

structure WebhookSubscription where
  id : String
  url : String
  events : Finset EventType
  secret : String
  active : Bool

def WebhookSubscription.new (id url : String) (events : Finset EventType) (secret : String) :
    WebhookSubscription where
  id
  url
  events
  secret
  active := true

structure WebhookDelivery where
  subscription_id : String
  event_type : EventType
  payload : Json
  signature : String

/-- The signature of a payload, over the HMAC of the crates. -/
def compute_signature (hmac_sha256 : Bytes → Bytes → Bytes) (secret : String) (payload : Json) :
    String :=
  InMemoryBackend.hex_encode (hmac_sha256 (Json.utf8 secret) payload.write)

def WebhookDelivery.new (hmac_sha256 : Bytes → Bytes → Bytes) (subscription : WebhookSubscription)
    (event_type : EventType) (payload : Json) : WebhookDelivery where
  subscription_id := subscription.id
  event_type
  payload
  signature := compute_signature hmac_sha256 subscription.secret payload

inductive DeliveryResult where
  | Success
  | RetryableFailure (message : String)
  | PermanentFailure (message : String)
  deriving DecidableEq

/-- Nothing is sent. -/
def deliver (_subscription : WebhookSubscription) (delivery : WebhookDelivery) : DeliveryResult :=
  if delivery.subscription_id.isEmpty then .PermanentFailure "invalid subscription id"
  else .Success

/-- The subscriptions are in a `HashMap`: their order stands for no order. -/
structure WebhookState where
  subscriptions : ExtTreeMap String WebhookSubscription
  delivery_log : List (String × DeliveryResult)

structure SubscribeRequest where
  url : String
  events : List EventType
  secret : Option String

namespace WebhookState

def new : WebhookState := ⟨∅, []⟩

def subscribe (s : WebhookState) (subscription : WebhookSubscription) : WebhookState :=
  { s with subscriptions := s.subscriptions.insert subscription.id subscription }

def unsubscribe (s : WebhookState) (id : String) : Option WebhookSubscription × WebhookState :=
  (s.subscriptions[id]?, { s with subscriptions := s.subscriptions.erase id })

def list (s : WebhookState) : List WebhookSubscription :=
  (s.subscriptions.toList.map Prod.snd).filter (·.active)

def trigger (hmac_sha256 : Bytes → Bytes → Bytes) (s : WebhookState) (event_type : EventType)
    (payload : Json) : WebhookState :=
  { s with
    delivery_log := s.delivery_log ++ (s.list.filter (event_type ∈ ·.events)).map fun sub =>
      (sub.id, deliver sub (.new hmac_sha256 sub event_type payload)) }

/-- The id and the secret, if the request has none, are new ones. -/
def subscribe_handler (s : WebhookState) (request : SubscribeRequest) (id secret : String) :
    WebhookSubscription × WebhookState :=
  let subscription :=
    WebhookSubscription.new id request.url request.events.toFinset (request.secret.getD secret)
  (subscription, s.subscribe subscription)

/-- The status: `204` or `404`. -/
def unsubscribe_handler (s : WebhookState) (id : String) : Nat × WebhookState :=
  (if (s.unsubscribe id).1.isSome then 204 else 404, (s.unsubscribe id).2)

/-- What the log has of one subscription. -/
def log_of (s : WebhookState) (id : String) : List (String × DeliveryResult) :=
  s.delivery_log.filter fun entry => entry.1 = id

/-- Every subscription is active, and stands under its id. -/
def Sound (s : WebhookState) : Prop :=
  ∀ (id : String) (subscription : WebhookSubscription), s.subscriptions[id]? = some subscription →
    subscription.id = id ∧ subscription.active = true

end WebhookState

/-! ## The explorer -/

namespace ExplorerState

def ingest_account (s : ExplorerState) (address : Address) (account : Account) : ExplorerState :=
  { s with accounts := s.accounts.insert address account }

def transaction (s : ExplorerState) (hash : Hash) : Option (UInt64 × Transaction) :=
  s.transactions[hash]?

def account (s : ExplorerState) (address : Address) : Option Account := s.accounts[address]?

/-- The blocks of the largest heights, from the largest on. -/
def recent_blocks (s : ExplorerState) (limit : Nat) : List Block :=
  (s.blocks.keys.reverse.take limit).filterMap fun h => s.blocks[h]?

end ExplorerState

/-! ## The testnet with its services -/

variable [Crates]

/-- The testnet, the two services, and the events of the last block that are to be triggered. -/
structure ServedTestnet where
  testnet : SoloTestnet
  explorer : ExplorerState
  webhooks : WebhookState
  notices : List (EventType × Json)

/-- The events of a block. -/
def notices_of (block : Block) : List (EventType × Json) :=
  (.Block, .object [("height", .number block.header.height.toNat)]) ::
    block.body.transactions.map fun tx =>
      (.Transaction, .object [("hash", .string tx.hash.to_string)])

inductive ServedEvent where
  | submit (transaction : Transaction)
  | produce (now : UInt64)
  | notify
  | subscribe (request : SubscribeRequest) (id secret : String)
  | unsubscribe (id : String)

namespace ServedTestnet

def start (genesis : GenesisConfig) : Except StorageError ServedTestnet :=
  genesis.genesis_block.map fun genesis_block =>
    { testnet := .start genesis.proposer genesis_block.hash genesis.allocations
      explorer := genesis.allocations.toList.foldl (fun s e => s.ingest_account e.1 e.2)
        (ExplorerState.new.ingest_block genesis_block)
      webhooks := .new
      notices := [] }

/-- A round, if the events of the last block are through. The explorer has the block before its
events are triggered. -/
def produce (s : ServedTestnet) (now : UInt64) : Option ServedTestnet :=
  if s.notices ≠ [] then some s
  else
    (s.testnet.produce now).map fun testnet =>
      let produced := testnet.blocks.drop s.testnet.blocks.length
      { s with
        testnet
        explorer := s.explorer.ingest_blocks produced
        notices := produced.flatMap notices_of }

/-- The next event. -/
def notify (hmac_sha256 : Bytes → Bytes → Bytes) (s : ServedTestnet) : ServedTestnet :=
  match s.notices with
  | [] => s
  | (event_type, payload) :: notices =>
    { s with webhooks := s.webhooks.trigger hmac_sha256 event_type payload, notices }

/-- A step: the loop, or a request to one of the servers. -/
def step (hmac_sha256 : Bytes → Bytes → Bytes) (s : ServedTestnet) :
    ServedEvent → Option ServedTestnet
  | .submit transaction =>
    (s.testnet.step (.submit transaction)).map fun testnet => { s with testnet }
  | .produce now => s.produce now
  | .notify => some (s.notify hmac_sha256)
  | .subscribe request id secret =>
    some { s with webhooks := (s.webhooks.subscribe_handler request id secret).2 }
  | .unsubscribe id => some { s with webhooks := (s.webhooks.unsubscribe_handler id).2 }

def run (hmac_sha256 : Bytes → Bytes → Bytes) (s : ServedTestnet) (events : List ServedEvent) :
    Option ServedTestnet :=
  events.foldlM (step hmac_sha256) s

end ServedTestnet

/-! ## What one trigger logs -/

section Triggers

omit [Crates]

theorem filter_key {α β : Type} [DecidableEq α] {l : List (α × β)}
    (hdist : l.Pairwise fun e f => e.1 ≠ f.1) {k : α} {v : β} (h : (k, v) ∈ l) :
    l.filter (fun e => e.1 = k) = [(k, v)] := by
  induction l with
  | nil => cases h
  | cons e l ih =>
    obtain ⟨hfirst, hrest⟩ := List.pairwise_cons.mp hdist
    rcases List.mem_cons.mp h with rfl | hmem
    · have hnone : l.filter (fun e => e.1 = k) = [] := by
        rw [List.filter_eq_nil_iff]
        intro f hf
        simpa using (hfirst f hf).symm
      rw [List.filter_cons_of_pos (by simp), hnone]
    · rw [List.filter_cons_of_neg (by simpa using hfirst _ hmem), ih hrest hmem]

variable {hmac_sha256 : Bytes → Bytes → Bytes} {s : WebhookState} {id : String}

/-- The subscriptions under an id. -/
theorem WebhookState.Sound.filter_list (h : s.Sound) (id : String) :
    s.list.filter (fun sub => sub.id = id) = (s.subscriptions[id]?).toList := by
  have hactive : s.list = s.subscriptions.toList.map Prod.snd := by
    refine List.filter_eq_self.mpr ?_
    intro sub hsub
    obtain ⟨⟨k, v⟩, hmem, rfl⟩ := List.mem_map.mp hsub
    exact (h k v (ExtTreeMap.mem_toList_iff_getElem?_eq_some.mp hmem)).2
  have hids : s.subscriptions.toList.filter (fun e => e.2.id = id) =
      s.subscriptions.toList.filter fun e => e.1 = id := by
    refine List.filter_congr ?_
    rintro ⟨k, v⟩ hmem
    rw [(h k v (ExtTreeMap.mem_toList_iff_getElem?_eq_some.mp hmem)).1]
  have hdist : s.subscriptions.toList.Pairwise fun e f => e.1 ≠ f.1 :=
    s.subscriptions.distinct_keys_toList.imp fun hne heq =>
      hne (LawfulEqCmp.compare_eq_iff_eq.mpr heq)
  rw [hactive, List.filter_map]
  show (s.subscriptions.toList.filter fun e => e.2.id = id).map Prod.snd = _
  rw [hids]
  rcases hat : s.subscriptions[id]? with _ | sub
  · have hnone : s.subscriptions.toList.filter (fun e => e.1 = id) = [] := by
      rw [List.filter_eq_nil_iff]
      rintro ⟨k, v⟩ hmem hk
      have hk : k = id := of_decide_eq_true hk
      rw [ExtTreeMap.mem_toList_iff_getElem?_eq_some, hk, hat] at hmem
      cases hmem
    rw [hnone]
    rfl
  · rw [filter_key hdist (ExtTreeMap.mem_toList_iff_getElem?_eq_some.mpr hat)]
    rfl

/-- A trigger adds one success for a subscription to the event, and nothing for another one. -/
theorem WebhookState.Sound.log_of_trigger (h : s.Sound) {sub : WebhookSubscription}
    (hsub : s.subscriptions[id]? = some sub) (hid : id ≠ "") (event_type : EventType)
    (payload : Json) :
    (s.trigger hmac_sha256 event_type payload).log_of id =
      s.log_of id ++ if event_type ∈ sub.events then [(id, .Success)] else [] := by
  have hname := (h id sub hsub).1
  unfold trigger log_of
  dsimp only
  rw [List.filter_append, List.filter_map]
  congr 1
  have hcomp : ((fun entry : String × DeliveryResult => decide (entry.1 = id)) ∘
      fun sub : WebhookSubscription =>
        (sub.id, deliver sub (.new hmac_sha256 sub event_type payload))) =
        fun sub => decide (sub.id = id) := rfl
  rw [hcomp, List.filter_comm, h.filter_list, hsub]
  by_cases hevent : event_type ∈ sub.events
  · rw [if_pos hevent]
    simp [hevent, deliver, WebhookDelivery.new, hname, hid]
  · rw [if_neg hevent]
    simp [hevent]

theorem WebhookState.Sound.trigger (h : s.Sound) (event_type : EventType) (payload : Json) :
    (s.trigger hmac_sha256 event_type payload).Sound := h

theorem WebhookState.Sound.subscribe (h : s.Sound) (request : SubscribeRequest)
    (id secret : String) : (s.subscribe_handler request id secret).2.Sound := by
  intro k sub hk
  change (s.subscriptions.insert id _)[k]? = some sub at hk
  rw [ExtTreeMap.getElem?_insert] at hk
  split at hk
  · rename_i heq
    obtain rfl := LawfulEqCmp.eq_of_compare heq
    cases hk
    exact ⟨rfl, rfl⟩
  · exact h k sub hk

theorem WebhookState.Sound.unsubscribe (h : s.Sound) (id : String) :
    (s.unsubscribe_handler id).2.Sound := by
  intro k sub hk
  change (s.subscriptions.erase id)[k]? = some sub at hk
  rw [ExtTreeMap.getElem?_erase] at hk
  split at hk
  · cases hk
  · exact h k sub hk

end Triggers

/-! ## What a subscriber is told -/

namespace ServedTestnet

variable {hmac_sha256 : Bytes → Bytes → Bytes} {s s' : ServedTestnet} {genesis : GenesisConfig}

theorem run_cons (s : ServedTestnet) (event : ServedEvent) (events : List ServedEvent) :
    s.run hmac_sha256 (event :: events) =
      (s.step hmac_sha256 event).bind fun s => s.run hmac_sha256 events :=
  List.foldlM_cons

theorem produced_block {t t' : SoloTestnet} {now : UInt64} (h : t.produce now = some t') :
    ∃ block, t'.blocks = t.blocks ++ [block] := by
  unfold SoloTestnet.produce at h
  split at h
  · cases h
  dsimp only at h
  split at h
  · cases h
  · cases h
    exact ⟨_, rfl⟩

/-- A round with nothing in line adds a block, and its events are in line. -/
theorem produce_cases {now : UInt64} (h : s.produce now = some s') :
    (s.notices ≠ [] ∧ s' = s) ∨
    ∃ testnet block, s.notices = [] ∧ s.testnet.produce now = some testnet ∧
      testnet.blocks = s.testnet.blocks ++ [block] ∧
      s' = { s with
        testnet, explorer := s.explorer.ingest_block block, notices := notices_of block } := by
  unfold ServedTestnet.produce at h
  split at h
  · rename_i hline
    cases h
    exact Or.inl ⟨hline, rfl⟩
  · rename_i hline
    obtain ⟨testnet, htestnet, rfl⟩ := Option.map_eq_some_iff.mp h
    obtain ⟨block, hblock⟩ := produced_block htestnet
    refine Or.inr ⟨testnet, block, not_not.mp hline, htestnet, hblock, ?_⟩
    rw [hblock, List.drop_left]
    dsimp only
    rw [List.flatMap_singleton]
    rfl

/-- Requests about the subscription with an id. -/
def About (id : String) : ServedEvent → Prop
  | .subscribe _ id' _ => id' = id
  | .unsubscribe id' => id' = id
  | _ => False

/-- What a subscriber to some events is told between two states: everything that was in line and
the events of the blocks that came, but for what is still in line. -/
structure Tells (id : String) (events : Finset EventType) (s s' : ServedTestnet)
    (produced : List Block) (told : List (EventType × Json)) : Prop where
  blocks : s'.testnet.blocks = s.testnet.blocks ++ produced
  line : s.notices ++ produced.flatMap notices_of = told ++ s'.notices
  log : s'.webhooks.log_of id = s.webhooks.log_of id ++
    (told.filter (·.1 ∈ events)).map fun _ => (id, DeliveryResult.Success)

omit [Crates] in
/-- The subscription is there and will stay. -/
structure Subscribed (id : String) (sub : WebhookSubscription) (w : WebhookState) : Prop where
  sound : w.Sound
  there : w.subscriptions[id]? = some sub
  name : id ≠ ""

variable {id : String} {sub : WebhookSubscription}

theorem Tells.nothing (hwebhooks : s'.webhooks.log_of id = s.webhooks.log_of id)
    (hblocks : s'.testnet.blocks = s.testnet.blocks) (hline : s'.notices = s.notices) :
    Tells id sub.events s s' [] [] :=
  ⟨hblocks.trans (List.append_nil _).symm, by rw [List.flatMap_nil, List.append_nil, hline]; rfl,
    hwebhooks.trans (List.append_nil _).symm⟩

/-- What one step tells. -/
theorem step_tells {event : ServedEvent} (h : Subscribed id sub s.webhooks)
    (hevent : ¬ About id event) (hstep : s.step hmac_sha256 event = some s') :
    Subscribed id sub s'.webhooks ∧ ∃ produced told, Tells id sub.events s s' produced told := by
  cases event with
  | submit tx =>
    cases hstep
    exact ⟨h, [], [], .nothing rfl rfl rfl⟩
  | produce now =>
    rcases produce_cases hstep with ⟨-, rfl⟩ | ⟨testnet, block, hline, -, hblocks, rfl⟩
    · exact ⟨h, [], [], .nothing rfl rfl rfl⟩
    · refine ⟨h, [block], [], hblocks, ?_, (List.append_nil _).symm⟩
      rw [hline, List.flatMap_singleton]
  | notify =>
    cases hstep
    unfold ServedTestnet.notify
    split
    · exact ⟨h, [], [], .nothing rfl rfl rfl⟩
    · rename_i event_type payload notices hline
      refine ⟨⟨h.sound.trigger event_type payload, h.there, h.name⟩, [], [(event_type, payload)],
        (List.append_nil _).symm, ?_, ?_⟩
      · rw [hline]
        exact List.append_nil _
      · dsimp only
        rw [h.sound.log_of_trigger h.there h.name]
        by_cases hmem : event_type ∈ sub.events
        · rw [if_pos hmem, List.filter_cons_of_pos (by simpa using hmem)]
          rfl
        · rw [if_neg hmem, List.filter_cons_of_neg (by simpa using hmem)]
          rfl
  | subscribe request id' secret =>
    cases hstep
    refine ⟨⟨h.sound.subscribe request id' secret, ?_, h.name⟩, [], [], .nothing rfl rfl rfl⟩
    change (s.webhooks.subscriptions.insert id' _)[id]? = _
    rw [ExtTreeMap.getElem?_insert, if_neg]
    · exact h.there
    · exact fun heq => hevent (LawfulEqCmp.eq_of_compare heq)
  | unsubscribe id' =>
    cases hstep
    refine ⟨⟨h.sound.unsubscribe id', ?_, h.name⟩, [], [], .nothing rfl rfl rfl⟩
    change (s.webhooks.subscriptions.erase id')[id]? = _
    rw [ExtTreeMap.getElem?_erase, if_neg]
    · exact h.there
    · exact fun heq => hevent (LawfulEqCmp.eq_of_compare heq)

/-- What a whole run tells. -/
theorem run_tells {events : List ServedEvent} (h : Subscribed id sub s.webhooks)
    (hevents : ∀ event ∈ events, ¬ About id event) (hrun : s.run hmac_sha256 events = some s') :
    ∃ produced told, Tells id sub.events s s' produced told := by
  induction events generalizing s with
  | nil =>
    cases hrun
    exact ⟨[], [], .nothing rfl rfl rfl⟩
  | cons event events ih =>
    obtain ⟨hevent, hevents⟩ := List.forall_mem_cons.mp hevents
    rw [run_cons] at hrun
    obtain ⟨s1, hstep, hrun⟩ := Option.bind_eq_some_iff.mp hrun
    obtain ⟨h1, produced, told, hfirst⟩ := step_tells h hevent hstep
    obtain ⟨produced', told', hrest⟩ := ih h1 hevents hrun
    refine ⟨produced ++ produced', told ++ told', ?_, ?_, ?_⟩
    · rw [hrest.blocks, hfirst.blocks, List.append_assoc]
    · rw [List.flatMap_append, ← List.append_assoc, hfirst.line, List.append_assoc, hrest.line,
        List.append_assoc]
    · rw [hrest.log, hfirst.log, List.append_assoc, List.filter_append, List.map_append]

/-- The subscriptions are sound, and no event in line is a confirmation. -/
structure Clean (s : ServedTestnet) : Prop where
  sound : s.webhooks.Sound
  line : ∀ notice ∈ s.notices, notice.1 ≠ .TransactionConfirmed

theorem notices_of_ne (block : Block) :
    ∀ notice ∈ notices_of block, notice.1 ≠ .TransactionConfirmed := by
  intro notice hnotice
  rcases List.mem_cons.mp hnotice with rfl | hnotice
  · intro heq
    cases heq
  · obtain ⟨tx, -, rfl⟩ := List.mem_map.mp hnotice
    intro heq
    cases heq

theorem Clean.step {event : ServedEvent} (h : s.Clean)
    (hstep : s.step hmac_sha256 event = some s') : s'.Clean := by
  cases event with
  | submit tx =>
    cases hstep
    exact ⟨h.sound, h.line⟩
  | produce now =>
    rcases produce_cases hstep with ⟨-, rfl⟩ | ⟨testnet, block, -, -, -, rfl⟩
    · exact h
    · exact ⟨h.sound, notices_of_ne block⟩
  | notify =>
    cases hstep
    unfold ServedTestnet.notify
    split
    · exact h
    · rename_i event_type payload notices hline
      refine ⟨h.sound.trigger event_type payload, fun notice hnotice => h.line notice ?_⟩
      rw [hline]
      exact List.mem_cons_of_mem _ hnotice
  | subscribe request id secret =>
    cases hstep
    exact ⟨h.sound.subscribe request id secret, h.line⟩
  | unsubscribe id =>
    cases hstep
    exact ⟨h.sound.unsubscribe id, h.line⟩

theorem Clean.run {events : List ServedEvent} (h : s.Clean)
    (hrun : s.run hmac_sha256 events = some s') : s'.Clean := by
  induction events generalizing s with
  | nil =>
    cases hrun
    exact h
  | cons event events ih =>
    rw [run_cons] at hrun
    obtain ⟨s1, hstep, hrun⟩ := Option.bind_eq_some_iff.mp hrun
    exact ih (h.step hstep) hrun

theorem start_cases (h : start genesis = .ok s) :
    ∃ genesis_block, genesis.genesis_block = .ok genesis_block ∧
      s.testnet = .start genesis.proposer genesis_block.hash genesis.allocations ∧
      s.explorer = { ExplorerState.new.ingest_block genesis_block with
        accounts := genesis.allocations } ∧ s.Clean := by
  have haccounts : ∀ (l : List (Address × Account)) (e : ExplorerState),
      l.foldl (fun s e => s.ingest_account e.1 e.2) e =
        { e with accounts := l.foldl (fun m e => m.insert e.1 e.2) e.accounts } := by
    intro l
    induction l with
    | nil => exact fun e => rfl
    | cons x l ih => exact fun e => ih _
  unfold start at h
  rcases hblock : genesis.genesis_block with e | genesis_block
  · rw [hblock] at h
    cases h
  · rw [hblock] at h
    cases h
    refine ⟨genesis_block, rfl, rfl, ?_, ?_, ?_⟩
    · dsimp only
      rw [haccounts]
      exact congrArg
        (fun accounts => { ExplorerState.new.ingest_block genesis_block with accounts })
        (ExtTreeMap.foldl_insert_toList genesis.allocations)
    · intro id sub hsub
      change (∅ : ExtTreeMap String WebhookSubscription)[id]? = some sub at hsub
      rw [ExtTreeMap.getElem?_empty] at hsub
      cases hsub
    · intro notice hnotice
      cases hnotice

/-- The number of events of some blocks that a subscriber wants. -/
theorem length_notices (events : Finset EventType) (blocks : List Block) :
    ((blocks.flatMap notices_of).filter (·.1 ∈ events)).length =
      (if EventType.Block ∈ events then blocks.length else 0) +
        if EventType.Transaction ∈ events then (transactions_of blocks).length else 0 := by
  have htxs : ∀ txs : List Transaction, ((txs.map fun tx =>
      (EventType.Transaction, Json.object [("hash", .string tx.hash.to_string)])).filter
        (·.1 ∈ events)).length = if EventType.Transaction ∈ events then txs.length else 0 := by
    intro txs
    by_cases hmem : EventType.Transaction ∈ events
    · rw [if_pos hmem, List.filter_eq_self.mpr, List.length_map]
      simp [hmem]
    · rw [if_neg hmem, List.filter_eq_nil_iff.mpr, List.length_nil]
      simp [hmem]
  induction blocks with
  | nil => simp [transactions_of]
  | cons block blocks ih =>
    have hsplit : transactions_of (block :: blocks) =
        block.body.transactions ++ transactions_of blocks := rfl
    rw [List.flatMap_cons, List.filter_append, List.length_append, ih, hsplit, notices_of,
      List.length_append, List.length_cons]
    by_cases hmem : EventType.Block ∈ events
    · rw [List.filter_cons_of_pos (by simpa using hmem), List.length_cons, htxs, if_pos hmem,
        if_pos hmem]
      split
      · omega
      · omega
    · rw [List.filter_cons_of_neg (by simpa using hmem), htxs, if_neg hmem, if_neg hmem]
      split
      · omega
      · omega

/-- Who subscribes to some events and stays is told of all that was in line and of all that came,
in order, but for what is still in line. Between two states with nothing in line that is one entry
in the log for each block and one for each transaction in a block, as far as they are wanted, so
none for a confirmation. -/
theorem subscriber_is_told {s0 : ServedTestnet} (hstart : start genesis = .ok s0)
    (before after : List ServedEvent) (hrun : s0.run hmac_sha256 before = some s)
    (request : SubscribeRequest) (id secret : String) (hid : id ≠ "")
    (hstays : ∀ event ∈ after, ¬ About id event)
    (hafter : s.run hmac_sha256 (.subscribe request id secret :: after) = some s') :
    ∃ produced told, Tells id request.events.toFinset s s' produced told ∧
      (∀ notice ∈ told, notice.1 ≠ .TransactionConfirmed) ∧
      (s.notices = [] → s'.notices = [] →
        (s'.webhooks.log_of id).length = (s.webhooks.log_of id).length +
          ((if EventType.Block ∈ request.events then produced.length else 0) +
            if EventType.Transaction ∈ request.events then (transactions_of produced).length
            else 0)) := by
  obtain ⟨-, -, -, -, hclean0⟩ := start_cases hstart
  have hclean := hclean0.run hrun
  rw [run_cons] at hafter
  obtain ⟨s1, hstep, hafter⟩ := Option.bind_eq_some_iff.mp hafter
  cases hstep
  have hsubscribed : Subscribed id (.new id request.url request.events.toFinset
      (request.secret.getD secret)) (s.webhooks.subscribe_handler request id secret).2 := by
    refine ⟨hclean.sound.subscribe request id secret, ?_, hid⟩
    exact ExtTreeMap.getElem?_insert_self
  obtain ⟨produced, told, htells⟩ := run_tells hsubscribed hstays hafter
  have htells' : Tells id request.events.toFinset s s' produced told :=
    ⟨htells.blocks, htells.line, htells.log⟩
  refine ⟨produced, told, htells', ?_, ?_⟩
  · intro notice hnotice
    have hmem : notice ∈ s.notices ++ produced.flatMap notices_of := by
      rw [htells'.line]
      exact List.mem_append_left _ hnotice
    rcases List.mem_append.mp hmem with hmem | hmem
    · exact hclean.line notice hmem
    · obtain ⟨block, -, hmem⟩ := List.mem_flatMap.mp hmem
      exact notices_of_ne block notice hmem
  · intro hline hline'
    have htold := htells'.line
    rw [hline, hline', List.nil_append, List.append_nil] at htold
    rw [htells'.log, List.length_append, List.length_map, ← htold, length_notices]
    simp only [List.mem_toFinset]

end ServedTestnet

end Pemrix

namespace Pemrix.Concrete

/-- A subscriber to transactions and confirmations. -/
def told_request : SubscribeRequest :=
  ⟨"http://localhost/hook", [.Transaction, .TransactionConfirmed], none⟩

def told_run : Option (ServedTestnet × ServedTestnet × ServedTestnet) :=
  match ServedTestnet.start seeded_genesis with
  | .error _ => none
  | .ok s0 =>
    (s0.run (fun _ _ => []) [.submit transfer]).bind fun s =>
      (s.run (fun _ _ => [])
        [.subscribe told_request "id" "secret", .produce 0, .notify, .notify]).map fun s' =>
          (s0, s, s')

/-- The block with the transfer comes, and the subscriber is told once. -/
theorem subscriber_is_told_once :
    ∃ s s' : ServedTestnet, (s.run (fun _ _ => [])
        [.subscribe told_request "id" "secret", .produce 0, .notify, .notify] = some s') ∧
      transactions_of s'.testnet.blocks = [transfer] ∧ (s'.webhooks.log_of "id").length = 1 := by
  have hrun : (told_run.map fun p =>
      (p.2.1.notices.isEmpty && p.2.2.notices.isEmpty && p.2.1.testnet.blocks.isEmpty,
        decide (transactions_of p.2.2.testnet.blocks = [transfer]),
        (p.2.1.webhooks.log_of "id").length)) = some (true, true, 0) := by
    decide +kernel
  obtain ⟨⟨s0, s, s'⟩, hp, hpair⟩ := Option.map_eq_some_iff.mp hrun
  simp only [Prod.mk.injEq, Bool.and_eq_true, List.isEmpty_iff, decide_eq_true_eq] at hpair
  obtain ⟨⟨⟨hline, hline'⟩, hblocks⟩, htransactions, hlog⟩ := hpair
  unfold told_run at hp
  split at hp
  · cases hp
  rename_i s1 hstart
  obtain ⟨s2, hbefore, hp⟩ := Option.bind_eq_some_iff.mp hp
  obtain ⟨s3, hafter, hsame⟩ := Option.map_eq_some_iff.mp hp
  simp only [Prod.mk.injEq] at hsame
  obtain ⟨-, rfl, rfl⟩ := hsame
  obtain ⟨produced, told, htells, -, hcount⟩ := ServedTestnet.subscriber_is_told hstart
    [.submit transfer] [.produce 0, .notify, .notify] hbefore told_request "id" "secret"
    (by decide) (by simp [ServedTestnet.About]) hafter
  have hproduced := htells.blocks
  rw [hblocks, List.nil_append] at hproduced
  refine ⟨s2, s3, hafter, htransactions, ?_⟩
  rw [hcount hline hline', hlog, ← hproduced, htransactions]
  rfl

end Pemrix.Concrete
